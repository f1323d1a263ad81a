import SmallScript.Proofs.Typing.ElaboratesExpression

namespace SmallScript

namespace Resolver

open Code (Expression Statement Rules)
open SmallScript.Tree (Whole ExpressionsElaborate StatementsElaborate ResultElaborates)

section Statement

variable {F : Function → Prop}

theorem elaborates_valueOf (hF : (Rules.source F).Proper) {target : Ty} (ht : target.IsValue)
    (e : Tree.Expression) :
    Resolves F (valueOf target e) fun c ↦ Whole e.tokens → e.Elaborates c := by
  refine .bind (elaborates_value_of hF (elaborates_expression hF e)) fun c ↦
    (elaborates_convert (F := F) _ c target).mono fun c' heq hc hw ↦ ?_
  obtain ⟨hval, hc⟩ := hc hw
  exact heq hval ht ▸ hc

theorem elaborates_clauseType? (clause : Option Tree.TypeClause) {I : Resolution → Prop} :
    Honest Resolution.reports I (clauseType? clause) fun o ↦
      ∀ t, o = some t → ∀ c, clause = some c → Ty.written? c.identifier.text = some t := by
  cases clause with
  | none => exact .pure nofun
  | some clause =>
    refine .ite (fun _ ↦ .pure nofun) fun _ ↦ ?_
    split
    · next t ht =>
      refine .pure fun t' h c hc ↦ ?_
      cases h
      cases hc
      exact ht
    · exact .bind (honest_report _ _) fun _ ↦ .pure fun h ↦ h.elim

theorem elaborates_declared (owner : Option Function) (identifier : Token) (readOnly : Bool)
    {ty : Ty} (ht : ty.IsValue) :
    Resolves F (declared owner identifier readOnly ty) fun v ↦
      v.readOnly = readOnly ∧ (identifier.isMissing = false → v.name = identifier.text) := by
  refine .bind resolves_freshSymbol fun n ↦ .ite (fun hm ↦ ?_) fun hm ↦ .pure fun _ ↦ ⟨rfl, ?_⟩
  · refine .bind (resolves_declareVariable ht) fun b ↦ .ite (fun _ ↦ ?_) fun _ ↦ .pure fun _ _ ↦ ⟨rfl, ?_⟩
    · exact .bind (honest_report _ _) fun _ ↦ .pure fun h ↦ h.elim
    · intro hm
      simp [hm]
  · intro hm'
    simp [hm'] at hm

theorem elaborates_declaration (hF : (Rules.source F).Proper) (owner : Option Function)
    (keyword identifier equals : Token) {clause : Option Tree.TypeClause}
    {initializer : Tree.Expression} (hi : identifier.isMissing = false)
    (hw : Whole (Tree.clauseTokens clause)) (hw' : Whole initializer.tokens) :
    Resolves F (declaration owner keyword identifier clause initializer) fun s ↦
      (Tree.Statement.declare keyword identifier clause equals initializer).Elaborates s := by
  refine .bind_of ((honest_clauseType? clause).and (elaborates_clauseType? clause))
    (fun t ↦ .bind (resolves_value hF initializer).grows fun e ↦ grows_declare _ _ _ _ _ _)
    fun t ht ↦ ?_
  refine .bind_of (elaborates_value_of hF (elaborates_expression hF initializer))
    (fun e ↦ grows_declare _ _ _ _ _ _) ?_
  intro c hc
  obtain ⟨hval, hc⟩ := hc hw'
  obtain ⟨⟨hsome, hvalues⟩, hwritten⟩ := And.imp_left (· hw) ht
  have hty : (t.getD c.ty).IsValue := by
    cases t with
    | none => exact hval.2
    | some t => exact hvalues t rfl
  refine .bind ((resolves_declared owner identifier _ hty).and
    (elaborates_declared owner identifier _ hty)) fun v ↦
      .bind (elaborates_convert (F := F) initializer.span c _) fun c' ↦ .pure fun heq hv ↦ ?_
  obtain rfl := heq hval hty
  obtain ⟨hvty, hreadOnly, hname⟩ := hv
  refine .declare (hname hi) hreadOnly (fun written h ↦ ?_) hc
  subst h
  obtain ⟨t, rfl⟩ := Option.isSome_iff_exists.mp hsome
  exact hvty ▸ hwritten t rfl written rfl

theorem elaborates_jump {I : Resolution → Prop} (keyword : Token) (target : Exits → Label) :
    Honest Resolution.reports I (jump keyword target) fun s ↦ ∃ l, s = .goto l := by
  refine .bind .get ?_
  intro r
  split
  · exact .pure fun _ ↦ ⟨_, rfl⟩
  · exact .bind (honest_report _ _) fun _ ↦ .pure fun h ↦ h.elim

theorem elaborates_leaving (hF : (Rules.source F).Proper) {owner : Option Function}
    (howner : ∀ f, owner = some f → f.returns ≠ .unknown) (keyword : Token)
    (e : Option Tree.Expression) :
    Resolves F (leaving owner keyword e) fun s ↦
      (∀ e', e = some e' → Whole e'.tokens) → (Tree.Statement.leave keyword e).Elaborates s := by
  cases owner with
  | none =>
    have hreturned : Resolves F (e.mapM value) fun _ ↦ True := by
      cases e with
      | none => exact .pure trivial
      | some e => exact .bind (resolves_value hF e) fun _ ↦ .pure fun _ ↦ trivial
    exact .bind hreturned fun _ ↦ .bind (honest_report _ _) fun _ ↦ .pure fun h ↦ h.elim
  | some f =>
    cases e with
    | none =>
      rw [leaving_nothing]
      refine .ite (fun _ ↦ .bind (honest_report _ _) fun _ ↦ .pure fun h ↦ h.elim) fun _ ↦ .pure fun _ ↦ ?_
      exact .leave .none
    | some e =>
      rw [leaving_value]
      refine .bind (elaborates_value_of hF (elaborates_expression hF e)) fun c ↦ ?_
      refine .ite (fun _ ↦ .bind (honest_report _ _) fun _ ↦ .pure fun h ↦ h.elim) fun hv ↦ ?_
      refine .bind (elaborates_convert (F := F) e.span c f.returns) fun c' ↦ .pure fun heq hc hw ↦ ?_
      obtain ⟨hval, hc⟩ := hc (hw e rfl)
      obtain rfl := heq hval ⟨howner f rfl, hv⟩
      exact .leave (.some hc)

mutual

theorem elaborates_statement (hF : (Rules.source F).Proper) {owner : Option Function}
    (howner : ∀ f, owner = some f → f.returns ≠ .unknown) : (s : Tree.Statement) →
    Whole s.tokens → Resolves F (statement owner s) fun c ↦ s.Elaborates c
  | .block _ inner _, hw => by
    simp only [Tree.Statement.tokens, Whole.append_iff, Whole.cons_iff, List.cons_append] at hw
    exact .bind (resolves_inside (elaborates_statements hF howner inner hw.2.1)) fun _ ↦ .pure .block
  | .declare keyword identifier clause equals initializer, hw => by
    simp only [Tree.Statement.tokens, Whole.append_iff, Whole.cons_iff, List.cons_append] at hw
    exact elaborates_declaration hF owner keyword identifier equals hw.2.1 hw.2.2.1 hw.2.2.2.2
  | .ifThen _ condition branch, hw => by
    simp only [Tree.Statement.tokens, Whole.append_iff, Whole.cons_iff, List.cons_append] at hw
    exact .bind (elaborates_valueOf hF Ty.isValue_bool condition) fun _ ↦
      .bind (elaborates_statement hF howner branch hw.2.2) fun _ ↦ .pure fun hb hc ↦ .ifThen (hc hw.2.1) hb
  | .ifElse _ condition branch _ otherwise, hw => by
    simp only [Tree.Statement.tokens, Whole.append_iff, Whole.cons_iff, List.cons_append] at hw
    obtain ⟨-, ⟨hc, hb⟩, -, ho⟩ := hw
    exact .bind (elaborates_valueOf hF Ty.isValue_bool condition) fun _ ↦
      .bind (elaborates_statement hF howner branch hb) fun _ ↦
        .bind (elaborates_statement hF howner otherwise ho) fun _ ↦
          .pure fun h' h hcond ↦ .ifElse (hcond hc) h h'
  | .whileLoop _ condition body, hw => by
    simp only [Tree.Statement.tokens, Whole.append_iff, Whole.cons_iff, List.cons_append] at hw
    exact .bind (elaborates_valueOf hF Ty.isValue_bool condition) fun _ ↦
      .bind (resolves_insideLoop (elaborates_statement hF howner body hw.2.2)) fun _ ↦
        .pure fun hb hc ↦ .whileLoop (hc hw.2.1) hb
  | .doLoop _ body _ condition, hw => by
    simp only [Tree.Statement.tokens, Whole.append_iff, Whole.cons_iff, List.cons_append] at hw
    exact .bind (resolves_insideLoop (elaborates_statement hF howner body hw.2.1)) fun _ ↦
      .bind (elaborates_valueOf hF Ty.isValue_bool condition) fun _ ↦
        .pure fun hc hb ↦ .doLoop hb (hc hw.2.2.2)
  | .forLoop _ identifier _ lower _ upper body, hw => by
    simp only [Tree.Statement.tokens, Whole.append_iff, Whole.cons_iff, List.cons_append] at hw
    obtain ⟨-, hi, -, ⟨hl, -, hu⟩, hb⟩ := hw
    exact .bind (elaborates_valueOf hF Ty.isValue_int lower) fun _ ↦
      .bind (elaborates_valueOf hF Ty.isValue_int upper) fun _ ↦
        resolves_inside (.bind (elaborates_declared owner identifier true Ty.isValue_int) fun _ ↦
          .bind (resolves_insideLoop (elaborates_statement hF howner body hb)) fun _ ↦
            .pure fun h hv hlast hfirst ↦ .forLoop (hv.2 hi) hv.1 (hfirst hl) (hlast hu) h)
  | .breakLoop keyword, _ => (elaborates_jump keyword _).mono fun _ ⟨_, h⟩ ↦ h ▸ .breakLoop
  | .continueLoop keyword, _ => (elaborates_jump keyword _).mono fun _ ⟨_, h⟩ ↦ h ▸ .continueLoop
  | .leave keyword e, hw => by
    apply (elaborates_leaving hF howner keyword e).mono
    intro s h
    apply h
    intro e' he
    subst he
    exact (Whole.cons_iff.mp hw).2
  | .expression e, hw => .bind (elaborates_expression hF e) fun _ ↦ .pure fun h ↦ .expression (h hw)

theorem elaborates_statements (hF : (Rules.source F).Proper) {owner : Option Function}
    (howner : ∀ f, owner = some f → f.returns ≠ .unknown) : (l : List Tree.Statement) →
    Whole (Tree.statementTokens l) → Resolves F (statements owner l) fun cs ↦ StatementsElaborate l cs
  | [], _ => .pure .nil
  | s :: rest, hw => by
    obtain ⟨hs, hrest⟩ := Whole.append_iff.mp hw
    exact .bind (elaborates_statement hF howner s hs) fun _ ↦
      .bind (elaborates_statements hF howner rest hrest) fun _ ↦ .pure fun h' h ↦ .cons h h'

end

end Statement

end Resolver

end SmallScript
