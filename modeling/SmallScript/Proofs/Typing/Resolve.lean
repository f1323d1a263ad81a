import SmallScript.Proofs.Honest
import SmallScript.Proofs.Resolve.Reporting
import SmallScript.Proofs.Tree.Tokens
import SmallScript.Proofs.Typing.Basic

namespace SmallScript

open Code (Rules)

/-- The variables of all scopes are values, and the functions have `F`. -/
def Scopes.Sound (F : Function → Prop) (s : Scopes) : Prop :=
  ∀ f ∈ s.frames, (∀ v ∈ f.vars, v.ty.IsValue) ∧ ∀ g ∈ f.functions, F g

namespace Scopes

variable {F : Function → Prop} {s : Scopes}

theorem mem_frames_of_mem_outward {f : Frame} (n scope : Nat) (h : f ∈ s.outward n scope) :
    f ∈ s.frames := by
  induction n generalizing scope with
  | zero => cases h
  | succ n ih =>
    simp only [outward] at h
    split at h
    · cases h
    · next g hg =>
      rcases List.mem_cons.mp h with rfl | h
      · exact Array.mem_of_getElem? hg
      · cases hp : g.parent with
        | none => simp [hp] at h
        | some parent => exact ih parent (by simpa [hp] using h)

theorem mem_frames_of_mem_chain {f : Frame} {scope : Nat} (h : f ∈ s.chain scope) : f ∈ s.frames :=
  mem_frames_of_mem_outward _ _ h

theorem Sound.of_lookupVariable (h : s.Sound F) {scope : Nat} {name : String} {v : Variable}
    (hv : s.lookupVariable scope name = some v) : v.ty.IsValue := by
  obtain ⟨f, hf, hv⟩ := List.exists_of_findSome?_eq_some hv
  exact (h f (mem_frames_of_mem_chain hf)).1 v (List.mem_of_find?_eq_some hv)

theorem Sound.of_lookupFunction (h : s.Sound F) {scope : Nat} {name : String} {g : Function}
    (hg : s.lookupFunction scope name = some g) : F g := by
  obtain ⟨f, hf, hg⟩ := List.exists_of_findSome?_eq_some hg
  exact (h f (mem_frames_of_mem_chain hf)).2 g (List.mem_of_find?_eq_some hg)

theorem Sound.push (h : s.Sound F) (parent : Nat) : (s.push parent).2.Sound F := by
  intro f hf
  rcases Array.mem_push.mp hf with hf | rfl
  · exact h f hf
  · simp

theorem Sound.set! (h : s.Sound F) {scope : Nat} {f : Frame}
    (hf : (∀ v ∈ f.vars, v.ty.IsValue) ∧ ∀ g ∈ f.functions, F g) :
    Sound F ⟨s.frames.set! scope f⟩ := by
  intro g hg
  rw [Array.set!_eq_setIfInBounds] at hg
  rcases Array.mem_or_eq_of_mem_setIfInBounds hg with hg | rfl
  · exact h g hg
  · exact hf

theorem Sound.declareVariable (h : s.Sound F) {scope : Nat} {v : Variable} (hv : v.ty.IsValue) :
    ((s.declareVariable? scope v).getD s).Sound F := by
  refine declareVariable_keeps h fun f hf ↦ ?_
  obtain ⟨hvars, hfunctions⟩ := h f (Array.mem_of_getElem? hf)
  exact h.set! ⟨List.forall_mem_append.mpr ⟨hvars, List.forall_mem_singleton.mpr hv⟩, hfunctions⟩

theorem Sound.declareFunction (h : s.Sound F) {scope : Nat} {g : Function} (hg : F g) :
    ((s.declareFunction? scope g).getD s).Sound F := by
  refine declareFunction_keeps h fun f hf ↦ ?_
  obtain ⟨hvars, hfunctions⟩ := h f (Array.mem_of_getElem? hf)
  exact h.set! ⟨hvars, List.forall_mem_append.mpr ⟨hfunctions, List.forall_mem_singleton.mpr hg⟩⟩

end Scopes

namespace Resolver

open Code

open SmallScript.Tree (Whole)

abbrev Resolves {α : Type} (F : Function → Prop) (m : Resolver α) (Q : α → Prop) : Prop :=
  Honest Resolution.reports (fun r ↦ r.scopes.Sound F) m Q

section State

variable {α : Type} {I : Resolution → Prop} {F : Function → Prop}

theorem honest_report (span : Span) (cause : Cause) :
    Honest Resolution.reports I (report span cause) fun _ ↦ False :=
  .of_cons fun _ ↦ ⟨_, rfl⟩

theorem resolves_freshSymbol : Resolves F freshSymbol fun _ ↦ True :=
  .of_log_eq (fun _ ↦ rfl) fun _ h ↦ ⟨h, trivial⟩

theorem resolves_declareVariable {v : Variable} (hv : v.ty.IsValue) :
    Resolves F (declareVariable v) fun _ ↦ True :=
  .of_log_eq (fun r ↦ by rw [declareVariable_snd]) fun r h ↦
    ⟨by rw [declareVariable_snd]; exact h.declareVariable hv, trivial⟩

theorem resolves_lookupVariable (name : String) :
    Resolves F (lookupVariable name) fun o ↦ ∀ v, o = some v → v.ty.IsValue :=
  .of_log_eq (fun _ ↦ rfl) fun _ h ↦ ⟨h, fun _ hv ↦ h.of_lookupVariable hv⟩

theorem resolves_lookupFunction (name : String) :
    Resolves F (lookupFunction name) fun o ↦ ∀ f, o = some f → F f :=
  .of_log_eq (fun _ ↦ rfl) fun _ h ↦ ⟨h, fun _ hf ↦ h.of_lookupFunction hf⟩

theorem resolves_inside {m : Resolver α} {Q : α → Prop} (h : Resolves F m Q) :
    Resolves F (inside m) Q :=
  .bind (.of_log_eq (Q := fun _ ↦ True) (fun _ ↦ rfl) fun _ h ↦ ⟨h.push _, trivial⟩) fun _ ↦
    .bind h fun _ ↦ .bind (.of_log_eq (Q := fun _ ↦ True) (fun _ ↦ rfl) fun _ h ↦ ⟨h, trivial⟩) fun _ ↦
      .pure fun _ h _ ↦ h

theorem resolves_insideLoop {m : Resolver α} {Q : α → Prop} (h : Resolves F m Q) :
    Resolves F (insideLoop m) fun p ↦ Q p.1 :=
  .bind (.of_log_eq (Q := fun _ ↦ True) (fun _ ↦ rfl) fun _ h ↦ ⟨h, trivial⟩) fun _ ↦
    .bind h fun _ ↦ .bind (.of_log_eq (Q := fun _ ↦ True) (fun _ ↦ rfl) fun _ h ↦ ⟨h, trivial⟩) fun _ ↦
      .pure fun _ h _ ↦ h

theorem honest_clauseType? (clause : Option Tree.TypeClause) :
    Honest Resolution.reports I (clauseType? clause) fun o ↦
      Whole (Tree.clauseTokens clause) → o.isSome = clause.isSome ∧ ∀ t, o = some t → t.IsValue := by
  cases clause with
  | none => exact .pure fun _ ↦ ⟨rfl, nofun⟩
  | some clause =>
    refine .ite (fun hm ↦ .pure fun hw ↦ ?_) fun _ ↦ ?_
    · simp [Tree.clauseTokens, Tree.TypeClause.tokens, hm] at hw
    · split
      · next t ht =>
        refine .pure fun _ ↦ ⟨rfl, fun t' h ↦ ?_⟩
        cases h
        exact Ty.isValue_of_written? ht
      · exact .bind (honest_report _ _) fun _ ↦ .pure fun h ↦ h.elim

end State

section Expression

variable {I : Resolution → Prop} {F : Function → Prop}

theorem honest_needValue (hF : (Rules.source F).Proper) (span : Span) (e : Expression) :
    Honest Resolution.reports I (needValue span e) fun e' ↦
      e.WellTyped (.source F) → e'.Valued (.source F) :=
  .ite (fun _ ↦ .bind (honest_report _ _) fun _ ↦ .pure fun h ↦ h.elim)
    fun h ↦ .pure fun he ↦ ⟨he, he.ty_ne_unknown hF, h⟩

theorem honest_convert (span : Span) (e : Expression) (target : Ty) (isWritten : Bool) :
    Honest Resolution.reports I (convert span e target isWritten) fun e' ↦
      e.Valued (.source F) → target.IsValue → e'.WellTyped (.source F) ∧ e'.ty = target := by
  unfold convert
  split
  · next hc =>
    refine .ite (fun _ ↦ ?_) fun hn ↦ .pure fun he ht ↦ absurd ⟨he.2.1, ht.1⟩ hn
    exact .bind (honest_report _ _) fun _ ↦ .pure fun h ↦ h.elim
  · next hc => exact .pure fun he _ ↦ ⟨he.1, Conversion.classify_eq_identity_iff.mp hc⟩
  · next hc => exact absurd hc (Conversion.classify_ne_silent _ _)
  · next hc =>
    refine .ite (fun _ ↦ ?_) fun _ ↦ .pure fun he _ ↦ ⟨⟨he.1, hc⟩, rfl⟩
    exact .bind (honest_report _ _) fun _ ↦ .pure fun h ↦ h.elim

theorem resolves_named (identifier : Token) :
    Resolves F (named identifier) fun e ↦
      identifier.isMissing = false → e.WellTyped (.source F) := by
  refine .ite (fun hm ↦ .pure fun h ↦ absurd (hm.symm.trans h) nofun) fun _ ↦ ?_
  refine .bind (resolves_lookupVariable _) ?_
  intro o
  cases o with
  | none => exact .bind (honest_report _ _) fun _ ↦ .pure fun h ↦ h.elim
  | some v => exact .pure fun h _ ↦ h v rfl

theorem resolves_assigned (identifier equals : Token) (span : Span) (value : Expression) :
    Resolves F (assigned identifier equals span value) fun e ↦
      value.Valued (.source F) → e.WellTyped (.source F) := by
  refine .bind (resolves_lookupVariable _) ?_
  intro o
  cases o with
  | none => exact .bind (honest_report _ _) fun _ ↦ .pure fun h ↦ h.elim
  | some v =>
    refine .ite (fun _ ↦ ?_) fun hr ↦ ?_
    · exact .bind (honest_report _ _) fun _ ↦
        .bind (honest_convert (F := F) span value v.ty false) fun _ ↦ .pure fun _ h ↦ h.elim
    · refine .bind (honest_convert (F := F) span value v.ty false) fun e ↦ .pure fun he hv hval ↦ ?_
      obtain ⟨he, hty⟩ := he hval (hv v rfl)
      exact ⟨eq_false_of_ne_true hr, hv v rfl, he, hty⟩

theorem honest_unary (sign : Token) (operand : Expression) :
    Honest Resolution.reports I (unary sign operand) fun e ↦
      operand.Valued (.source F) → e.WellTyped (.source F) := by
  refine .ite (fun hu ↦ .pure fun h ↦ absurd hu h.2.1) fun _ ↦ ?_
  split
  · next o ho =>
    exact .pure fun h ↦ ⟨List.mem_of_find?_eq_some ho, h.1, (UnaryOperator.operand_of_find? ho).symm⟩
  · exact .bind (honest_report _ _) fun _ ↦ .pure fun h ↦ h.elim

theorem honest_binary (left : Expression) (sign : Token) (right : Expression) :
    Honest Resolution.reports I (binary left sign right) fun e ↦
      left.Valued (.source F) → right.Valued (.source F) → e.WellTyped (.source F) := by
  refine .ite (fun hu ↦ .pure fun h h' ↦ (hu.elim h.2.1 h'.2.1).elim) fun _ ↦ ?_
  split
  · next o ho =>
    obtain ⟨hl, hr⟩ := BinaryOperator.operand_of_find? ho
    exact .pure fun h h' ↦ ⟨List.mem_of_find?_eq_some ho, ⟨h.1, hl.symm⟩, h'.1, hr.symm⟩
  · exact .bind (honest_report _ _) fun _ ↦ .pure fun h ↦ h.elim

theorem honest_matchArguments (name : String) (vs : List Variable) (es : List Expression)
    (spans : List Span) :
    Honest Resolution.reports I (matchArguments name vs es spans) fun b ↦
      es.length = vs.length → spans.length = es.length → (∀ e ∈ es, e.Valued (.source F)) →
        b = true ∧ ArgumentsTyped (.source F) vs es := by
  induction vs generalizing es spans with
  | nil =>
    refine .pure ?_
    intro hlen _ _
    obtain rfl := List.length_eq_zero_iff.mp hlen
    exact ⟨rfl, trivial⟩
  | cons v vs ih =>
    rcases es with _ | ⟨e, es⟩
    · exact .pure fun hlen ↦ nomatch hlen
    rcases spans with _ | ⟨span, spans⟩
    · exact .pure fun _ hspans ↦ nomatch hspans
    refine .ite (fun hty ↦ (ih es spans).mono fun b hb hlen hspans he ↦ ?_) fun _ ↦
      .ite (fun _ ↦ ?_) fun hu ↦ ?_
    · obtain ⟨hv, hes⟩ := List.forall_mem_cons.mp he
      obtain ⟨hb, hall⟩ := hb (Nat.succ.inj hlen) (Nat.succ.inj hspans) hes
      exact ⟨hb, ⟨hv.1, hty⟩, hall⟩
    · exact .bind (honest_report _ _) fun _ ↦ .bind (ih es spans) fun _ ↦ .pure fun _ h ↦ h.elim
    · refine .bind (ih es spans) fun _ ↦ .pure fun _ _ _ he ↦ ?_
      exact (hu (List.forall_mem_cons.mp he).1.2.1).elim

theorem resolves_called (identifier : Token) (span : Span) (arguments : List Expression)
    (spans : List Span) :
    Resolves F (called identifier span arguments spans) fun e ↦
      spans.length = arguments.length → (∀ e ∈ arguments, e.Valued (.source F)) →
        e.WellTyped (.source F) := by
  refine .bind (resolves_lookupFunction _) ?_
  intro o
  cases o with
  | none => exact .bind (honest_report _ _) fun _ ↦ .pure fun h ↦ h.elim
  | some f =>
    refine .ite (fun _ ↦ .bind (honest_report _ _) fun _ ↦ .pure fun h ↦ h.elim) fun hlen ↦ ?_
    have hlen := Decidable.not_not.mp hlen
    refine .bind (honest_matchArguments (F := F) _ _ _ _) ?_
    intro b
    refine .ite (fun hb ↦ ?_) fun hb ↦ ?_
    · exact .pure fun h hf hspans he ↦ ⟨hf f rfl, (h hlen hspans he).2⟩
    · exact .pure fun h _ hspans he ↦ absurd (h hlen hspans he).1 hb

mutual

theorem resolves_expression (hF : (Rules.source F).Proper) : (e : Tree.Expression) →
    Resolves F (expression e) fun c ↦ Whole e.tokens → c.WellTyped (.source F)
  | .literal _ v => .pure fun _ ↦ trivial
  | .name identifier => (resolves_named identifier).mono fun _ h hw ↦ h (by simpa [Tree.Expression.tokens] using hw)
  | .unary sign operand =>
    .bind (resolves_expression hF operand) fun _ ↦ .bind (honest_needValue hF _ _) fun _ ↦
      (honest_unary sign _).mono fun _ h hv he hw ↦ h (hv (he (by simp_all [Tree.Expression.tokens])))
  | .binary left sign right =>
    .bind (resolves_expression hF left) fun _ ↦ .bind (honest_needValue hF _ _) fun _ ↦
      .bind (resolves_expression hF right) fun _ ↦ .bind (honest_needValue hF _ _) fun _ ↦
        (honest_binary _ sign _).mono fun _ h hv' he' hv he hw ↦ by
          simp only [Tree.Expression.tokens, Whole.append_iff, Whole.cons_iff] at hw
          exact h (hv (he hw.1)) (hv' (he' hw.2.2))
  | .group _ inner _ =>
    .bind (resolves_expression hF inner) fun _ ↦ (honest_needValue hF _ _).mono fun _ hv he hw ↦
      (hv (he (by simp_all [Tree.Expression.tokens]))).1
  | .assign identifier equals value =>
    .bind (resolves_expression hF value) fun _ ↦ .bind (honest_needValue hF _ _) fun _ ↦
      (resolves_assigned identifier equals _ _).mono fun _ h hv he hw ↦
        h (hv (he (by simp_all [Tree.Expression.tokens])))
  | .call identifier opening arguments closing => by
    refine .bind (resolves_expressions hF arguments) ?_
    intro es
    dsimp only
    split
    · next target _ ht =>
      apply (honest_convert (F := F) _ _ target true).mono
      intro c h he hw
      simp only [Tree.Expression.tokens, Whole.append_iff, Whole.cons_iff, List.cons_append] at hw
      exact (h ((he hw.2.2.1).2 _ List.mem_cons_self) (Ty.isValue_of_written? ht)).1
    · apply (resolves_called _ _ _ _).mono
      intro c h he hw
      simp only [Tree.Expression.tokens, Whole.append_iff, Whole.cons_iff, List.cons_append] at hw
      obtain ⟨hlen, he⟩ := he hw.2.2.1
      exact h ((List.length_map _).trans hlen.symm) he

theorem resolves_expressions (hF : (Rules.source F).Proper) : (es : List Tree.Expression) →
    Resolves F (expressions es) fun cs ↦ Whole (Tree.expressionTokens es) →
      cs.length = es.length ∧ ∀ c ∈ cs, c.Valued (.source F)
  | [] => .pure fun _ ↦ ⟨rfl, nofun⟩
  | e :: rest =>
    .bind (resolves_expression hF e) fun _ ↦ .bind (honest_needValue hF _ _) fun _ ↦
      .bind (resolves_expressions hF rest) fun _ ↦ .pure fun hrest hv he hw ↦ by
        simp only [Tree.expressionTokens, Whole.append_iff] at hw
        obtain ⟨hlen, hall⟩ := hrest hw.2
        exact ⟨congrArg (· + 1) hlen, List.forall_mem_cons.mpr ⟨hv (he hw.1), hall⟩⟩

end

end Expression

section Statement

variable {F : Function → Prop}

theorem resolves_value (hF : (Rules.source F).Proper) (e : Tree.Expression) :
    Resolves F (value e) fun c ↦ Whole e.tokens → c.Valued (.source F) :=
  .bind (resolves_expression hF e) fun _ ↦ (honest_needValue hF _ _).mono fun _ h he hw ↦ h (he hw)

theorem resolves_valueOf (hF : (Rules.source F).Proper) {target : Ty} (ht : target.IsValue) (e : Tree.Expression) :
    Resolves F (valueOf target e) fun c ↦
      Whole e.tokens → c.WellTyped (.source F) ∧ c.ty = target :=
  .bind (resolves_value hF e) fun _ ↦ (honest_convert _ _ target false).mono fun _ h he hw ↦ h (he hw) ht

theorem resolves_declared (owner : Option Function) (identifier : Token) (readOnly : Bool) {ty : Ty}
    (ht : ty.IsValue) :
    Resolves F (declared owner identifier readOnly ty) fun v ↦ v.ty = ty := by
  refine .bind resolves_freshSymbol fun n ↦ .ite (fun _ ↦ ?_) fun _ ↦ .pure fun _ ↦ rfl
  refine .bind (resolves_declareVariable ht) fun b ↦ .ite (fun _ ↦ ?_) fun _ ↦ .pure fun _ _ ↦ rfl
  exact .bind (honest_report _ _) fun _ ↦ .pure fun h ↦ h.elim

theorem grows_declared (owner : Option Function) (identifier : Token) (readOnly : Bool) (ty : Ty) :
    Grows Resolution.reports (declared owner identifier readOnly ty) := by
  refine .bind (.of_log_eq fun _ ↦ rfl) fun n ↦ .ite (.bind (.of_log_eq fun r ↦ ?_) fun b ↦ ?_) (.pure _)
  · rw [declareVariable_snd]
  · exact .ite (.bind (fun _ ↦ List.suffix_cons ..) fun _ ↦ .pure _) (.pure _)

theorem grows_declare (owner : Option Function) (keyword identifier : Token)
    (initializer : Tree.Expression) (ty : Ty) (e : Expression) :
    Grows Resolution.reports (do
      let v ← declared owner identifier (keyword.kind == .word .letName) ty
      return Statement.declare v (← convert initializer.span e ty false)) :=
  .bind (grows_declared _ _ _ _) fun _ ↦
    .bind (honest_convert (I := fun _ ↦ True) (F := fun _ ↦ True) _ _ _ _).grows fun _ ↦ .pure _

theorem resolves_declaration (hF : (Rules.source F).Proper) (owner : Option Function) (keyword identifier : Token)
    {clause : Option Tree.TypeClause} {initializer : Tree.Expression}
    (hw : Whole (Tree.clauseTokens clause)) (hw' : Whole initializer.tokens) :
    Resolves F (declaration owner keyword identifier clause initializer) fun s ↦
      s.WellTyped (.source F) owner := by
  refine .bind_of (honest_clauseType? clause)
    (fun t ↦ .bind (resolves_value hF initializer).grows fun e ↦ grows_declare _ _ _ _ _ e) fun t ht ↦ ?_
  refine .bind_of (resolves_value hF initializer) (fun e ↦ grows_declare _ _ _ _ _ e) ?_
  intro e he
  have he := he hw'
  have hty : (t.getD e.ty).IsValue := by
    cases t with
    | none => exact he.2
    | some t => exact (ht hw).2 t rfl
  refine .bind (resolves_declared owner identifier _ hty) fun v ↦
    .bind (honest_convert (F := F) initializer.span e _ false) fun c ↦ .pure fun hc hv ↦ ?_
  obtain ⟨hc, hcty⟩ := hc he hty
  exact ⟨hv ▸ hty, hc, hcty.trans hv.symm⟩

theorem resolves_jump (owner : Option Function) (keyword : Token) (target : Exits → Label) :
    Resolves F (jump keyword target) fun s ↦ s.WellTyped (.source F) owner := by
  refine .bind .get ?_
  intro r
  split
  · exact .pure fun _ ↦ trivial
  · exact .bind (honest_report _ _) fun _ ↦ .pure fun h ↦ h.elim

theorem resolves_leaving (hF : (Rules.source F).Proper) {owner : Option Function}
    (howner : ∀ f, owner = some f → f.returns ≠ .unknown) (keyword : Token)
    (e : Option Tree.Expression) :
    Resolves F (leaving owner keyword e) fun s ↦
      (∀ e', e = some e' → Whole e'.tokens) → s.WellTyped (.source F) owner := by
  have hmap : Resolves F (e.mapM value) fun o ↦
      ∀ e', e = some e' → Whole e'.tokens → ∃ c, o = some c ∧ c.Valued (.source F) := by
    cases e with
    | none => exact .pure nofun
    | some e =>
      refine .bind (resolves_value hF e) fun c ↦ .pure fun hc e' he hw ↦ ?_
      obtain rfl := Option.some.inj he
      exact ⟨c, rfl, hc hw⟩
  refine .bind hmap ?_
  intro o
  cases owner with
  | none => exact .bind (honest_report _ _) fun _ ↦ .pure fun h ↦ h.elim
  | some f =>
    dsimp only
    split
    · next e c =>
      refine .ite (fun _ ↦ .bind (honest_report _ _) fun _ ↦ .pure fun h ↦ h.elim) fun hv ↦ ?_
      refine .bind (honest_convert (F := F) e.span c f.returns false) fun c' ↦ .pure fun hc' hc hw ↦ ?_
      obtain ⟨_, hc₁, hc⟩ := hc e rfl (hw e rfl)
      obtain rfl := Option.some.inj hc₁
      have hf : f.returns.IsValue := ⟨howner f rfl, hv⟩
      exact ⟨hf, hc' hc hf⟩
    · next hne =>
      refine .ite (fun _ ↦ .bind (honest_report _ _) fun _ ↦ .pure fun h ↦ h.elim) fun hv ↦ ?_
      have hvoid : f.returns = .void := Decidable.not_not.mp hv
      exact .pure fun _ _ ↦ hvoid

mutual

theorem resolves_statement (hF : (Rules.source F).Proper) {owner : Option Function}
    (howner : ∀ f, owner = some f → f.returns ≠ .unknown) : (s : Tree.Statement) →
    Whole s.tokens → Resolves F (statement owner s) fun c ↦ c.WellTyped (.source F) owner
  | .block _ inner _, hw => by
    simp only [Tree.Statement.tokens, Whole.append_iff, Whole.cons_iff, List.cons_append] at hw
    exact .bind (resolves_inside (resolves_statements hF howner inner hw.2.1)) fun _ ↦ .pure fun h ↦ h
  | .declare keyword identifier clause _ initializer, hw => by
    simp only [Tree.Statement.tokens, Whole.append_iff, Whole.cons_iff, List.cons_append] at hw
    exact resolves_declaration hF owner keyword identifier hw.2.2.1 hw.2.2.2.2
  | .ifThen _ condition branch, hw => by
    simp only [Tree.Statement.tokens, Whole.append_iff, Whole.cons_iff, List.cons_append] at hw
    exact .bind (resolves_valueOf hF Ty.isValue_bool condition) fun _ ↦
      .bind (resolves_statement hF howner branch hw.2.2) fun _ ↦ .pure fun hb hc ↦ ⟨hc hw.2.1, hb⟩
  | .ifElse _ condition branch _ otherwise, hw => by
    simp only [Tree.Statement.tokens, Whole.append_iff, Whole.cons_iff, List.cons_append] at hw
    obtain ⟨-, ⟨hc, hb⟩, -, ho⟩ := hw
    exact .bind (resolves_valueOf hF Ty.isValue_bool condition) fun _ ↦
      .bind (resolves_statement hF howner branch hb) fun _ ↦
        .bind (resolves_statement hF howner otherwise ho) fun _ ↦ .pure fun h' h hcond ↦ ⟨hcond hc, h, h'⟩
  | .whileLoop _ condition body, hw => by
    simp only [Tree.Statement.tokens, Whole.append_iff, Whole.cons_iff, List.cons_append] at hw
    exact .bind (resolves_valueOf hF Ty.isValue_bool condition) fun _ ↦
      .bind (resolves_insideLoop (resolves_statement hF howner body hw.2.2)) fun _ ↦
        .pure fun hb hc ↦ ⟨hc hw.2.1, hb⟩
  | .doLoop _ body _ condition, hw => by
    simp only [Tree.Statement.tokens, Whole.append_iff, Whole.cons_iff, List.cons_append] at hw
    exact .bind (resolves_insideLoop (resolves_statement hF howner body hw.2.1)) fun _ ↦
      .bind (resolves_valueOf hF Ty.isValue_bool condition) fun _ ↦
        .pure fun hc hb ↦ ⟨hc hw.2.2.2, hb⟩
  | .forLoop _ identifier _ lower _ upper body, hw => by
    simp only [Tree.Statement.tokens, Whole.append_iff, Whole.cons_iff, List.cons_append] at hw
    obtain ⟨-, -, -, ⟨hl, -, hu⟩, hb⟩ := hw
    exact .bind (resolves_valueOf hF Ty.isValue_int lower) fun _ ↦
      .bind (resolves_valueOf hF Ty.isValue_int upper) fun _ ↦
        resolves_inside (.bind (resolves_declared owner identifier true Ty.isValue_int) fun _ ↦
          .bind (resolves_insideLoop (resolves_statement hF howner body hb)) fun _ ↦
            .pure fun h hv hlast hfirst ↦ ⟨hv, hfirst hl, hlast hu, h⟩)
  | .breakLoop keyword, _ => resolves_jump owner keyword _
  | .continueLoop keyword, _ => resolves_jump owner keyword _
  | .leave keyword e, hw => by
    apply (resolves_leaving hF howner keyword e).mono
    intro s h
    apply h
    intro e' he
    subst he
    exact (Whole.cons_iff.mp hw).2
  | .expression e, hw => .bind (resolves_expression hF e) fun _ ↦ .pure fun h ↦ h hw

theorem resolves_statements (hF : (Rules.source F).Proper) {owner : Option Function}
    (howner : ∀ f, owner = some f → f.returns ≠ .unknown) : (l : List Tree.Statement) →
    Whole (Tree.statementTokens l) →
      Resolves F (statements owner l) fun cs ↦ AllTyped (.source F) owner cs
  | [], _ => .pure trivial
  | s :: rest, hw => by
    obtain ⟨hs, hrest⟩ := Whole.append_iff.mp hw
    exact .bind (resolves_statement hF howner s hs) fun _ ↦
      .bind (resolves_statements hF howner rest hrest) fun _ ↦ .pure fun h' h ↦ ⟨h, h'⟩

end

end Statement

end Resolver

end SmallScript
