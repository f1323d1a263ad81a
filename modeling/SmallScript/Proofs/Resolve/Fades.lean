import SmallScript.Proofs.Resolve.FadesExpression

namespace SmallScript

open Code (Expression Statement)
open SmallScript.Tree (Whole)

namespace Resolver

variable {K : Losses} {t t' : Token} {e e' : Expression} (span span' : Span)

section Value

variable {x x' : Tree.Expression} (h : x.Alike x') (hw : Whole x.tokens) (hcalls : ∀ f ∈ x'.calls, K.called f)
include h hw hcalls

theorem fades_value : Fades K Expression.FadesTo [] (value x) (value x') :=
  (fades_expression x x' h hw hcalls).bind_plain (fun _ ↦ (reporting_needValue _ _).grows)
    fun _ _ ↦ fades_needValue _ _

theorem fades_valueOf {target : Ty} (htarget : target ≠ .unknown) :
    Fades K Expression.FadesTo [] (valueOf target x) (valueOf target x') :=
  (fades_value h hw hcalls).bind_plain (fun _ ↦ (reporting_convert _ _ _ _).grows) fun _ _ he ↦
    (fades_convert _ _ he (.refl htarget) false).mono fun _ _ hc ↦ ⟨hc.1, hc.2 rfl⟩

end Value

section Clause

/-- The types that a clause names in two runs, in the second of which it may name none. -/
inductive ClauseFades : Option Tree.TypeClause → Option Ty → Option Ty → Prop
  | none : ClauseFades none none none
  | kept (c : Tree.TypeClause) {t : Ty} (ht : t.IsValue) : ClauseFades (some c) (some t) (some t)
  | lost {c : Tree.TypeClause} {t : Ty} (ht : t.IsValue) (hc : Tree.unknownOf (some c) ≠ []) :
    ClauseFades (some c) (some t) none

theorem written?_of_unknown? {c : Tree.TypeClause} (h : c.unknown?.isSome) :
    c.identifier.isMissing = false ∧ Ty.written? c.identifier.text = none := by
  unfold Tree.TypeClause.unknown? at h
  split at h
  · nomatch h
  · next hc =>
    rw [not_or] at hc
    exact ⟨eq_false_of_ne_true hc.1, by simpa using hc.2⟩

theorem fades_clauseType? {ρ : Tree.TypeClause → Tree.TypeClause} (hρ : ∀ c, ρ c = c ∨ (ρ c).unknown?.isSome)
    {c c' : Option Tree.TypeClause} (h : Tree.ClauseAlike (c.map ρ) c') (hw : Whole (Tree.clauseTokens c)) :
    Fades K (ClauseFades c') (Tree.unknownOf c') (clauseType? c) (clauseType? c') := by
  cases c with
  | none =>
    cases h
    exact .pure .none
  | some d =>
    obtain ⟨d', rfl, hd⟩ : ∃ d', c' = some d' ∧ (ρ d).Alike d' := by
      cases h with
      | some hd => exact ⟨_, rfl, hd⟩
    have hthere : d.identifier.isMissing = false := hw _ (by simp [Tree.clauseTokens, Tree.TypeClause.tokens])
    unfold clauseType?
    simp only [hthere, Bool.false_eq_true, if_false]
    rcases hρ d with hsame | hunknown
    · rw [hsame] at hd
      simp only [hd.isMissing, hthere, hd.text, Bool.false_eq_true, if_false]
      cases hwritten : Ty.written? d.identifier.text with
      | none => exact .report fun _ ↦ .pure _
      | some t =>
        have hknown : Tree.unknownOf (some d') = [] := by
          simp [Tree.unknownOf, Tree.TypeClause.unknown?, hd.text, hwritten]
        rw [hknown]
        exact .pure (.kept d' (Ty.isValue_of_written? hwritten))
    · obtain ⟨hthere', hwritten'⟩ := written?_of_unknown? hunknown
      have hlost : Tree.unknownOf (some d') = [d'.identifier] := by
        simp [Tree.unknownOf, Tree.TypeClause.unknown?, hd.isMissing, hd.text, hthere', hwritten']
      simp only [hd.isMissing, hthere', hd.text, hwritten', Bool.false_eq_true, if_false]
      rw [hlost, ← hd.text]
      refine .missing d'.identifier ?_
      cases hwritten : Ty.written? d.identifier.text with
      | none => exact .report fun _ ↦ .pure _
      | some t => exact .pure (.lost (Ty.isValue_of_written? hwritten) (hlost ▸ List.cons_ne_nil _ _))

theorem fades_declared {owner owner' : Option Function} (h : t.Alike t') (readOnly : Bool) {ty ty' : Ty}
    (hty : ty.FadesTo ty') :
    Fades K Variable.FadesTo [] (declared owner t readOnly ty) (declared owner' t' readOnly ty') := by
  have hreported (v : Variable) (b : Bool) : Grows Resolution.reports (do
      if !b then report t.span (.variableRedeclared (if t.isMissing then "?" else t.text))
      return v) :=
    .ite ((Reporting.report _ _).grows.bind fun _ ↦ .pure _) (.pure _)
  have hname : (if t'.isMissing then "?" else t'.text) = if t.isMissing then "?" else t.text := by
    rw [h.isMissing, h.text]
  unfold declared
  rw [hname, h.isMissing]
  refine fades_freshSymbol.bind (fun n ↦ .ite ((grows_declareVariable _).bind fun b ↦ hreported _ b) (.pure _))
    fun n n' _ ↦ ?_
  let v (owner : Option Function) (n : Nat) (ty : Ty) : Variable :=
    ⟨n, if t.isMissing then "?" else t.text, if owner.isSome then .local else .global, ty, readOnly⟩
  have hv : (v owner n ty).FadesTo (v owner' n' ty') := ⟨rfl, rfl, hty⟩
  refine .ite Iff.rfl (fun _ ↦ ?_) fun _ ↦ .pure hv
  refine (fades_declareVariable hv).bind_plain (fun b ↦ hreported _ b) ?_
  rintro b b' rfl
  exact .ite Iff.rfl (fun _ ↦ .report fun _ ↦ .pure _) fun _ ↦ .pure hv

theorem convert_of_ne {target : Ty} (he : e.ty ≠ .unknown) (ht : target ≠ .unknown) (hne : e.ty ≠ target) :
    ∃ c, convert span e target false = report span (.cannotConvert e.ty target) >>= fun _ ↦ pure c := by
  unfold convert
  split
  · exact ⟨_, if_pos ⟨he, ht⟩⟩
  · next h => exact absurd (Conversion.classify_eq_identity_iff.mp h) hne
  · next h => exact absurd h (Conversion.classify_ne_silent _ _)
  · exact ⟨_, rfl⟩

theorem declaration_never (owner : Option Function) (k t : Token) (x : Tree.Expression) {target : Ty}
    (he : e.ty ≠ .unknown) (ht : target ≠ .unknown) (hne : e.ty ≠ target) (r : Resolution) :
    ((do
      let v ← declared owner t (k.kind == .word .letName) target
      return Statement.declare v (← convert x.span e target false) : Resolver Statement) r).2.reports ≠
      r.reports := by
  intro hq
  obtain ⟨c, hconvert⟩ := convert_of_ne x.span he ht hne
  have hquiet := (grows_declared owner t (k.kind == .word .letName) target).eq_of_bind
    (fun v ↦ (reporting_convert _ _ _ _).grows.bind fun _ ↦ .pure _) hq
  rw [hconvert] at hq
  exact absurd (hq.trans hquiet.symm) (List.cons_ne_self _ _)

theorem fades_declaration {ρ : Tree.TypeClause → Tree.TypeClause} (hρ : ∀ c, ρ c = c ∨ (ρ c).unknown?.isSome)
    {owner owner' : Option Function} {k k' : Token} (hk : k.Alike k') (h : t.Alike t')
    {c c' : Option Tree.TypeClause} (hc : Tree.ClauseAlike (c.map ρ) c') (hwc : Whole (Tree.clauseTokens c))
    {x x' : Tree.Expression} (hx : x.Alike x') (hwx : Whole x.tokens) (hcalls : ∀ f ∈ x'.calls, K.called f) :
    Fades K Statement.SameFlow (Tree.unknownOf c') (declaration owner k t c x)
      (declaration owner' k' t' c' x') := by
  have hgrows (o : Option Ty) : Grows Resolution.reports _ :=
    (reporting_value x).grows.bind fun e ↦ grows_declare owner k t x (o.getD e.ty) e
  have hdeclare {e e' : Expression} (he : e.FadesTo e') {ty ty' : Ty} (hty : ty.FadesTo ty') :
      Fades K Statement.SameFlow [] (do
        let v ← declared owner t (k.kind == .word .letName) ty
        return Statement.declare v (← convert x.span e ty false)) (do
        let v ← declared owner' t' (k'.kind == .word .letName) ty'
        return Statement.declare v (← convert x'.span e' ty' false)) := by
    rw [hk.kind]
    refine (fades_declared h _ hty).bind_plain
      (fun v ↦ (reporting_convert _ _ _ _).grows.bind fun _ ↦ .pure _) fun v v' _ ↦ ?_
    exact (fades_convert _ _ he hty false).map fun _ _ _ ↦ .declare ..
  refine (fades_clauseType? hρ hc hwc).bind_plain hgrows fun o o' ho ↦ ?_
  refine (fades_value hx hwx hcalls).bind_plain (fun e ↦ grows_declare _ _ _ _ _ _) fun e e' he ↦ ?_
  cases ho with
  | none => exact hdeclare he he.ty
  | kept _ ht => exact hdeclare he (.refl ht.1)
  | @lost c t ht _ =>
    by_cases hsame : e.ty = t
    · exact hdeclare he (hsame ▸ he.ty)
    · exact .of_never (grows_declare _ _ _ _ _ _) (declaration_never _ _ _ _ he.ty.known ht.1 hsame)

end Clause

section Statement

theorem fades_jump (k k' : Token) (target : Exits → Label) :
    Fades K Statement.SameFlow [] (jump k target) (jump k' target) := by
  refine .bind_unchanged (Q := fun r r' ↦ r'.loops = r.loops) (reporting_jump k target).grows (fun _ ↦ rfl)
    (fun _ ↦ rfl) (fun _ _ hr ↦ hr.loops) fun r r' hloops ↦ ?_
  rw [hloops]
  cases r.loops with
  | nil => exact .report fun _ ↦ .pure _
  | cons exits _ => exact .pure (.goto _)

variable {owner owner' : Option Function} (howner : Option.Rel (Function.FadesTo K) owner owner')
include howner

theorem fades_leaving (k k' : Token) :
    Fades K Statement.SameFlow [] (leaving owner k none) (leaving owner' k' none) := by
  cases howner with
  | none => exact .of_never (reporting_leaving _ _ _).grows (leaving_never k none)
  | @some f f' hf =>
    rw [leaving_nothing, leaving_nothing]
    by_cases hvoid : f.returns = .void
    · have hvoid' : f'.returns = .void := hf.returns.elim (·.trans hvoid) (·.1)
      rw [if_neg (not_not.mpr hvoid), if_neg (not_not.mpr hvoid')]
      exact .pure (.leave _ _)
    · rw [if_pos hvoid]
      exact .report fun _ ↦ .pure _

theorem fades_leavingWith (hvalued : ∀ f ∈ owner', K.valued f.name) (k k' : Token) {x x' : Tree.Expression}
    (h : x.Alike x') (hw : Whole x.tokens) (hcalls : ∀ f ∈ x'.calls, K.called f) :
    Fades K Statement.SameFlow [] (leaving owner k (some x)) (leaving owner' k' (some x')) := by
  cases howner with
  | none => exact .of_never (reporting_leaving _ _ _).grows (leaving_never k (some x))
  | @some f f' hf =>
    rw [leaving_value, leaving_value]
    refine (fades_value h hw hcalls).bind_plain (fun e ↦ ?_) fun e e' he ↦ ?_
    · exact .ite ((Reporting.report _ _).grows.bind fun _ ↦ .pure _)
        ((reporting_convert _ _ _ _).grows.bind fun _ ↦ .pure _)
    by_cases hvoid : f.returns = .void
    · rw [if_pos hvoid]
      exact .report fun _ ↦ .pure _
    rw [if_neg hvoid]
    rcases hf.returns with hsame | ⟨hvoid', hlost⟩
    · rw [hsame, if_neg hvoid]
      exact (fades_convert _ _ he (.refl hf.known) false).map fun _ _ _ ↦ .leave _ _
    · rw [if_pos hvoid']
      have hcause : K.Entails (.voidReturnsValue f'.name) := .returned (hf.name ▸ hlost) (hvalued f' rfl)
      exact .entailed hcause (.map_pure (reporting_convert _ _ _ _) fun _ ↦ .leave _ _)

omit howner

theorem fades_range (owner owner' : Option Function) (h : t.Alike t') {ts : List Token}
    {m m' : Resolver (Statement × Exits)}
    (hm : Fades K (fun p p' ↦ p.1.SameFlow p'.1 ∧ p'.2 = p.2) ts m m') (first first' last last' : Expression) :
    Fades K Statement.SameFlow ts (inside do
      let v ← declared owner t true .int
      let (turn, exits) ← m
      return Statement.forLoop v first last turn exits) (inside do
      let v ← declared owner' t' true .int
      let (turn, exits) ← m'
      return Statement.forLoop v first' last' turn exits) := by
  refine fades_inside (.bind (fades_declared h true (.refl Ty.isValue_int.1))
    (fun _ ↦ hm.grows.bind fun _ ↦ .pure _) ?_)
  intro v v' _
  refine hm.map ?_
  rintro ⟨_, _⟩ ⟨_, x⟩ ⟨hs, rfl⟩
  exact .forLoop v v' first first' last last' x hs

variable {ρ : Tree.TypeClause → Tree.TypeClause}

mutual

theorem fades_statement (hρ : ∀ c, ρ c = c ∨ (ρ c).unknown?.isSome)
    (howner : Option.Rel (Function.FadesTo K) owner owner') : (s s' : Tree.Statement) → (s.retype ρ).Alike s' →
    Whole s.tokens → (∀ f ∈ s'.calls, K.called f) → (∀ f ∈ owner', s'.ReturnsValue → K.valued f.name) →
    Fades K Statement.SameFlow s'.unknownTypes (statement owner s) (statement owner' s')
  | .block _ ss _, _, .block _ _ _ _ h, hw, hcalls, hvalued => by
    simp only [Tree.Statement.tokens, Whole.append_iff, Whole.cons_iff, List.cons_append] at hw
    exact (fades_inside (fades_statements hρ howner ss _ h hw.2.1 hcalls hvalued)).map fun _ _ ↦ .block
  | .declare _ _ _ _ _, _, .declare _ _ hk h hc he, hw, hcalls, _ => by
    simp only [Tree.Statement.tokens, Whole.append_iff, Whole.cons_iff, List.cons_append] at hw
    exact fades_declaration hρ hk h hc hw.2.2.1 he hw.2.2.2.2 hcalls
  | .ifThen _ _ branch, _, .ifThen _ _ he hs, hw, hcalls, hvalued => by
    simp only [Tree.Statement.tokens, Whole.append_iff, Whole.cons_iff, List.cons_append] at hw
    obtain ⟨hcalls, hcalls'⟩ := List.forall_mem_append.mp hcalls
    have hbranch := fades_statement hρ howner branch _ hs hw.2.2 hcalls' hvalued
    refine (fades_valueOf he hw.2.1 hcalls Ty.isValue_bool.1).bind (fun _ ↦ hbranch.grows.bind fun _ ↦ .pure _) ?_
    exact fun _ _ hc ↦ hbranch.map fun _ _ ↦ .ifThen hc.constant
  | .ifElse _ _ branch _ otherwise, _, .ifElse _ _ _ _ he hs ht, hw, hcalls, hvalued => by
    simp only [Tree.Statement.tokens, Whole.append_iff, Whole.cons_iff, List.cons_append] at hw
    obtain ⟨-, ⟨hwc, hwb⟩, -, hwo⟩ := hw
    obtain ⟨hcalls, hcalls'⟩ := List.forall_mem_append.mp hcalls
    obtain ⟨hcalls', hcalls''⟩ := List.forall_mem_append.mp hcalls'
    have hbranch := fades_statement hρ howner branch _ hs hwb hcalls' fun f hf h ↦ hvalued f hf (.inl h)
    have hotherwise := fades_statement hρ howner otherwise _ ht hwo hcalls'' fun f hf h ↦ hvalued f hf (.inr h)
    refine (fades_valueOf he hwc hcalls Ty.isValue_bool.1).bind (fun _ ↦ hbranch.grows.bind fun _ ↦
      hotherwise.grows.bind fun _ ↦ .pure _) fun _ _ hc ↦ ?_
    refine hbranch.bind (fun _ ↦ hotherwise.grows.bind fun _ ↦ .pure _) fun _ _ hb ↦ ?_
    exact hotherwise.map fun _ _ ↦ .ifElse hc.constant hb
  | .whileLoop _ _ body, _, .whileLoop _ _ he hs, hw, hcalls, hvalued => by
    simp only [Tree.Statement.tokens, Whole.append_iff, Whole.cons_iff, List.cons_append] at hw
    obtain ⟨hcalls, hcalls'⟩ := List.forall_mem_append.mp hcalls
    have hbody := fades_insideLoop (fades_statement hρ howner body _ hs hw.2.2 hcalls' hvalued)
    refine (fades_valueOf he hw.2.1 hcalls Ty.isValue_bool.1).bind (fun _ ↦ hbody.grows.bind fun _ ↦ .pure _) ?_
    intro _ _ hc
    refine hbody.map ?_
    rintro ⟨_, _⟩ ⟨_, x⟩ ⟨hb, rfl⟩
    exact .whileLoop x hc.constant hb
  | .doLoop _ body _ _, _, .doLoop _ _ _ _ hs he, hw, hcalls, hvalued => by
    simp only [Tree.Statement.tokens, Whole.append_iff, Whole.cons_iff, List.cons_append] at hw
    obtain ⟨hcalls, hcalls'⟩ := List.forall_mem_append.mp hcalls
    have hbody := fades_insideLoop (fades_statement hρ howner body _ hs hw.2.1 hcalls' hvalued)
    have hcondition := fades_valueOf he hw.2.2.2 hcalls Ty.isValue_bool.1
    refine hbody.bind_plain (fun _ ↦ hcondition.grows.bind fun _ ↦ .pure _) ?_
    rintro ⟨_, _⟩ ⟨_, x⟩ ⟨hb, rfl⟩
    exact hcondition.map fun _ _ hc ↦ .doLoop x hb hc.constant
  | .forLoop _ _ _ _ _ _ body, _, .forLoop _ _ _ _ _ _ h hl hu hs, hw, hcalls, hvalued => by
    simp only [Tree.Statement.tokens, Whole.append_iff, Whole.cons_iff, List.cons_append] at hw
    obtain ⟨-, -, -, ⟨hwl, -, hwu⟩, hwb⟩ := hw
    obtain ⟨hcalls, hcalls'⟩ := List.forall_mem_append.mp hcalls
    obtain ⟨hcalls', hcalls''⟩ := List.forall_mem_append.mp hcalls'
    have hbody := fades_insideLoop (fades_statement hρ howner body _ hs hwb hcalls'' hvalued)
    have hrange (first first' last last' : Expression) := fades_range owner owner' h hbody first first' last
      last'
    have hupper := fades_valueOf hu hwu hcalls' Ty.isValue_int.1
    refine (fades_valueOf hl hwl hcalls Ty.isValue_int.1).bind (fun e ↦ hupper.grows.bind fun e' ↦ ?_) fun _ _ _ ↦ ?_
    · exact (hrange e e e' e').grows
    · exact hupper.bind (fun e ↦ (hrange _ e e e).grows) fun _ _ _ ↦ hrange _ _ _ _
  | .breakLoop k, _, .breakLoop _ _, _, _, _ | .continueLoop k, _, .continueLoop _ _, _, _, _ => fades_jump k _ _
  | .leave k _, _, .leave _ _, _, _, _ => fades_leaving howner k _
  | .leave k _, _, .leaveWith _ _ he, hw, hcalls, hvalued =>
    fades_leavingWith howner (fun f hf ↦ hvalued f hf trivial) k _ he (Whole.cons_iff.mp hw).2 hcalls
  | .expression e, _, .expression he, hw, hcalls, _ =>
    (fades_expression e _ he hw hcalls).map fun _ _ _ ↦ .expression ..

theorem fades_statements (hρ : ∀ c, ρ c = c ∨ (ρ c).unknown?.isSome)
    (howner : Option.Rel (Function.FadesTo K) owner owner') : (ss ss' : List Tree.Statement) →
    List.Forall₂ Tree.Statement.Alike (Tree.retypeAll ρ ss) ss' → Whole (Tree.statementTokens ss) →
    (∀ f ∈ Tree.callsOfAll ss', K.called f) → (∀ f ∈ owner', Tree.ReturnsValueAny ss' → K.valued f.name) →
    Fades K (List.Forall₂ Statement.SameFlow) (Tree.unknownTypesAll ss') (statements owner ss)
      (statements owner' ss')
  | [], _, .nil, _, _, _ => .pure .nil
  | s :: rest, _, .cons hs hrest, hw, hcalls, hvalued => by
    obtain ⟨hw, hw'⟩ := Whole.append_iff.mp hw
    obtain ⟨hcalls, hcalls'⟩ := List.forall_mem_append.mp hcalls
    have hmore := fades_statements hρ howner rest _ hrest hw' hcalls' fun f hf h ↦ hvalued f hf (.inr h)
    have hfirst := fades_statement hρ howner s _ hs hw hcalls fun f hf h ↦ hvalued f hf (.inl h)
    exact hfirst.bind (fun _ ↦ hmore.grows.bind fun _ ↦ .pure _) fun _ _ hc ↦ hmore.map fun _ _ hcs ↦ .cons hc hcs

end

end Statement

end Resolver

end SmallScript
