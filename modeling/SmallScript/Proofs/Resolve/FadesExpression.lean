import SmallScript.Proofs.Flow.Same
import SmallScript.Proofs.Resolve.Alike
import SmallScript.Proofs.Resolve.Fading

namespace SmallScript

open Code (Expression Statement)
open SmallScript.Tree (Whole)

theorem Conversion.classify_of_unknown {s t : Ty} (h : s = .unknown ∨ t = .unknown) (hne : s ≠ t) :
    classify s t = .none := by
  rcases h with rfl | rfl
  · cases t <;> first | rfl | exact absurd rfl hne
  · cases s <;> first | rfl | exact absurd rfl hne

namespace Code.Expression

structure FadesTo (e e' : Expression) : Prop where
  ty : e.ty.FadesTo e'.ty
  constant : e'.constant? = e.constant?

/-- An expression that may be a call, and what is left of it. It may have lost its value. -/
structure WanesTo (K : Losses) (e e' : Expression) : Prop where
  known : e.ty ≠ .unknown
  ty : e'.ty = e.ty ∨ e'.ty = .unknown ∨ e'.ty = .void ∧ K.Entails .valueMissing
  constant : e'.constant? = e.constant?

variable {K : Losses} {e e' : Expression}

theorem FadesTo.wanesTo (h : e.FadesTo e') : e.WanesTo K e' :=
  ⟨h.ty.known, h.ty.eq_or_unknown.imp_right .inl, h.constant⟩

theorem constant?_eq_none_of_ty (h : e.ty ≠ .bool) : e.constant? = none := by
  unfold constant?
  split
  · exact absurd rfl h
  · rfl

end Code.Expression

namespace Resolver

variable {K : Losses} {t t' : Token} {e e' : Expression} (span span' : Span)

theorem convert_of_unknown {target : Ty} (h : e.ty = .unknown ∨ target = .unknown) (isWritten : Bool) :
    convert span e target isWritten = pure (if e.ty = target then e else .error) := by
  unfold convert
  by_cases heq : e.ty = target
  · rw [if_pos heq, Conversion.classify_eq_identity_iff.mpr heq]
  · rw [if_neg heq, Conversion.classify_of_unknown h heq]
    exact if_neg fun hknown ↦ h.elim hknown.1 hknown.2

theorem fades_needValue (he : e.WanesTo K e') :
    Fades K Expression.FadesTo [] (needValue span e) (needValue span' e') := by
  unfold needValue
  by_cases hvoid : e.ty = .void
  · rw [if_pos hvoid]
    exact .report fun _ ↦ .pure _
  · rw [if_neg hvoid]
    rcases he.ty with hty | hty | ⟨hty, hvalue⟩
    · rw [if_neg (hty ▸ hvoid)]
      exact .pure ⟨⟨he.known, .inl hty⟩, he.constant⟩
    · rw [if_neg (hty ▸ nofun)]
      exact .pure ⟨⟨he.known, .inr hty⟩, he.constant⟩
    · rw [if_pos hty]
      have hconstant : e'.constant? = none := Expression.constant?_eq_none_of_ty (hty ▸ nofun)
      exact .entailed hvalue (.pure ⟨⟨he.known, .inr rfl⟩, hconstant.symm.trans he.constant⟩)

theorem fades_convert (he : e.FadesTo e') {target target' : Ty} (ht : target.FadesTo target') (isWritten : Bool) :
    Fades K (fun c c' ↦ c.ty.FadesTo c'.ty ∧ (target' = target → c'.constant? = c.constant?)) []
      (convert span e target isWritten) (convert span' e' target' isWritten) := by
  by_cases hlost : e'.ty = .unknown ∨ target' = .unknown
  · have hty : (if e'.ty = target' then e' else .error).ty = .unknown := by
      split
      · next heq => exact hlost.elim id heq.trans
      · rfl
    have hconstant (heq : target' = target) :
        (if e'.ty = target' then e' else .error).constant? = none ∧ e.constant? = none := by
      have hunknown : e'.ty = .unknown := hlost.resolve_right (heq ▸ ht.known)
      have hnone : e'.constant? = none := Expression.constant?_eq_none_of_ty (hunknown ▸ nofun)
      refine ⟨?_, he.constant.symm.trans hnone⟩
      split
      · exact hnone
      · rfl
    rw [convert_of_unknown span' hlost]
    unfold convert
    split
    · rw [if_pos ⟨he.ty.known, ht.known⟩]
      exact .report fun _ ↦ .pure _
    · exact .pure ⟨⟨he.ty.known, .inr hty⟩, fun h ↦ (hconstant h).1.trans (hconstant h).2.symm⟩
    · exact .pure ⟨⟨ht.known, .inr hty⟩, fun h ↦ (hconstant h).1⟩
    · by_cases hwritten : isWritten
      · rw [hwritten]
        exact .pure ⟨⟨ht.known, .inr hty⟩, fun h ↦ (hconstant h).1⟩
      · rw [eq_false_of_ne_true hwritten]
        exact .report fun _ ↦ .pure _
  · have hty : e'.ty = e.ty := he.ty.eq_or_unknown.resolve_right fun h ↦ hlost (.inl h)
    have htarget : target' = target := ht.eq_or_unknown.resolve_right fun h ↦ hlost (.inr h)
    unfold convert
    rw [hty, htarget]
    split
    · rw [if_pos ⟨he.ty.known, ht.known⟩]
      exact .report fun _ ↦ .pure _
    · exact .pure ⟨he.ty, fun _ ↦ he.constant⟩
    · exact .pure ⟨.refl ht.known, fun _ ↦ rfl⟩
    · exact .ite Iff.rfl (fun _ ↦ .report fun _ ↦ .pure _) fun _ ↦ .pure ⟨.refl ht.known, fun _ ↦ rfl⟩

theorem fades_named (h : t.Alike t') (hthere : t.isMissing = false) :
    Fades K (Expression.WanesTo K) [] (named t) (named t') := by
  have hgrows : Grows Resolution.reports (named t) := (reporting_named t).grows
  unfold named at hgrows ⊢
  rw [h.isMissing, h.text, hthere, if_neg Bool.false_ne_true] at *
  refine .bind_unchanged hgrows (fun _ ↦ rfl) (fun _ ↦ rfl) (fun _ _ hr ↦ rel_lookupVariable hr t.text) ?_
  intro o o' ho
  cases ho with
  | none => exact .report fun _ ↦ .pure _
  | some hv => exact .pure ⟨hv.ty.known, hv.ty.eq_or_unknown.imp_right .inl, rfl⟩

theorem fades_assigned (h : t.Alike t') (equals equals' : Token) (he : e.FadesTo e') :
    Fades K (Expression.WanesTo K) [] (assigned t equals span e) (assigned t' equals' span' e') := by
  have hgrows : Grows Resolution.reports (assigned t equals span e) := (reporting_assigned _ _ _ _).grows
  unfold assigned at hgrows ⊢
  rw [h.text]
  refine .bind_unchanged hgrows (fun _ ↦ rfl) (fun _ ↦ rfl) (fun _ _ hr ↦ rel_lookupVariable hr t.text) ?_
  intro o o' ho
  cases ho with
  | none => exact .report fun _ ↦ .pure _
  | @some v v' hv =>
    have hconvert : Fades K _ [] (convert span e v.ty false) (convert span' e' v'.ty false) :=
      fades_convert span span' he hv.ty false
    refine .ite (by rw [hv.readOnly]) (fun _ ↦ .report fun _ ↦ ?_) fun _ ↦ ?_
    · exact (reporting_convert _ _ _ _).grows.bind fun _ ↦ .pure _
    · exact hconvert.map fun c c' hc ↦ ⟨hc.1.known, hc.1.eq_or_unknown.imp_right .inl, rfl⟩

theorem known_of_unary {k : Token.Kind} {s : Ty} {o : UnaryOperator} (h : UnaryOperator.find? k s = some o) :
    o.result ≠ .unknown :=
  (UnaryOperator.isValue_result (List.mem_of_find?_eq_some h)).1

theorem known_of_binary {k : Token.Kind} {s s' : Ty} {o : BinaryOperator}
    (h : BinaryOperator.find? k s s' = some o) : o.result ≠ .unknown :=
  (BinaryOperator.isValue_result (List.mem_of_find?_eq_some h)).1

theorem fades_unary (h : t.Alike t') (he : e.FadesTo e') :
    Fades K (Expression.WanesTo K) [] (unary t e) (unary t' e') := by
  unfold unary
  rw [if_neg he.ty.known, h.kind]
  rcases he.ty.eq_or_unknown with hty | hty
  · rw [hty, if_neg he.ty.known]
    split
    · next o ho => exact .pure ⟨known_of_unary ho, .inl rfl, rfl⟩
    · exact .report fun _ ↦ .pure _
  · rw [if_pos hty]
    split
    · next o ho => exact .pure ⟨known_of_unary ho, .inr (.inl rfl), rfl⟩
    · exact .report fun _ ↦ .pure _

theorem fades_binary {left left' right right' : Expression} (hl : left.FadesTo left') (h : t.Alike t')
    (hr : right.FadesTo right') :
    Fades K (Expression.WanesTo K) [] (binary left t right) (binary left' t' right') := by
  unfold binary
  rw [if_neg (not_or.mpr ⟨hl.ty.known, hr.ty.known⟩), h.kind]
  by_cases hlost : left'.ty = .unknown ∨ right'.ty = .unknown
  · rw [if_pos hlost]
    split
    · next o ho => exact .pure ⟨known_of_binary ho, .inr (.inl rfl), rfl⟩
    · exact .report fun _ ↦ .pure _
  · obtain ⟨hleft, hright⟩ := not_or.mp hlost
    rw [if_neg hlost, hl.ty.eq_or_unknown.resolve_right hleft, hr.ty.eq_or_unknown.resolve_right hright]
    split
    · next o ho => exact .pure ⟨known_of_binary ho, .inl rfl, rfl⟩
    · exact .report fun _ ↦ .pure _

theorem fades_matchArguments {name : String} (hcalled : K.called name) {vs vs' : List Variable}
    (hvs : List.Forall₂ (fun v v' : Variable ↦ v.FadesTo v' ∧ (v'.ty = v.ty ∨ K.parameter name v.name)) vs vs')
    {es es' : List Expression} (hes : List.Forall₂ Expression.FadesTo es es') {spans spans' : List Span}
    (h : spans'.length = spans.length) :
    Fades K (fun b _ ↦ b = true) [] (matchArguments name vs es spans) (matchArguments name vs' es' spans') := by
  induction hvs generalizing es es' spans spans' with
  | nil => exact .pure rfl
  | @cons v v' vs vs' hv _ ih =>
    cases hes with
    | nil => exact .pure rfl
    | @cons e e' es es' he hes =>
      cases spans with
      | nil =>
        obtain rfl := List.length_eq_zero_iff.mp h
        exact .pure rfl
      | cons span spans =>
        obtain ⟨span', spans', rfl⟩ := List.exists_cons_of_length_eq_add_one h
        have hrest := ih hes (Nat.succ.inj h)
        simp only [matchArguments]
        by_cases hty : e.ty = v.ty
        · rw [if_pos hty]
          by_cases hty' : e'.ty = v'.ty
          · rw [if_pos hty']
            exact hrest
          · rw [if_neg hty']
            by_cases hlost : e'.ty = .unknown
            · rw [if_neg (not_not.mpr hlost)]
              exact hrest.map_right fun _ _ hb ↦ hb
            · have hsame := he.ty.eq_or_unknown.resolve_right hlost
              have hne : v'.ty ≠ v.ty := fun heq ↦ hty' ((hsame.trans hty).trans heq.symm)
              have hentails : K.Entails (.argumentType name v'.name v'.ty e'.ty) := by
                rw [hv.1.ty.eq_or_unknown.resolve_left hne, hv.1.name]
                exact .argument (hv.2.resolve_left hne) hcalled hlost
              rw [if_pos hlost]
              exact .entailed hentails (hrest.map_right fun _ _ hb ↦ hb)
        · rw [if_neg hty, if_pos he.ty.known]
          exact .report fun _ ↦ (reporting_matchArguments _ _ _ _).grows.bind fun _ ↦ .pure _

theorem fades_called (h : t.Alike t') (hcalled : K.called t'.text) {es es' : List Expression}
    (hes : List.Forall₂ Expression.FadesTo es es') {spans spans' : List Span}
    (hspans : spans'.length = spans.length) :
    Fades K (Expression.WanesTo K) [] (called t span es spans) (called t' span' es' spans') := by
  have hgrows : Grows Resolution.reports (called t span es spans) := (reporting_called _ _ _ _).grows
  rw [h.text] at hcalled
  unfold called at hgrows ⊢
  rw [h.text]
  refine .bind_unchanged hgrows (fun _ ↦ rfl) (fun _ ↦ rfl) (fun _ _ hr ↦ rel_lookupFunction hr t.text) ?_
  intro o o' ho
  cases ho with
  | none => exact .report fun _ ↦ .pure _
  | @some f f' hf =>
    obtain ⟨hf, hname⟩ := hf
    have hparameters := hf.parameters
    have hreturns := hf.returns
    rw [hname] at hparameters hreturns
    refine .ite ?_ (fun _ ↦ .report fun _ ↦ .pure _) fun _ ↦ ?_
    · rw [hes.length_eq, hf.parameters.length_eq]
    · refine .bind_plain (fades_matchArguments hcalled hparameters hes hspans) (fun b ↦ ?_) fun b b' hb ↦ ?_
      · exact .ite (.pure _) (.pure _)
      · rw [if_pos hb]
        cases b' with
        | false => exact .pure ⟨hf.known, .inr (.inl rfl), rfl⟩
        | true =>
          exact .pure ⟨hf.known, hreturns.imp_right fun h ↦ .inr ⟨h.1, .value h.2 hcalled⟩, rfl⟩

theorem fades_call (h : t.Alike t') (hcalled : K.called t'.text) (opening closing opening' closing' : Token)
    {arguments arguments' : List Tree.Expression} (hlength : arguments'.length = arguments.length)
    (hes : Fades K (List.Forall₂ Expression.FadesTo) [] (expressions arguments) (expressions arguments')) :
    Fades K (Expression.WanesTo K) [] (expression (.call t opening arguments closing))
      (expression (.call t' opening' arguments' closing')) := by
  have hspans : (arguments'.map Tree.Expression.span).length = (arguments.map Tree.Expression.span).length := by
    rw [List.length_map, List.length_map, hlength]
  refine .bind_plain hes (fun es ↦ ?_) fun es es' hes ↦ ?_
  · dsimp only
    split
    · exact (reporting_convert _ _ _ _).grows
    · exact (reporting_called _ _ _ _).grows
  have hfades : Fades K (Expression.WanesTo K) []
      (called t (Tree.Expression.call t opening arguments closing).span es (arguments.map Tree.Expression.span))
      (called t' (Tree.Expression.call t' opening' arguments' closing').span es' _) :=
    fades_called _ _ h hcalled hes hspans
  dsimp only
  rw [h.text]
  generalize arguments.map Tree.Expression.span = spans, arguments'.map Tree.Expression.span = spans'
    at hspans hfades ⊢
  rcases hes with _ | @⟨e, e', es, es', he, _ | hes⟩
  · exact hfades
  · rcases spans with _ | ⟨span, _ | ⟨next, spans⟩⟩
    · obtain rfl := List.length_eq_zero_iff.mp hspans
      exact hfades
    · obtain ⟨span', rfl⟩ := List.length_eq_one_iff.mp hspans
      cases htarget : Ty.written? t.text with
      | none => exact hfades
      | some target =>
        have hconvert : Fades K _ [] (convert span e target true) (convert span' e' target true) :=
          fades_convert span span' he (.refl (Ty.isValue_of_written? htarget).1) true
        exact hconvert.mono fun c c' hc ↦ Expression.FadesTo.wanesTo ⟨hc.1, hc.2 rfl⟩
    · obtain ⟨span', spans', rfl⟩ := List.exists_cons_of_length_eq_add_one hspans
      obtain ⟨next', spans', rfl⟩ := List.exists_cons_of_length_eq_add_one (Nat.succ.inj hspans)
      exact hfades
  · exact hfades

/-- The value of an operand, before an operator or a name makes something of it. -/
theorem fades_operand {x x' : Tree.Expression} (h : Fades K (Expression.WanesTo K) [] (expression x) (expression x'))
    {f f' : Expression → Resolver Expression} (hf : ∀ e, Reporting (f e))
    (hfades : ∀ e e', e.FadesTo e' → Fades K (Expression.WanesTo K) [] (f e) (f' e')) :
    Fades K (Expression.WanesTo K) [] (expression x >>= fun e ↦ needValue span e >>= f)
      (expression x' >>= fun e ↦ needValue span' e >>= f') :=
  h.bind_plain (fun _ ↦ ((reporting_needValue _ _).bind hf).grows) fun _ _ he ↦
    (fades_needValue _ _ he).bind_plain (fun e ↦ (hf e).grows) hfades

mutual

theorem fades_expression : (e e' : Tree.Expression) → e.Alike e' → Whole e.tokens → (∀ x ∈ e'.calls, K.called x) →
    Fades K (Expression.WanesTo K) [] (expression e) (expression e')
  | .literal _ x, _, .literal .., _, _ => .pure ⟨by cases x <;> nofun, .inl rfl, rfl⟩
  | .name _, _, .name h, hw, _ => fades_named h (Whole.cons_iff.mp hw).1
  | .unary _ operand, _, .unary h he, hw, hcalls =>
    fades_operand _ _ (fades_expression operand _ he (Whole.cons_iff.mp hw).2 hcalls) (reporting_unary _)
      fun _ _ ↦ fades_unary h
  | .binary left _ right, _, .binary he h he', hw, hcalls => by
    simp only [Tree.Expression.tokens, Whole.append_iff, Whole.cons_iff] at hw
    obtain ⟨hcalls, hcalls'⟩ := List.forall_mem_append.mp hcalls
    refine fades_operand _ _ (fades_expression left _ he hw.1 hcalls) (fun _ ↦ ?_) fun _ _ hl ↦ ?_
    · exact .bind (reporting_expression right) fun _ ↦ .bind (reporting_needValue _ _) fun _ ↦ reporting_binary _ _ _
    · exact fades_operand _ _ (fades_expression right _ he' hw.2.2 hcalls') (reporting_binary _ _)
        fun _ _ ↦ fades_binary hl h
  | .group _ inner _, _, .group _ _ _ _ he, hw, hcalls => by
    simp only [Tree.Expression.tokens, Whole.append_iff, Whole.cons_iff, List.cons_append] at hw
    refine (fades_expression inner _ he hw.2.1 hcalls).bind_plain (fun _ ↦ (reporting_needValue _ _).grows) ?_
    exact fun _ _ he ↦ (fades_needValue _ _ he).mono fun _ _ h ↦ h.wanesTo
  | .assign _ _ value, _, .assign _ _ h he, hw, hcalls => by
    simp only [Tree.Expression.tokens, Whole.cons_iff] at hw
    exact fades_operand _ _ (fades_expression value _ he hw.2.2 hcalls) (reporting_assigned _ _ _)
      fun _ _ ↦ fades_assigned _ _ h _ _
  | .call _ _ arguments _, _, .call _ _ _ _ h hes, hw, hcalls => by
    simp only [Tree.Expression.tokens, Whole.append_iff, Whole.cons_iff, List.cons_append] at hw
    obtain ⟨hcalled, hcalls⟩ := List.forall_mem_cons.mp hcalls
    exact fades_call h hcalled _ _ _ _ hes.length_eq.symm (fades_expressions arguments _ hes hw.2.2.1 hcalls)

theorem fades_expressions : (es es' : List Tree.Expression) → List.Forall₂ Tree.Expression.Alike es es' →
    Whole (Tree.expressionTokens es) → (∀ x ∈ Tree.callsOf es', K.called x) →
    Fades K (List.Forall₂ Expression.FadesTo) [] (expressions es) (expressions es')
  | [], _, .nil, _, _ => .pure .nil
  | e :: rest, _, .cons he hrest, hw, hcalls => by
    obtain ⟨hw, hw'⟩ := Whole.append_iff.mp hw
    obtain ⟨hcalls, hcalls'⟩ := List.forall_mem_append.mp hcalls
    have hmore (c : Expression) : Reporting (do return c :: (← expressions rest)) :=
      .bind (reporting_expressions rest) fun _ ↦ .pure _
    refine (fades_expression e _ he hw hcalls).bind_plain
      (fun _ ↦ ((reporting_needValue _ _).bind hmore).grows) fun _ _ hc ↦ ?_
    refine (fades_needValue _ _ hc).bind_plain (fun c ↦ (hmore c).grows) fun _ _ hc ↦ ?_
    exact (fades_expressions rest _ hrest hw' hcalls').map fun _ _ hcs ↦ .cons hc hcs

end

end Resolver

end SmallScript
