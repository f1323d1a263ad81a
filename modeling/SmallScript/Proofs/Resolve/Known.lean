import SmallScript.Proofs.Tree.ReadBack
import SmallScript.Proofs.Tree.Spelt
import SmallScript.Proofs.Typing.Resolve

namespace SmallScript

theorem Scopes.name_of_lookupVariable {s : Scopes} {scope : Nat} {name : String} {v : Variable}
    (h : s.lookupVariable scope name = some v) : v.name = name := by
  obtain ⟨f, -, hv⟩ := List.exists_of_findSome?_eq_some h
  simpa using List.find?_some hv

theorem Scopes.name_of_lookupFunction {s : Scopes} {scope : Nat} {name : String} {g : Function}
    (h : s.lookupFunction scope name = some g) : g.name = name := by
  obtain ⟨f, -, hg⟩ := List.exists_of_findSome?_eq_some h
  simpa using List.find?_some hg

namespace Code

mutual

/-- Whether names stand for the symbols of an expression, and operators and conversions are those that
the types of their operands give. -/
def Expression.Known (r : Resolution) : Expression → Prop
  | .error => False
  | .literal _ => True
  | .var v => r.scopes.lookupVariable r.scope v.name = some v
  | .assign v e =>
    r.scopes.lookupVariable r.scope v.name = some v ∧ v.readOnly = false ∧ e.ty = v.ty ∧ e.ty ≠ .void ∧
      e.Known r
  | .unary o e => UnaryOperator.find? (.mark o.sign) e.ty = some o ∧ e.Known r
  | .binary e o e' => BinaryOperator.find? (.mark o.sign) e.ty e'.ty = some o ∧ e.Known r ∧ e'.Known r
  | .call f es =>
    r.scopes.lookupFunction r.scope f.name = some f ∧ (es.length = 1 → Ty.written? f.name = none) ∧
      es.map Expression.ty = f.parameters.map Variable.ty ∧ AllKnown r es
  | .convert target e => Conversion.classify e.ty target = .explicit ∧ e.Known r

def AllKnown (r : Resolution) : List Expression → Prop
  | [] => True
  | e :: es => (e.ty ≠ .void ∧ e.Known r) ∧ AllKnown r es

end

end Code

namespace Resolver

open Code (Expression)

abbrev Keeps {α : Type} (r : Resolution) (m : Resolver α) (Q : α → Prop) : Prop :=
  Honest Resolution.reports (· = r) m Q

section Keeps

variable {r : Resolution}

theorem keeps_lookupVariable (name : String) :
    Keeps r (lookupVariable name) fun o ↦ r.scopes.lookupVariable r.scope name = o :=
  .of_log_eq (fun _ ↦ rfl) fun _ h ↦ by obtain rfl := h; exact ⟨rfl, rfl⟩

theorem keeps_lookupFunction (name : String) :
    Keeps r (lookupFunction name) fun o ↦ r.scopes.lookupFunction r.scope name = o :=
  .of_log_eq (fun _ ↦ rfl) fun _ h ↦ by obtain rfl := h; exact ⟨rfl, rfl⟩

theorem keeps_needValue (span : Span) (e : Expression) :
    Keeps r (needValue span e) fun e' ↦ e' = e ∧ e.ty ≠ .void :=
  .ite (fun _ ↦ .bind (honest_report _ _) fun _ ↦ .pure fun h ↦ h.elim) fun h ↦ .pure ⟨rfl, h⟩

theorem keeps_convert (span : Span) (e : Expression) (target : Ty) (isWritten : Bool) :
    Keeps r (convert span e target isWritten) fun e' ↦
      e' = .error ∨ (e' = e ∧ e.ty = target) ∨
        (e' = .convert target e ∧ Conversion.classify e.ty target = .explicit ∧ isWritten) := by
  unfold convert
  split
  · exact .ite (fun _ ↦ .bind (honest_report _ _) fun _ ↦ .pure fun h ↦ h.elim) fun _ ↦ .pure (.inl rfl)
  · next hc => exact .pure (.inr (.inl ⟨rfl, Conversion.classify_eq_identity_iff.mp hc⟩))
  · next hc => exact absurd hc (Conversion.classify_ne_silent _ _)
  · next hc =>
    refine .ite (fun _ ↦ .bind (honest_report _ _) fun _ ↦ .pure fun h ↦ h.elim) fun hw ↦ ?_
    exact .pure (.inr (.inr ⟨rfl, hc, by simpa using hw⟩))

theorem keeps_matchArguments (name : String) (vs : List Variable) (es : List Expression) (spans : List Span) :
    Keeps r (matchArguments name vs es spans) fun b ↦
      es.length = vs.length → spans.length = es.length → b = true →
        es.map Expression.ty = vs.map Variable.ty := by
  induction vs generalizing es spans with
  | nil =>
    refine .pure fun hlen _ _ ↦ ?_
    obtain rfl := List.length_eq_zero_iff.mp hlen
    rfl
  | cons v vs ih =>
    rcases es with _ | ⟨e, es⟩
    · exact .pure fun hlen ↦ nomatch hlen
    rcases spans with _ | ⟨span, spans⟩
    · exact .pure fun _ hspans ↦ nomatch hspans
    refine .ite (fun hty ↦ (ih es spans).mono fun b hb hlen hspans htrue ↦ ?_) fun _ ↦ .ite (fun _ ↦ ?_) fun _ ↦ ?_
    · rw [List.map_cons, List.map_cons, hty, hb (Nat.succ.inj hlen) (Nat.succ.inj hspans) htrue]
    · exact .bind (honest_report _ _) fun _ ↦ .bind (ih es spans) fun _ ↦ .pure fun _ h ↦ h.elim
    · exact .bind (ih es spans) fun _ ↦ .pure fun _ _ _ htrue ↦ nomatch htrue

def Sound (r : Resolution) (e : Expression) : Prop := e.Legible ∧ (e.Meant → e.Known r)

theorem sound_error : Sound r .error := ⟨trivial, fun h ↦ h.elim⟩

theorem keeps_named {t : Token} (ht : IsName t.text) : Keeps r (named t) (Sound r) := by
  refine .ite (fun _ ↦ .pure sound_error) fun _ ↦ .bind (keeps_lookupVariable _) fun o ↦ ?_
  cases o with
  | none => exact .bind (honest_report _ _) fun _ ↦ .pure fun h ↦ h.elim
  | some v =>
    refine .pure fun hv ↦ ?_
    have hname := Scopes.name_of_lookupVariable hv
    rw [← hname] at ht hv
    exact ⟨ht, fun _ ↦ hv⟩

theorem keeps_assigned {t : Token} (ht : IsName t.text) (equals : Token) (span : Span) (value : Expression) :
    Keeps r (assigned t equals span value) fun e ↦ Sound r value ∧ value.ty ≠ .void → Sound r e := by
  refine .bind (keeps_lookupVariable _) ?_
  intro o
  cases o with
  | none => exact .bind (honest_report _ _) fun _ ↦ .pure fun h ↦ h.elim
  | some v =>
    refine .ite (fun _ ↦ ?_) fun hr ↦ ?_
    · exact .bind (honest_report _ _) fun _ ↦ .bind (keeps_convert span value v.ty false) fun _ ↦
        .pure fun _ h ↦ h.elim
    · refine .bind (keeps_convert span value v.ty false) fun e ↦ .pure ?_
      intro he hv ⟨⟨hlegible, hknown⟩, hvoid⟩
      have hname := Scopes.name_of_lookupVariable hv
      rw [← hname] at ht hv
      -- A value is assigned as it is, for no conversion is written.
      rcases he with rfl | ⟨rfl, hty⟩ | ⟨-, -, hw⟩
      · exact ⟨⟨ht, trivial⟩, fun h ↦ h.2.elim⟩
      · exact ⟨⟨ht, hlegible⟩, fun h ↦ ⟨hv, eq_false_of_ne_true hr, hty, hvoid, hknown h.2⟩⟩
      · nomatch hw

theorem keeps_unary (sign : Token) (operand : Expression) :
    Keeps r (unary sign operand) fun e ↦ Sound r operand → Sound r e := by
  refine .ite (fun _ ↦ .pure fun _ ↦ sound_error) fun _ ↦ ?_
  split
  · next o ho =>
    refine .pure fun ⟨hlegible, hknown⟩ ↦ ⟨⟨List.mem_of_find?_eq_some ho, hlegible⟩, fun h ↦ ⟨?_, hknown h⟩⟩
    have hsign := List.find?_some ho
    simp only [Bool.and_eq_true, beq_iff_eq] at hsign
    rw [hsign.1]
    exact ho
  · exact .bind (honest_report _ _) fun _ ↦ .pure fun h ↦ h.elim

theorem keeps_binary (left : Expression) (sign : Token) (right : Expression) :
    Keeps r (binary left sign right) fun e ↦ Sound r left → Sound r right → Sound r e := by
  refine .ite (fun _ ↦ .pure fun _ _ ↦ sound_error) fun _ ↦ ?_
  split
  · next o ho =>
    refine .pure fun hl hr ↦
      ⟨⟨List.mem_of_find?_eq_some ho, hl.1, hr.1⟩, fun h ↦ ⟨?_, hl.2 h.1, hr.2 h.2⟩⟩
    have hsign := List.find?_some ho
    simp only [Bool.and_eq_true, beq_iff_eq] at hsign
    rw [hsign.1.1]
    exact ho
  · exact .bind (honest_report _ _) fun _ ↦ .pure fun h ↦ h.elim

def AllSound (r : Resolution) (es : List Expression) : Prop :=
  Code.AllLegible es ∧ (Code.AllUse False (fun _ ↦ True) (fun _ ↦ True) es → Code.AllKnown r es)

theorem keeps_called {t : Token} (ht : IsName t.text) (span : Span) (es : List Expression) (spans : List Span) :
    Keeps r (called t span es spans) fun e ↦ spans.length = es.length → AllSound r es →
      (es.length = 1 → Ty.written? t.text = none) → Sound r e := by
  refine .bind (keeps_lookupFunction _) ?_
  intro o
  cases o with
  | none => exact .bind (honest_report _ _) fun _ ↦ .pure fun h ↦ h.elim
  | some f =>
    refine .ite (fun _ ↦ .bind (honest_report _ _) fun _ ↦ .pure fun h ↦ h.elim) fun hlen ↦ ?_
    refine .bind (keeps_matchArguments _ _ _ _) fun b ↦ .ite (fun hb ↦ .pure ?_) fun _ ↦ .pure ?_
    · intro htypes hf hspans ⟨hlegible, hknown⟩ hone
      have hname := Scopes.name_of_lookupFunction hf
      rw [← hname] at ht hf hone
      have htypes := htypes (Decidable.not_not.mp hlen) hspans hb
      exact ⟨⟨ht, hlegible⟩, fun h ↦ ⟨hf, hone, htypes, hknown h.2⟩⟩
    · exact fun _ _ _ _ _ ↦ sound_error

mutual

theorem keeps_expression : (x : Tree.Expression) → x.Spelt → Keeps r (expression x) (Sound r)
  | .literal _ _, h => .pure ⟨h, fun _ ↦ trivial⟩
  | .name _, h => keeps_named h
  | .unary sign operand, h =>
    .bind (keeps_expression operand h) fun _ ↦ .bind (keeps_needValue _ _) fun _ ↦
      (keeps_unary sign _).mono fun _ hs hv he ↦ hs (hv.1 ▸ he)
  | .binary left sign right, ⟨h, h'⟩ =>
    .bind (keeps_expression left h) fun _ ↦ .bind (keeps_needValue _ _) fun _ ↦
      .bind (keeps_expression right h') fun _ ↦ .bind (keeps_needValue _ _) fun _ ↦
        (keeps_binary _ sign _).mono fun _ hs hv' he' hv he ↦ hs (hv.1 ▸ he) (hv'.1 ▸ he')
  | .group _ inner _, h =>
    .bind (keeps_expression inner h) fun _ ↦ (keeps_needValue _ _).mono fun _ hv he ↦ hv.1 ▸ he
  | .assign identifier equals value, ⟨hname, h⟩ =>
    .bind (keeps_expression value h) fun _ ↦ .bind (keeps_needValue _ _) fun _ ↦
      (keeps_assigned hname equals _ _).mono fun _ hs hv he ↦ hs (by rw [hv.1]; exact ⟨he, hv.2⟩)
  | .call identifier opening arguments closing, ⟨hname, h⟩ => by
    refine .bind (keeps_expressions arguments h) ?_
    intro es
    -- The name of a type with one argument converts it; any other call is one of a function.
    dsimp only
    split
    · next e _ target _ ht =>
      refine (keeps_convert _ _ target true).mono ?_
      rintro c hc ⟨-, ⟨hlegible, -⟩, hknown⟩
      rcases hc with rfl | ⟨rfl, -⟩ | ⟨rfl, hexplicit, -⟩
      · exact sound_error
      · exact ⟨hlegible, fun hm ↦ (hknown ⟨hm, trivial⟩).1.2⟩
      · exact ⟨⟨Ty.isValue_of_written? ht, hlegible⟩, fun hm ↦ ⟨hexplicit, (hknown ⟨hm, trivial⟩).1.2⟩⟩
    · next hnot =>
      refine (keeps_called hname _ _ _).mono ?_
      intro c hc ⟨hlen, hs⟩
      refine hc ((List.length_map _).trans hlen.symm) hs fun hone ↦ ?_
      obtain ⟨e, rfl⟩ := List.length_eq_one_iff.mp hone
      obtain ⟨x, rfl⟩ := List.length_eq_one_iff.mp (hlen.symm.trans hone)
      cases hw : Ty.written? identifier.text with
      | none => rfl
      | some target => exact (hnot e x.span target rfl rfl hw).elim

theorem keeps_expressions : (xs : List Tree.Expression) → Tree.AllSpelt xs →
    Keeps r (expressions xs) fun es ↦ es.length = xs.length ∧ AllSound r es
  | [], _ => .pure ⟨rfl, trivial, fun _ ↦ trivial⟩
  | x :: rest, ⟨h, hrest⟩ =>
    .bind (keeps_expression x h) fun _ ↦ .bind (keeps_needValue _ _) fun _ ↦
      .bind (keeps_expressions rest hrest) fun _ ↦ .pure fun hall hv he ↦ by
        obtain ⟨rfl, hvoid⟩ := hv
        exact ⟨congrArg (· + 1) hall.1, ⟨he.1, hall.2.1⟩, fun hm ↦ ⟨⟨hvoid, he.2 hm.1⟩, hall.2.2 hm.2⟩⟩

end

end Keeps

open SmallScript.Tree (Spells SpellAll)

section Spells

variable {r : Resolution} {e : Expression}

theorem isValue_of_unary {o : UnaryOperator} (h : UnaryOperator.find? (.mark o.sign) e.ty = some o) :
    e.ty.IsValue := by
  have hvalue : o.operand.IsValue := UnaryOperator.isValue_result (List.mem_of_find?_eq_some h)
  rwa [UnaryOperator.operand_of_find? h] at hvalue

theorem isValue_of_binary {e' : Expression} {o : BinaryOperator}
    (h : BinaryOperator.find? (.mark o.sign) e.ty e'.ty = some o) : e.ty.IsValue ∧ e'.ty.IsValue := by
  obtain ⟨hty, hty'⟩ := BinaryOperator.operand_of_find? h
  have hvalue := BinaryOperator.isValue_operand (List.mem_of_find?_eq_some h)
  exact ⟨hty ▸ hvalue, hty' ▸ hvalue⟩

theorem ty_ne_void_of_needsGroup {outer : Nat} {right : Bool} (h : e.needsGroup outer right) (he : e.Known r) :
    e.ty ≠ .void := by
  cases e with
  | assign v e => exact he.2.2.2.1
  | unary o e => exact (UnaryOperator.isValue_result (List.mem_of_find?_eq_some he.1)).2
  | binary e o e' => exact (BinaryOperator.isValue_result (List.mem_of_find?_eq_some he.1)).2
  | _ => nomatch h

theorem bind_eq {α β : Type} {m : Resolver α} {f : α → Resolver β} {a : α} (h : m r = (a, r)) :
    (m >>= f) r = f a r := by
  change f (m r).1 (m r).2 = _
  rw [h]

theorem needValue_eq (span : Span) (h : e.ty ≠ .void) (r : Resolution) : needValue span e r = (e, r) := by
  rw [needValue, if_neg h]
  rfl

theorem bind_value_eq {α : Type} {x : Tree.Expression} {f : Expression → Resolver α} (span : Span)
    (hx : expression x r = (e, r)) (he : e.ty ≠ .void) :
    (do f (← needValue span (← expression x))) r = f e r :=
  (bind_eq hx).trans (bind_eq (needValue_eq span he r))

theorem assigned_eq {t : Token} {v : Variable} (equals : Token) (span : Span)
    (hv : r.scopes.lookupVariable r.scope t.text = some v) (hr : v.readOnly = false) (hty : e.ty = v.ty) :
    assigned t equals span e r = (.assign v e, r) := by
  have hconvert : convert span e v.ty false r = (e, r) := by
    rw [convert, Conversion.classify_eq_identity_iff.mpr hty]
    rfl
  rw [assigned]
  refine (bind_eq (a := some v) (by rw [← hv]; rfl)).trans ?_
  dsimp only
  rw [hr, if_neg Bool.false_ne_true]
  exact bind_eq hconvert

theorem unary_eq {sign : Token} {o : UnaryOperator} (hsign : sign.kind = .mark o.sign)
    (h : UnaryOperator.find? (.mark o.sign) e.ty = some o) (r : Resolution) : unary sign e r = (.unary o e, r) := by
  rw [unary, if_neg (isValue_of_unary h).1, hsign, h]
  rfl

theorem binary_eq {e' : Expression} {sign : Token} {o : BinaryOperator} (hsign : sign.kind = .mark o.sign)
    (h : BinaryOperator.find? (.mark o.sign) e.ty e'.ty = some o) (r : Resolution) :
    binary e sign e' r = (.binary e o e', r) := by
  obtain ⟨hvalue, hvalue'⟩ := isValue_of_binary h
  rw [binary, if_neg (not_or.mpr ⟨hvalue.1, hvalue'.1⟩), hsign, h]
  rfl

theorem matchArguments_eq (name : String) {vs : List Variable} {es : List Expression} (spans : List Span)
    (h : es.map Expression.ty = vs.map Variable.ty) (r : Resolution) :
    matchArguments name vs es spans r = (true, r) := by
  induction vs generalizing es spans with
  | nil => rfl
  | cons v vs ih =>
    rcases es with _ | ⟨e, es⟩
    · nomatch h
    rcases spans with _ | ⟨span, spans⟩
    · rfl
    obtain ⟨hty, hrest⟩ := List.cons.inj h
    rw [matchArguments, if_pos hty]
    exact ih spans hrest

theorem convert_eq {target : Ty} (span : Span) (h : Conversion.classify e.ty target = .explicit) (r : Resolution) :
    convert span e target true r = (.convert target e, r) := by
  rw [convert, h]
  rfl

theorem call_eq {t opening closing : Token} {xs : List Tree.Expression} {es : List Expression}
    (hxs : expressions xs r = (es, r)) (hone : es.length = 1 → Ty.written? t.text = none) :
    expression (.call t opening xs closing) r =
      called t (Tree.Expression.call t opening xs closing).span es (xs.map Tree.Expression.span) r := by
  refine (bind_eq hxs).trans (congrFun ?_ r)
  split
  · next target htarget =>
    rw [hone rfl] at htarget
    nomatch htarget
  · rfl

theorem called_eq {t : Token} {f : Function} {es : List Expression} (span : Span) (spans : List Span)
    (hf : r.scopes.lookupFunction r.scope t.text = some f) (hes : es.map Expression.ty = f.parameters.map Variable.ty) :
    called t span es spans r = (.call f es, r) := by
  have hlength : ¬ es.length ≠ f.parameters.length := by
    have hmap := congrArg List.length hes
    rw [List.length_map, List.length_map] at hmap
    exact not_not_intro hmap
  rw [called]
  refine (bind_eq (a := some f) (by rw [← hf]; rfl)).trans ?_
  dsimp only
  rw [if_neg hlength]
  exact bind_eq (matchArguments_eq t.text spans hes r)

mutual

/-- What spells an expression that the scope knows becomes it, without a report. -/
theorem expression_of_spells : {x : Tree.Expression} → {e : Expression} → Spells x e → e.Known r →
    expression x r = (e, r)
  | _, _, .literal _ _, _ => rfl
  | _, _, .var (v := v) ht hthere, he => by
    rw [expression, named, hthere]
    refine (bind_eq (a := some v) ?_)
    rw [ht]
    exact congrArg (·, r) he
  | _, _, .assign ht hx, ⟨hv, hr, hty, hvoid, he⟩ =>
    (bind_value_eq _ (expression_of_spells hx he) hvoid).trans (assigned_eq _ _ (ht ▸ hv) hr hty)
  | _, _, .unary hsign hx, ⟨ho, he⟩ =>
    (bind_value_eq _ (expression_of_spells hx he) (isValue_of_unary ho).2).trans (unary_eq hsign ho r)
  | _, _, .binary hsign hx hx', ⟨ho, he, he'⟩ =>
    have hvalue := isValue_of_binary ho
    (bind_value_eq _ (expression_of_spells hx he) hvalue.1.2).trans
      ((bind_value_eq _ (expression_of_spells hx' he') hvalue.2.2).trans (binary_eq hsign ho r))
  | _, _, .call ht hxs, ⟨hf, hone, hty, hes⟩ =>
    (call_eq (expressions_of_spellAll hxs hes) (ht ▸ hone)).trans (called_eq _ _ (ht ▸ hf) hty)
  | _, _, .convert (x := x) (e := e) ht hx, ⟨hc, he⟩ => by
    have hvalue := Conversion.isValue_of_explicit hc
    have harguments : expressions [x] r = ([e], r) :=
      (bind_value_eq _ (expression_of_spells hx he) hvalue.1.2).trans rfl
    refine (bind_eq harguments).trans ?_
    rw [ht, Ty.written?_name hvalue.2]
    exact convert_eq _ hc r
  | _, _, .group h hx, he =>
    (bind_eq (expression_of_spells hx he)).trans (needValue_eq _ (ty_ne_void_of_needsGroup h he) r)

theorem expressions_of_spellAll : {xs : List Tree.Expression} → {es : List Expression} → SpellAll xs es →
    Code.AllKnown r es → expressions xs r = (es, r)
  | _, _, .nil, _ => rfl
  | _, _, .cons hx hxs, ⟨⟨hvoid, he⟩, hes⟩ =>
    (bind_value_eq _ (expression_of_spells hx he) hvoid).trans (bind_eq (expressions_of_spellAll hxs hes))

end

end Spells

end Resolver

end SmallScript
