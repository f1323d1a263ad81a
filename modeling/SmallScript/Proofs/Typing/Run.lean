import Mathlib.Data.List.Forall2
import SmallScript.Proofs.Run.Keeps
import SmallScript.Proofs.Typing.Basic
import SmallScript.Run.Evaluate

namespace SmallScript

open Code

def Store.Typed (s : Store) : Prop := ∀ e ∈ s.entries, e.2.ty = e.1.ty

def Machine.Typed (m : Machine) : Prop := m.globals.Typed ∧ ∀ s ∈ m.frames, s.Typed

def Halt.Expected : Halt → Prop
  | .fault f => f.isInternal = false
  | .stuck => False
  | .unfinished => True

theorem Store.typed_empty : Store.empty.Typed := fun _ h ↦ nomatch h

theorem Store.Typed.set {s : Store} (h : s.Typed) {v : Variable} {x : Value} (hx : x.ty = v.ty) :
    (s.set v x).Typed := by
  obtain ⟨entries⟩ := s
  suffices ∀ e ∈ setEntry v x entries, e.2.ty = e.1.ty from this
  induction entries with
  | nil => simpa [setEntry] using hx
  | cons e rest ih =>
    obtain ⟨he, hrest⟩ := List.forall_mem_cons.mp h
    unfold setEntry
    split
    · exact List.forall_mem_cons.mpr ⟨hx, hrest⟩
    · exact List.forall_mem_cons.mpr ⟨he, ih hrest⟩

theorem Store.Typed.get? {s : Store} (h : s.Typed) {v : Variable} {x : Value}
    (hx : s.get? v = some x) : x.ty = v.ty := by
  obtain ⟨entries⟩ := s
  change getEntry? v entries = some x at hx
  induction entries with
  | nil => nomatch hx
  | cons e rest ih =>
    obtain ⟨he, hrest⟩ := List.forall_mem_cons.mp h
    unfold getEntry? at hx
    split at hx
    · next hv =>
      cases hx
      exact hv ▸ he
    · exact ih hrest hx

namespace Machine

theorem Typed.get? {m : Machine} (h : m.Typed) {v : Variable} {x : Value} (hx : m.get? v = some x) :
    x.ty = v.ty := by
  unfold Machine.get? at hx
  split at hx
  · exact h.1.get? hx
  · exact h.1.get? hx
  · next frame rest hf _ => exact (h.2 frame (hf ▸ List.mem_cons_self)).get? hx

theorem Typed.set {m : Machine} (h : m.Typed) {v : Variable} {x : Value} (hx : x.ty = v.ty) :
    (m.set v x).Typed := by
  unfold Machine.set
  split
  · exact ⟨h.1.set hx, h.2⟩
  · exact ⟨h.1.set hx, h.2⟩
  · next frame rest hf _ =>
    have hframes := h.2
    rw [hf] at hframes
    obtain ⟨hframe, hrest⟩ := List.forall_mem_cons.mp hframes
    exact ⟨h.1, List.forall_mem_cons.mpr ⟨hframe.set hx, hrest⟩⟩

end Machine

def Ty.Fits (t : Ty) (o : Option Value) : Prop :=
  match o with
  | none => t = .void
  | some x => x.ty = t

theorem UnaryOperator.apply_typed {o : UnaryOperator} (ho : o ∈ all) {x : Value}
    (hx : x.ty = o.operand) : ∃ y, o.action.apply x = .ok y ∧ y.ty = o.result := by
  simp only [all, List.mem_cons, List.not_mem_nil, or_false] at ho
  rcases ho with rfl | rfl | rfl | rfl <;> cases x <;>
    first | exact ⟨_, rfl, rfl⟩ | cases hx

/-- Only a division can fail on operands of the right types. -/
theorem BinaryOperator.apply_typed {o : BinaryOperator} (ho : o ∈ all)
    (hand : o.action ≠ .logicalAnd) (hor : o.action ≠ .logicalOr) {x y : Value}
    (hx : x.ty = o.operand) (hy : y.ty = o.operand) :
    (∃ z, o.action.apply x y = .ok z ∧ z.ty = o.result) ∨
      o.action.apply x y = .error .divisionByZero := by
  by_cases hdiv : o = ⟨.slash, .division, .int, .int⟩
  · subst hdiv
    cases x with
    | int m =>
      cases y with
      | int n =>
        by_cases hn : n = 0
        · exact .inr (if_pos hn)
        · exact .inl ⟨.int (m / n), if_neg hn, rfl⟩
      | bool b => nomatch hy
      | string s => nomatch hy
    | bool b => nomatch hx
    | string s => nomatch hx
  · refine .inl ?_
    simp only [all, List.mem_cons, List.not_mem_nil, or_false] at ho
    rcases ho with rfl | rfl | rfl | rfl | rfl | rfl | rfl | rfl | rfl | rfl | rfl | rfl | rfl |
      rfl | rfl | rfl | rfl | rfl | rfl | rfl | rfl | rfl | rfl <;> cases x <;> cases y <;>
      first | exact ⟨_, rfl, rfl⟩ | (cases hx; done) | (cases hy; done) | exact absurd rfl hand |
        exact absurd rfl hor | exact absurd rfl hdiv

theorem BinaryOperator.logical {o : BinaryOperator} (ho : o ∈ all)
    (h : o.action = .logicalAnd ∨ o.action = .logicalOr) : o.operand = .bool ∧ o.result = .bool := by
  revert o
  decide

theorem Value.convert_typed {x : Value} {target : Ty}
    (h : Conversion.classify x.ty target = .explicit) :
    (∃ y, x.convert target = .ok y ∧ y.ty = target) ∨
      ∃ s, x.convert target = .error (.invalidConversion s target) := by
  rcases x with n | b | s
  · cases target <;> first | exact .inl ⟨_, rfl, rfl⟩ | cases h
  · cases target <;> first | exact .inl ⟨_, rfl, rfl⟩ | cases h
  · cases target with
    | int =>
      simp only [convert]
      split
      · exact .inl ⟨_, rfl, rfl⟩
      · exact .inr ⟨_, rfl⟩
    | bool =>
      simp only [convert]
      split
      · exact .inl ⟨_, rfl, rfl⟩
      · exact .inr ⟨_, rfl⟩
    | unknown | void | string => nomatch h

namespace Run

/-- On machines with types, an action gives what `Q` says, or stops for no mistake in the code. -/
abbrev Safe {α : Type} (m : Run α) (Q : α → Prop) : Prop := Keeps Machine.Typed Halt.Expected m Q

theorem safe_read {v : Variable} : Safe (read v) fun x ↦ x.ty = v.ty := by
  refine .bind .get ?_
  intro m hm
  split
  · next x hx => exact .pure (hm.get? hx)
  · exact .fail rfl

theorem safe_write {v : Variable} {x : Value} (hx : x.ty = v.ty) : Safe (write v x) fun _ ↦ True :=
  .modify fun _ hs ↦ hs.set hx

theorem safe_need {t : Ty} (ht : t.IsValue) {o : Option Value} (ho : t.Fits o) :
    Safe (need o) fun x ↦ x.ty = t := by
  cases o with
  | none => exact absurd ho ht.2
  | some x => exact .pure ho

theorem safe_needInt {o : Option Value} (ho : Ty.int.Fits o) : Safe (needInt o) fun _ ↦ True := by
  refine .bind (safe_need Ty.isValue_int ho) fun x hx ↦ .ofExcept (fun _ _ ↦ trivial) fun f hf ↦ ?_
  cases x with
  | int n => nomatch hf
  | bool b => nomatch hx
  | string s => nomatch hx

theorem safe_needBool {o : Option Value} (ho : Ty.bool.Fits o) :
    Safe (needBool o) fun b ↦ o = some (.bool b) := by
  rcases o with _ | (n | b | s)
  · nomatch ho
  · nomatch ho
  · exact .pure rfl
  · nomatch ho

theorem safe_needString {o : Option Value} (ho : Ty.string.Fits o) :
    Safe (needString o) fun _ ↦ True := by
  refine .bind (safe_need Ty.isValue_string ho) fun x hx ↦ .ofExcept (fun _ _ ↦ trivial) fun f hf ↦ ?_
  cases x with
  | string s => nomatch hf
  | int n => nomatch hx
  | bool b => nomatch hx

section Evaluate

/-- Functions that may be called are proper and exist, and calls of those declared are safe. -/
structure Callees (R : Rules) (invoke : Invoke) : Prop where
  proper : R.Proper
  known : ∀ f, R.callable f → (∃ b : Builtin, f = b.function) ∨ ∃ id, f.origin = .declared id
  safe : ∀ f frame, R.callable f → (∃ id, f.origin = .declared id) → frame.Typed →
    Safe (invoke f frame) f.returns.Fits

variable {R : Rules} (limits : Limits) {invoke : Invoke}

theorem safe_checkDepth : Safe (checkDepth limits) fun _ ↦ True := by
  unfold checkDepth
  split
  · exact .bind .get fun m _ ↦ .ite (fun _ ↦ .fail rfl) fun _ ↦ .pure trivial
  · exact .pure trivial

theorem safe_random (min max : Int32) : Safe (random limits min max) fun _ ↦ True := by
  refine .ite (fun _ ↦ .fail rfl) fun _ ↦ .ite (fun _ ↦ .pure trivial) fun _ ↦ ?_
  exact .bind .get fun m hm ↦ .bind (.set hm) fun _ _ ↦ .pure trivial

theorem safe_print (line : String) : Safe (print line) fun _ ↦ True := .modify fun _ hs ↦ hs

theorem safe_input : Safe input fun _ ↦ True := fun _ hs ↦ ⟨hs, trivial⟩

theorem safe_binary {o : BinaryOperator} (ho : o ∈ BinaryOperator.all) {e e' : Expression}
    (hleft : Safe (evaluate limits invoke e) o.operand.Fits)
    (hright : Safe (evaluate limits invoke e') o.operand.Fits) :
    Safe (evaluate limits invoke (.binary e o e')) o.result.Fits := by
  have hoperand := BinaryOperator.isValue_operand ho
  simp only [evaluate]
  split
  · next haction =>
    obtain ⟨hop, hres⟩ := o.logical ho (.inl haction)
    rw [hop] at hleft hright
    refine .bind hleft ?_
    intro p hp
    refine .bind (safe_needBool hp) ?_
    intro b _
    refine .ite (fun _ ↦ ?_) fun _ ↦ ?_
    · exact .bind hright fun q hq ↦ .bind (safe_needBool hq) fun b _ ↦ .pure hres.symm
    · exact .pure hres.symm
  · next haction =>
    obtain ⟨hop, hres⟩ := o.logical ho (.inr haction)
    rw [hop] at hleft hright
    refine .bind hleft ?_
    intro p hp
    refine .bind (safe_needBool hp) ?_
    intro b _
    refine .ite (fun _ ↦ ?_) fun _ ↦ ?_
    · exact .pure hres.symm
    · exact .bind hright fun q hq ↦ .bind (safe_needBool hq) fun b _ ↦ .pure hres.symm
  · next hand hor =>
    refine .bind hleft fun p hp ↦ .bind (safe_need hoperand hp) fun x hx ↦
      .bind hright fun q hq ↦ .bind (safe_need hoperand hq) fun y hy ↦ ?_
    rcases o.apply_typed ho hand hor hx hy with ⟨z, hz, hzty⟩ | hz
    · rw [hz]
      exact .bind (.pure hzty) fun z hz ↦ .pure hz
    · rw [hz]
      exact .bind (.fail rfl) fun _ h ↦ h

abbrev ArgumentsSafe (limits : Limits) (invoke : Invoke) : List Variable → List Expression → Prop :=
  List.Forall₂ fun v e ↦ Safe (evaluate limits invoke e) v.ty.Fits

theorem safe_bindArguments {vs : List Variable} {es : List Expression}
    (h : ArgumentsSafe limits invoke vs es) (hvs : ∀ v ∈ vs, v.ty.IsValue) {frame : Store}
    (hf : frame.Typed) : Safe (bindArguments limits invoke frame vs es) Store.Typed := by
  induction h generalizing frame with
  | nil => exact .pure hf
  | cons he _ ih =>
    obtain ⟨hv, hvs⟩ := List.forall_mem_cons.mp hvs
    exact .bind he fun o ho ↦ .bind (safe_need hv ho) fun x hx ↦ ih hvs (hf.set hx)

theorem safe_builtin (b : Builtin) {es : List Expression}
    (h : ArgumentsSafe limits invoke b.function.parameters es) :
    Safe (evaluate limits invoke (.call b.function es)) b.function.returns.Fits := by
  cases b with
  | print =>
    obtain _ | ⟨he, ⟨⟩⟩ := h
    exact .bind he fun o ho ↦ .bind (safe_needString ho) fun line _ ↦
      .bind (safe_print line) fun _ _ ↦ .pure rfl
  | input => exact .bind safe_input fun line _ ↦ .pure rfl
  | random =>
    obtain _ | ⟨he, _ | ⟨he', ⟨⟩⟩⟩ := h
    exact .bind he fun o ho ↦ .bind (safe_needInt ho) fun min _ ↦
      .bind he' fun o' ho' ↦ .bind (safe_needInt ho') fun max _ ↦
        .bind (safe_random limits min max) fun _ _ ↦ .pure rfl

mutual

theorem evaluate_typed (h : Callees R invoke) : (e : Expression) → e.WellTyped R →
    Safe (evaluate limits invoke e) e.ty.Fits
  | .error, he => he.elim
  | .literal x, _ => .pure rfl
  | .var v, _ => .bind safe_read fun x hx ↦ .pure hx
  | .assign v e, ⟨_, hv, he, hty⟩ =>
    .bind (evaluate_typed h e he) fun o ho ↦ .bind (safe_need (hty ▸ hv) ho) fun x hx ↦
      .bind (safe_write (hx.trans hty)) fun _ _ ↦ .pure hx
  | .unary o e, ⟨ho, he, hty⟩ => by
    refine .bind (evaluate_typed h e he) fun p hp ↦
      .bind (safe_need (hty ▸ UnaryOperator.isValue_result ho) hp) fun x hx ↦ ?_
    obtain ⟨y, hy, hyty⟩ := UnaryOperator.apply_typed ho (hx.trans hty)
    rw [hy]
    exact .bind (.pure hyty) fun y hy ↦ .pure hy
  | .binary e o e', ⟨ho, ⟨he, hty⟩, he', hty'⟩ => by
    have hleft := evaluate_typed h e he
    have hright := evaluate_typed h e' he'
    rw [hty] at hleft
    rw [hty'] at hright
    exact safe_binary limits ho hleft hright
  | .call f es, ⟨hf, hes⟩ => by
    have hargs := arguments_typed h f.parameters es hes
    rcases h.known f hf with ⟨b, rfl⟩ | ⟨id, hid⟩
    · exact safe_builtin limits b hargs
    · unfold evaluate
      rw [hid]
      exact .bind (safe_checkDepth limits) fun _ _ ↦
        .bind (safe_bindArguments limits hargs (h.proper f hf).1 Store.typed_empty) fun frame hframe ↦
          h.safe f frame hf ⟨id, hid⟩ hframe
  | .convert target e, ⟨he, hc⟩ => by
    refine .bind (evaluate_typed h e he) fun o ho ↦
      .bind (safe_need (Conversion.isValue_of_explicit hc).1 ho) fun x hx ↦ ?_
    rcases Value.convert_typed (hx.symm ▸ hc) with ⟨y, hy, hyty⟩ | ⟨s, hs⟩
    · rw [hy]
      exact .bind (.pure hyty) fun y hy ↦ .pure hy
    · rw [hs]
      exact .bind (.fail rfl) fun _ h ↦ h

theorem arguments_typed (h : Callees R invoke) : (vs : List Variable) → (es : List Expression) →
    ArgumentsTyped R vs es → ArgumentsSafe limits invoke vs es
  | [], [], _ => .nil
  | _ :: vs, e :: es, ⟨⟨he, hty⟩, hes⟩ =>
    .cons (hty ▸ evaluate_typed h e he) (arguments_typed h vs es hes)

end

end Evaluate

end Run

end SmallScript
