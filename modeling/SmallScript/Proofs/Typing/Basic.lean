import SmallScript.Code.Flat
import SmallScript.Proofs.Code.Parts
import SmallScript.Value

namespace SmallScript

def Ty.IsValue (t : Ty) : Prop := t ≠ .unknown ∧ t ≠ .void

instance (t : Ty) : Decidable t.IsValue := inferInstanceAs (Decidable (_ ∧ _))

theorem Ty.isValue_bool : Ty.bool.IsValue := by decide

theorem Ty.isValue_int : Ty.int.IsValue := by decide

theorem Ty.isValue_string : Ty.string.IsValue := by decide

theorem Ty.isValue_of_written? {word : String} {t : Ty} (h : Ty.written? word = some t) :
    t.IsValue := by
  unfold Ty.written? at h
  split at h <;> cases h <;> decide

theorem Value.isValue_ty (x : Value) : x.ty.IsValue := by
  cases x <;> exact ⟨nofun, nofun⟩

theorem UnaryOperator.isValue_result {o : UnaryOperator} (h : o ∈ UnaryOperator.all) :
    o.result.IsValue := by
  revert o
  decide

theorem BinaryOperator.isValue_result {o : BinaryOperator} (h : o ∈ BinaryOperator.all) :
    o.result.IsValue := by
  revert o
  decide

theorem BinaryOperator.isValue_operand {o : BinaryOperator} (h : o ∈ BinaryOperator.all) :
    o.operand.IsValue := by
  revert o
  decide

theorem Conversion.isValue_of_explicit {s t : Ty} (h : Conversion.classify s t = .explicit) :
    s.IsValue ∧ t.IsValue := by
  revert h
  cases s <;> cases t <;> decide

/-- The parameters of a function are values, and what it returns is known. -/
def Function.Proper (f : Function) : Prop :=
  (∀ v ∈ f.parameters, v.ty.IsValue) ∧ f.returns ≠ .unknown

theorem Builtin.proper_function (b : Builtin) : b.function.Proper := by
  cases b <;> simp [function, Function.Proper, Ty.IsValue]

namespace Code

/-- What code may use: the functions that it calls, and the variables that it assigns. -/
structure Rules where
  callable : Function → Prop
  assignable : Variable → Prop

/-- What a text may use: functions with `F`, and variables that are not read-only. -/
def Rules.source (F : Function → Prop) : Rules := ⟨F, fun v ↦ v.readOnly = false⟩

def Rules.Proper (R : Rules) : Prop := ∀ f, R.callable f → f.Proper

mutual

def Expression.WellTyped (R : Rules) : Expression → Prop
  | .error => False
  | .literal _ => True
  | .var v => v.ty.IsValue
  | .assign v e => R.assignable v ∧ v.ty.IsValue ∧ e.WellTyped R ∧ e.ty = v.ty
  | .unary o e => o ∈ UnaryOperator.all ∧ e.WellTyped R ∧ e.ty = o.operand
  | .binary e o e' =>
    o ∈ BinaryOperator.all ∧ (e.WellTyped R ∧ e.ty = o.operand) ∧ e'.WellTyped R ∧ e'.ty = o.operand
  | .call f es => R.callable f ∧ ArgumentsTyped R f.parameters es
  | .convert target e => e.WellTyped R ∧ Conversion.classify e.ty target = .explicit

def ArgumentsTyped (R : Rules) : List Variable → List Expression → Prop
  | [], [] => True
  | v :: vs, e :: es => (e.WellTyped R ∧ e.ty = v.ty) ∧ ArgumentsTyped R vs es
  | _, _ => False

end

/-- What a function with the given result may return. There is nothing to return outside functions. -/
def ReturnTyped (R : Rules) : Option Function → Option Expression → Prop
  | none, _ => False
  | some f, none => f.returns = .void
  | some f, some e => f.returns.IsValue ∧ e.WellTyped R ∧ e.ty = f.returns

mutual

def Statement.WellTyped (R : Rules) (owner : Option Function) : Statement → Prop
  | .block statements => AllTyped R owner statements
  | .declare v e => v.ty.IsValue ∧ e.WellTyped R ∧ e.ty = v.ty
  | .ifThen condition branch =>
    (condition.WellTyped R ∧ condition.ty = .bool) ∧ branch.WellTyped R owner
  | .ifElse condition branch otherwise =>
    (condition.WellTyped R ∧ condition.ty = .bool) ∧ branch.WellTyped R owner
      ∧ otherwise.WellTyped R owner
  | .whileLoop condition body _ | .doLoop body condition _ =>
    (condition.WellTyped R ∧ condition.ty = .bool) ∧ body.WellTyped R owner
  | .forLoop v lower upper body _ =>
    v.ty = .int ∧ (lower.WellTyped R ∧ lower.ty = .int) ∧ (upper.WellTyped R ∧ upper.ty = .int)
      ∧ body.WellTyped R owner
  | .label _ | .goto _ => True
  | .gotoIf _ condition _ => condition.WellTyped R ∧ condition.ty = .bool
  | .leave value => ReturnTyped R owner value
  | .expression e => e.WellTyped R

def AllTyped (R : Rules) (owner : Option Function) : List Statement → Prop
  | [] => True
  | s :: rest => s.WellTyped R owner ∧ AllTyped R owner rest

end

theorem allTyped_iff {R : Rules} {owner : Option Function} {l : List Statement} :
    AllTyped R owner l ↔ ∀ s ∈ l, s.WellTyped R owner := by
  induction l with
  | nil => simp [AllTyped]
  | cons s rest ih => simp [AllTyped, ih]

theorem AllTyped.operand {R : Rules} {owner : Option Function} {b : List Statement}
    (h : AllTyped R owner b) : ∀ s ∈ b, ∀ e ∈ s.operand?, e.WellTyped R := by
  intro s hs e he
  have hs := allTyped_iff.mp h s hs
  cases s with
  | declare v e' =>
    obtain rfl := Option.some.inj he
    exact hs.2.1
  | expression e' =>
    obtain rfl := Option.some.inj he
    exact hs
  | gotoIf l e' negated =>
    obtain rfl := Option.some.inj he
    exact hs.1
  | leave value =>
    obtain rfl : value = some e := he
    cases owner with
    | none => exact hs.elim
    | some f => exact hs.2.1
  | _ => nomatch he

def Expression.Valued (R : Rules) (e : Expression) : Prop := e.WellTyped R ∧ e.ty.IsValue

/-- Only an expression without meaning has a type that is not known. -/
theorem Expression.WellTyped.ty_ne_unknown {R : Rules} (hR : R.Proper) {e : Expression}
    (h : e.WellTyped R) : e.ty ≠ .unknown := by
  cases e with
  | error => exact h.elim
  | literal x => exact x.isValue_ty.1
  | var v => exact h.1
  | assign v e =>
    obtain ⟨-, hv, -, he⟩ := h
    exact he ▸ hv.1
  | unary o e => exact (UnaryOperator.isValue_result h.1).1
  | binary e o e' => exact (BinaryOperator.isValue_result h.1).1
  | call f es => exact (hR f h.1).2
  | convert target e => exact (Conversion.isValue_of_explicit h.2).2.1

mutual

theorem Expression.WellTyped.mono {R R' : Rules} (hc : ∀ f, R.callable f → R'.callable f)
    (ha : ∀ v, R.assignable v → R'.assignable v) :
    (e : Expression) → e.WellTyped R → e.WellTyped R'
  | .literal _, h | .var _, h => h
  | .assign v e, ⟨hv, hty, he, heq⟩ => ⟨ha v hv, hty, Expression.WellTyped.mono hc ha e he, heq⟩
  | .unary _ e, ⟨ho, he, heq⟩ => ⟨ho, Expression.WellTyped.mono hc ha e he, heq⟩
  | .binary e _ e', ⟨ho, ⟨he, heq⟩, he', heq'⟩ =>
    ⟨ho, ⟨Expression.WellTyped.mono hc ha e he, heq⟩, Expression.WellTyped.mono hc ha e' he', heq'⟩
  | .call f es, ⟨hf, hes⟩ => ⟨hc f hf, argumentsTyped_mono hc ha f.parameters es hes⟩
  | .convert _ e, ⟨he, heq⟩ => ⟨Expression.WellTyped.mono hc ha e he, heq⟩

theorem argumentsTyped_mono {R R' : Rules} (hc : ∀ f, R.callable f → R'.callable f)
    (ha : ∀ v, R.assignable v → R'.assignable v) :
    (vs : List Variable) → (es : List Expression) → ArgumentsTyped R vs es → ArgumentsTyped R' vs es
  | [], [], _ => trivial
  | _ :: vs, e :: es, ⟨⟨he, heq⟩, hes⟩ =>
    ⟨⟨Expression.WellTyped.mono hc ha e he, heq⟩, argumentsTyped_mono hc ha vs es hes⟩

end

section Uses

variable {R : Rules} {V : Variable → Prop} {F : Function → Prop}

mutual

theorem Expression.WellTyped.uses : (e : Expression) → e.WellTyped R → e.Uses True V F → e.Uses False V F
  | .literal _, _, h | .var _, _, h => h
  | .assign _ e, ⟨_, _, he, _⟩, ⟨hv, h⟩ => ⟨hv, Expression.WellTyped.uses e he h⟩
  | .unary _ e, ⟨_, he, _⟩, h | .convert _ e, ⟨he, _⟩, h => Expression.WellTyped.uses e he h
  | .binary e _ e', ⟨_, ⟨he, _⟩, he', _⟩, ⟨h, h'⟩ =>
    ⟨Expression.WellTyped.uses e he h, Expression.WellTyped.uses e' he' h'⟩
  | .call f es, ⟨_, hes⟩, ⟨hf, h⟩ => ⟨hf, argumentsTyped_uses f.parameters es hes h⟩

theorem argumentsTyped_uses : (vs : List Variable) → (es : List Expression) → ArgumentsTyped R vs es →
    AllUse True V F es → AllUse False V F es
  | [], [], _, _ => trivial
  | _ :: vs, e :: es, ⟨⟨he, _⟩, hes⟩, ⟨h, hrest⟩ =>
    ⟨Expression.WellTyped.uses e he h, argumentsTyped_uses vs es hes hrest⟩

end

end Uses

end Code

end SmallScript
