import SmallScript.Proofs.Code.Flatten
import SmallScript.Proofs.Code.Parts
import SmallScript.Proofs.Typing.Basic

namespace SmallScript.Code

/-- Other numbers for locals, and other labels. -/
structure Renaming where
  var : Variable → Variable
  label : Label → Label
  var_injective : ∀ {v w}, var v = var w → v = w
  label_injective : ∀ {l l'}, label l = label l' → l = l'
  var_of_ne_local : ∀ {v : Variable}, v.kind ≠ .local → var v = v
  var_eq : ∀ v : Variable, ∃ n, var v = { v with id := n }

namespace Renaming

variable (φ : Renaming) (v : Variable)

@[simp]
theorem name_var : (φ.var v).name = v.name := by
  obtain ⟨n, h⟩ := φ.var_eq v
  rw [h]

@[simp]
theorem kind_var : (φ.var v).kind = v.kind := by
  obtain ⟨n, h⟩ := φ.var_eq v
  rw [h]

@[simp]
theorem ty_var : (φ.var v).ty = v.ty := by
  obtain ⟨n, h⟩ := φ.var_eq v
  rw [h]

@[simp]
theorem readOnly_var : (φ.var v).readOnly = v.readOnly := by
  obtain ⟨n, h⟩ := φ.var_eq v
  rw [h]

def shift (d : Nat) : Renaming where
  var v := if v.kind = .local then { v with id := v.id + d } else v
  label := id
  var_injective {v w} h := by
    have hkind : v.kind = w.kind := by
      have := congrArg Variable.kind h
      split at this <;> split at this <;> simpa using this
    rw [hkind] at h
    split at h
    · cases v
      cases w
      simp_all
    · exact h
  label_injective h := h
  var_of_ne_local h := if_neg h
  var_eq v := by
    split
    · exact ⟨_, rfl⟩
    · exact ⟨v.id, rfl⟩

end Renaming

variable (φ : Renaming)

mutual

def Expression.rename : Expression → Expression
  | .error => .error
  | .literal x => .literal x
  | .var v => .var (φ.var v)
  | .assign v e => .assign (φ.var v) e.rename
  | .unary o e => .unary o e.rename
  | .binary e o e' => .binary e.rename o e'.rename
  | .call f es => .call f (renameArguments es)
  | .convert target e => .convert target e.rename

def renameArguments : List Expression → List Expression
  | [] => []
  | e :: es => e.rename :: renameArguments es

end

def renameExits (x : Exits) : Exits := ⟨φ.label x.leave, φ.label x.again⟩

mutual

def Statement.rename : Statement → Statement
  | .block ss => .block (renameAll ss)
  | .declare v e => .declare (φ.var v) (e.rename φ)
  | .ifThen e s => .ifThen (e.rename φ) s.rename
  | .ifElse e s s' => .ifElse (e.rename φ) s.rename s'.rename
  | .whileLoop e s x => .whileLoop (e.rename φ) s.rename (renameExits φ x)
  | .doLoop s e x => .doLoop s.rename (e.rename φ) (renameExits φ x)
  | .forLoop v lower upper s x =>
    .forLoop (φ.var v) (lower.rename φ) (upper.rename φ) s.rename (renameExits φ x)
  | .label l => .label (φ.label l)
  | .goto l => .goto (φ.label l)
  | .gotoIf l e negated => .gotoIf (φ.label l) (e.rename φ) negated
  | .leave e => .leave (e.map (Expression.rename φ))
  | .expression e => .expression (e.rename φ)

def renameAll : List Statement → List Statement
  | [] => []
  | s :: rest => s.rename :: renameAll rest

end

variable {φ}

theorem renameArguments_eq_map (es : List Expression) :
    renameArguments φ es = es.map (Expression.rename φ) := by
  induction es with
  | nil => rfl
  | cons e es ih => rw [renameArguments, ih, List.map_cons]

theorem renameAll_eq_map (ss : List Statement) : renameAll φ ss = ss.map (Statement.rename φ) := by
  induction ss with
  | nil => rfl
  | cons s rest ih => rw [renameAll, ih, List.map_cons]

@[simp]
theorem renameAll_append (ss ss' : List Statement) :
    renameAll φ (ss ++ ss') = renameAll φ ss ++ renameAll φ ss' := by
  simp [renameAll_eq_map]

@[simp]
theorem Expression.ty_rename : (e : Expression) → (e.rename φ).ty = e.ty
  | .assign _ e => e.ty_rename
  | .var v => φ.ty_var v
  | .error | .literal _ | .unary _ _ | .binary _ _ _ | .call _ _ | .convert _ _ => rfl

mutual

theorem Expression.vars_rename : (e : Expression) →
    (e.rename φ).vars = e.vars.map φ.var
  | .error | .literal _ | .var _ => rfl
  | .assign _ e => by simp [Expression.rename, Expression.vars, e.vars_rename]
  | .unary _ e | .convert _ e => e.vars_rename
  | .binary e _ e' => by
    simp [Expression.rename, Expression.vars, e.vars_rename, e'.vars_rename]
  | .call _ es => varsAll_rename es

theorem varsAll_rename : (es : List Expression) →
    varsAll (renameArguments φ es) = (varsAll es).map φ.var
  | [] => rfl
  | e :: es => by
    simp [renameArguments, varsAll, e.vars_rename, varsAll_rename es]

end

mutual

theorem Expression.functions_rename : (e : Expression) → (e.rename φ).functions = e.functions
  | .error | .literal _ | .var _ => rfl
  | .assign _ e | .unary _ e | .convert _ e => e.functions_rename
  | .binary e _ e' => by
    simp [Expression.rename, Expression.functions, e.functions_rename, e'.functions_rename]
  | .call _ es => by simp [Expression.rename, Expression.functions, functionsAll_rename es]

theorem functionsAll_rename : (es : List Expression) →
    functionsAll (renameArguments φ es) = functionsAll es
  | [] => rfl
  | e :: es => by
    simp [renameArguments, functionsAll, e.functions_rename, functionsAll_rename es]

end

theorem Statement.vars_rename (s : Statement) :
    (s.rename φ).vars = s.vars.map φ.var := by
  cases s with
  | leave e =>
    cases e with
    | none => rfl
    | some e => exact e.vars_rename
  | _ => simp [Statement.rename, Statement.vars, Expression.vars_rename]

theorem Statement.functions_rename (s : Statement) : (s.rename φ).functions = s.functions := by
  cases s with
  | leave e =>
    cases e with
    | none => rfl
    | some e => exact e.functions_rename
  | _ => simp [Statement.rename, Statement.functions, Expression.functions_rename]

section Flatten

variable {D : Variable → Prop} {P : Expression → Prop}

def Counts (D : Variable → Prop) (P : Expression → Prop) : Prop :=
  ∀ v u, D v → D (makeUpperBound v u).1 ∧ P (atMost v (makeUpperBound v u).1) ∧ (increment v).Of D P

def CountsWithin (n m : Nat) (D : Variable → Prop) (P : Expression → Prop) : Prop :=
  ∀ v u, n ≤ u.nextSymbol → u.nextSymbol < m → D v →
    D (makeUpperBound v u).1 ∧ P (atMost v (makeUpperBound v u).1) ∧ (increment v).Of D P

theorem counts_uses {error : Prop} {V : Variable → Prop} {F : Function → Prop}
    (hV : ∀ v, v.kind ≠ .global → V v) :
    Counts (·.kind ≠ .global) (·.Uses error V F) := by
  intro v u hv
  have hbound : (makeUpperBound v u).1.kind ≠ .global := by
    change (if v.kind = .global then Variable.Kind.global else .local) ≠ .global
    rw [if_neg hv]
    nofun
  exact ⟨hbound, ⟨hV v hv, hV _ hbound⟩, hV v hv, hV v hv, trivial⟩

variable {n m : Nat}

mutual

theorem Statement.allOf_flatten (h : CountsWithin n m D P) : (s : Statement) → (u : Supply) →
    n ≤ u.nextSymbol → (s.flatten u).2.nextSymbol ≤ m → (AllOf D P (s.flatten u).1 ↔ s.Of D P)
  | .block ss, u, hn, hm => allOf_flattenAll h ss u hn hm
  | .ifThen e s, u, hn, hm => by
    have ih := s.allOf_flatten h (u.skip 1) hn hm
    simp [flatten_ifThen, AllOf, Statement.Of, allOf_append, ih]
  | .ifElse e s s', u, hn, hm => by
    have hle := s.nextSymbol_le (u.skip 2)
    have hle' := s'.nextSymbol_le (s.flatten (u.skip 2)).2
    have ih := s.allOf_flatten h (u.skip 2) hn (Nat.le_trans hle' hm)
    have ih' := s'.allOf_flatten h (s.flatten (u.skip 2)).2 (Nat.le_trans hn hle) hm
    simp [flatten_ifElse, AllOf, Statement.Of, allOf_append, ih, ih']
  | .whileLoop e s x, u, hn, hm => by
    have ih := s.allOf_flatten h (u.skip 1) hn hm
    simp [flatten_whileLoop, flatWhile, AllOf, Statement.Of, allOf_append, ih, and_comm]
  | .doLoop s e x, u, hn, hm => by
    have ih := s.allOf_flatten h (u.skip 1) hn hm
    simp [flatten_doLoop, flatDo, AllOf, Statement.Of, allOf_append, ih, and_comm]
  | .forLoop v lower upper s x, u, hn, hm => by
    have hle := s.nextSymbol_le ((makeUpperBound v u).2.skip 2)
    have ih := s.allOf_flatten h ((makeUpperBound v u).2.skip 2) (Nat.le_succ_of_le hn) hm
    have hv := h v u hn (Nat.le_trans hle hm)
    simp only [flatten_forLoop, flatWhile, AllOf, Statement.Of, allOf_append, ih]
    tauto
  | .declare _ _, _, _, _ | .label _, _, _, _ | .goto _, _, _, _ | .gotoIf _ _ _, _, _, _ | .leave _, _, _, _
  | .expression _, _, _, _ =>
    and_iff_left trivial

theorem allOf_flattenAll (h : CountsWithin n m D P) : (ss : List Statement) → (u : Supply) →
    n ≤ u.nextSymbol → (flattenAll ss u).2.nextSymbol ≤ m → (AllOf D P (flattenAll ss u).1 ↔ AllOf D P ss)
  | [], _, _, _ => Iff.rfl
  | s :: rest, u, hn, hm => by
    have hle := s.nextSymbol_le u
    have hle' := nextSymbol_le_all rest (s.flatten u).2
    have ih := s.allOf_flatten h u hn (Nat.le_trans hle' hm)
    have ih' := allOf_flattenAll h rest (s.flatten u).2 (Nat.le_trans hn hle) hm
    simp [flattenAll_cons, AllOf, allOf_append, ih, ih']

end

theorem allOf_flattenBody (h : Counts D P) (ss : List Statement) (n : Nat) :
    AllOf D P (flattenBody ss n).1 ↔ AllOf D P ss :=
  allOf_flattenAll (fun v u _ _ ↦ h v u) ss ⟨0, n⟩ (Nat.le_refl n) (Nat.le_refl _)

end Flatten

section Shift

variable (d : Nat)

def Supply.later (u : Supply) : Supply := { u with nextSymbol := u.nextSymbol + d }

theorem makeUpperBound_later {v : Variable} (hv : v.kind ≠ .global) (u : Supply) :
    makeUpperBound ((Renaming.shift d).var v) (u.later d) =
      ((Renaming.shift d).var (makeUpperBound v u).1, (makeUpperBound v u).2.later d) := by
  have hbound (w : Variable) (u : Supply) : makeUpperBound w u =
      (⟨u.nextSymbol, "upperBound", if w.kind = .global then .global else .local, .int, true⟩,
        { u with nextSymbol := u.nextSymbol + 1 }) := rfl
  rw [hbound, hbound, Renaming.kind_var, if_neg hv]
  simp [Renaming.shift, Supply.later, Nat.add_right_comm]

theorem atMost_rename (φ : Renaming) (v bound : Variable) :
    (atMost v bound).rename φ = atMost (φ.var v) (φ.var bound) := rfl

theorem increment_rename (φ : Renaming) (v : Variable) :
    (increment v).rename φ = increment (φ.var v) := rfl

mutual

theorem Statement.flatten_shift {P : Expression → Prop} : (s : Statement) → (u : Supply) →
    s.Of (·.kind ≠ .global) P →
      (s.rename (.shift d)).flatten (u.later d) =
        (renameAll (.shift d) (s.flatten u).1, (s.flatten u).2.later d)
  | .block ss, u, h => flattenAll_shift ss u h
  | .ifThen e s, u, h => by
    have ih := s.flatten_shift (u.skip 1) h.2
    have hskip : (u.later d).skip 1 = (u.skip 1).later d := rfl
    simp only [Statement.rename, flatten_ifThen, hskip, ih]
    simp [renameAll, Statement.rename]
    rfl
  | .ifElse e s s', u, h => by
    have ih := s.flatten_shift (u.skip 2) h.2.1
    have ih' := s'.flatten_shift (s.flatten (u.skip 2)).2 h.2.2
    have hskip : (u.later d).skip 2 = (u.skip 2).later d := rfl
    simp only [Statement.rename, flatten_ifElse, hskip, ih, ih']
    simp [renameAll, Statement.rename]
    rfl
  | .whileLoop e s x, u, h => by
    have ih := s.flatten_shift (u.skip 1) h.2
    have hskip : (u.later d).skip 1 = (u.skip 1).later d := rfl
    simp only [Statement.rename, flatten_whileLoop, hskip, ih]
    simp [flatWhile, renameAll, Statement.rename]
    rfl
  | .doLoop s e x, u, h => by
    have ih := s.flatten_shift (u.skip 1) h.2
    have hskip : (u.later d).skip 1 = (u.skip 1).later d := rfl
    simp only [Statement.rename, flatten_doLoop, hskip, ih]
    simp [flatDo, renameAll, Statement.rename]
    rfl
  | .forLoop v lower upper s x, u, h => by
    obtain ⟨hv, -, hs⟩ := h
    have ih := s.flatten_shift ((makeUpperBound v u).2.skip 2) hs
    have hskip : ((makeUpperBound v u).2.later d).skip 2 = ((makeUpperBound v u).2.skip 2).later d := rfl
    simp only [Statement.rename, flatten_forLoop, makeUpperBound_later d hv, hskip, ih]
    simp [flatWhile, renameAll, Statement.rename, atMost_rename, increment_rename]
    rfl
  | .declare _ _, _, _ | .label _, _, _ | .goto _, _, _ | .gotoIf _ _ _, _, _ | .leave _, _, _
  | .expression _, _, _ => rfl

theorem flattenAll_shift {P : Expression → Prop} : (ss : List Statement) → (u : Supply) →
    AllOf (·.kind ≠ .global) P ss →
      flattenAll (renameAll (.shift d) ss) (u.later d) =
        (renameAll (.shift d) (flattenAll ss u).1, (flattenAll ss u).2.later d)
  | [], _, _ => rfl
  | s :: rest, u, h => by
    have ih := s.flatten_shift u h.1
    have ih' := flattenAll_shift rest (s.flatten u).2 h.2
    simp [renameAll, flattenAll_cons, ih, ih']

end

theorem flattenBody_shift {P : Expression → Prop} {ss : List Statement}
    (h : AllOf (·.kind ≠ .global) P ss) (n : Nat) :
    flattenBody (renameAll (.shift d) ss) (n + d) =
      (renameAll (.shift d) (flattenBody ss n).1, (flattenBody ss n).2 + d) := by
  have hall := flattenAll_shift d ss ⟨0, n⟩ h
  change flattenAll _ ⟨0, n + d⟩ = _ at hall
  unfold flattenBody
  rw [hall]
  rfl

end Shift

end SmallScript.Code
