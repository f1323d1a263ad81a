import Mathlib.Data.List.Basic
import Mathlib.Data.List.Pairwise
import SmallScript.Proofs.Code.Translate

namespace SmallScript

def Slides (g : Nat → Nat) (n n' limit : Nat) : Prop := ∀ k, n ≤ k → k < limit → g k + n = k + n'

structure Stretch where
  source : Nat
  target : Nat
  length : Nat

namespace Stretch

structure Apart (p q : Stretch) : Prop where
  source : p.source + p.length ≤ q.source ∨ q.source + q.length ≤ p.source
  target : p.target + p.length ≤ q.target ∨ q.target + q.length ≤ p.target

instance : Std.Symm Apart := ⟨fun _ _ h ↦ ⟨h.source.symm, h.target.symm⟩⟩

def Holds (p : Stretch) (n : Nat) : Prop := p.source ≤ n ∧ n < p.source + p.length

instance (p : Stretch) (n : Nat) : Decidable (p.Holds n) := inferInstanceAs (Decidable (_ ∧ _))

def move (ps : List Stretch) (bound n : Nat) : Nat :=
  match ps.find? (·.Holds n) with
  | some p => n - p.source + p.target
  | none => n + bound

theorem exists_bound (ps : List Stretch) : ∃ bound, ∀ p ∈ ps, p.target + p.length ≤ bound := by
  induction ps with
  | nil => exact ⟨0, nofun⟩
  | cons p ps ih =>
    obtain ⟨bound, hbound⟩ := ih
    refine ⟨max (p.target + p.length) bound, List.forall_mem_cons.mpr ⟨Nat.le_max_left _ _, ?_⟩⟩
    exact fun q hq ↦ Nat.le_trans (hbound q hq) (Nat.le_max_right _ _)

variable {ps : List Stretch}

/-- Stretches that are apart can be moved at once, and all other numbers behind some that are reserved. -/
theorem exists_injective (h : ps.Pairwise Apart) (reserved : Nat) : ∃ g : Nat → Nat,
    (∀ {m n}, g m = g n → m = n) ∧ (∀ p ∈ ps, Slides g p.source p.target (p.source + p.length)) ∧
      ∀ n, (∃ p ∈ ps, p.Holds n) ∨ reserved ≤ g n := by
  obtain ⟨least, hleast⟩ := exists_bound ps
  obtain ⟨bound, hbound, hreserved⟩ : ∃ bound, (∀ p ∈ ps, p.target + p.length ≤ bound) ∧ reserved ≤ bound :=
    ⟨max least reserved, fun p hp ↦ Nat.le_trans (hleast p hp) (Nat.le_max_left _ _), Nat.le_max_right _ _⟩
  have happart {p q : Stretch} (hp : p ∈ ps) (hq : q ∈ ps) (hne : p ≠ q) : p.Apart q :=
    h.forall hp hq hne
  have hmove (n : Nat) : (∃ p ∈ ps, p.Holds n ∧ move ps bound n = n - p.source + p.target) ∨
      move ps bound n = n + bound := by
    unfold move
    cases hp : ps.find? (·.Holds n) with
    | none => exact .inr rfl
    | some p => exact .inl ⟨p, List.mem_of_find?_eq_some hp, by simpa using List.find?_some hp, rfl⟩
  refine ⟨move ps bound, ?_, ?_, fun n ↦ ?_⟩
  · intro m n hmn
    rcases hmove m with ⟨p, hp, ⟨hlo, hhi⟩, hm⟩ | hm <;> rcases hmove n with ⟨q, hq, ⟨hlo', hhi'⟩, hn⟩ | hn
    · by_cases hpq : p = q
      · subst hpq
        omega
      · have := (happart hp hq hpq).target
        omega
    · have := hbound p hp
      omega
    · have := hbound q hq
      omega
    · omega
  · intro p hp n hlo hhi
    unfold move
    cases hq : ps.find? (·.Holds n) with
    | none =>
      have hnot := List.find?_eq_none.mp hq p hp
      simp [Holds, hlo, hhi] at hnot
    | some q =>
      obtain ⟨hlo', hhi'⟩ : q.Holds n := by simpa using List.find?_some hq
      by_cases hpq : p = q
      · subst hpq
        simp only
        omega
      · have := (happart hp (List.mem_of_find?_eq_some hq) hpq).source
        omega
  · rcases hmove n with ⟨p, hp, hn, -⟩ | hn
    · exact .inl ⟨p, hp, hn⟩
    · exact .inr (by omega)

end Stretch

/-- Other numbers for symbols, but for those of builtins. -/
structure Renumbering where
  number : Variable.Kind → Nat → Nat
  function : Nat → Nat
  number_injective : ∀ {k n m}, number k n = number k m → n = m
  function_injective : ∀ {n m}, function n = function m → n = m
  number_builtin : ∀ n < Builtin.firstFree, number .parameter n = n

structure Offsets where
  made : Nat
  loop : Nat

namespace Offsets

def zero : Offsets := ⟨0, 0⟩

def label (x : Offsets) : Label → Label
  | .breakOf n => .breakOf (n + x.loop)
  | .continueOf n => .continueOf (n + x.loop)
  | .made n => .made (n + x.made)
  | .given n name => .given n name

theorem label_injective {x : Offsets} {l l' : Label} (h : x.label l = x.label l') : l = l' := by
  cases l <;> cases l' <;> simp_all [label]

theorem label_zero (l : Label) : zero.label l = l := by cases l <;> rfl

end Offsets

namespace Renumbering

variable (φ : Renumbering)

def var (v : Variable) : Variable := { v with id := φ.number v.kind v.id }

def origin : Function.Origin → Function.Origin
  | .builtin b => .builtin b
  | .declared id => .declared (φ.function id)

def func (f : Function) : Function := ⟨φ.origin f.origin, f.name, f.parameters.map φ.var, f.returns⟩

def translation (x : Offsets) : Code.Translation :=
  ⟨φ.var, φ.func, x.label, fun _ ↦ rfl, fun _ ↦ rfl⟩

@[simp]
theorem var_translation (x : Offsets) : (φ.translation x).var = φ.var := rfl

@[simp]
theorem function_translation (x : Offsets) : (φ.translation x).function = φ.func := rfl

@[simp]
theorem label_translation (x : Offsets) : (φ.translation x).label = x.label := rfl

variable {φ}

theorem var_injective {v w : Variable} (h : φ.var v = φ.var w) : v = w := by
  obtain ⟨id, name, kind, ty, readOnly⟩ := v
  obtain ⟨id', name', kind', ty', readOnly'⟩ := w
  simp only [var, Variable.mk.injEq] at h
  obtain ⟨hid, rfl, rfl, rfl, rfl⟩ := h
  rw [φ.number_injective hid]

theorem func_injective {f g : Function} (h : φ.func f = φ.func g) : f = g := by
  obtain ⟨origin, name, parameters, returns⟩ := f
  obtain ⟨origin', name', parameters', returns'⟩ := g
  simp only [func, Function.mk.injEq] at h
  obtain ⟨horigin, rfl, hparameters, rfl⟩ := h
  have hmap : parameters = parameters' :=
    List.map_injective_iff.mpr (fun _ _ ↦ φ.var_injective) hparameters
  cases origin <;> cases origin' <;> simp_all [Renumbering.origin]
  exact φ.function_injective horigin

theorem func_builtin (b : Builtin) : φ.func b.function = b.function := by
  have hnumber := φ.number_builtin
  cases b with
  | print => simp [func, Builtin.function, origin, var, hnumber 0 (by decide)]
  | input => simp [func, Builtin.function, origin]
  | random => simp [func, Builtin.function, origin, var, hnumber 1 (by decide), hnumber 2 (by decide)]

end Renumbering

namespace Code

variable {φ : Renumbering} {x : Offsets} {n n' limit : Nat} {u u' : Supply} {D : Variable → Prop}
  {P : Expression → Prop}

structure Supply.Later (x : Offsets) (n n' : Nat) (u u' : Supply) : Prop where
  labels : u'.labels = u.labels + x.made
  symbols : u'.nextSymbol + n = u.nextSymbol + n'
  le : n ≤ u.nextSymbol

namespace Supply.Later

theorem skip (h : Later x n n' u u') (k : Nat) : Later x n n' (u.skip k) (u'.skip k) :=
  ⟨by simp only [Supply.skip, h.labels]; omega, h.symbols, h.le⟩

theorem label_eq (h : Later x n n' u u') (k : Nat) : u'.label k = x.label (u.label k) := by
  simp only [Supply.label, Offsets.label, h.labels, Label.made.injEq]
  omega

theorem upperBound (h : Later x n n' u u') {v : Variable}
    (hv : Slides (φ.number (if v.kind = .global then .global else .local)) n n' limit)
    (hlimit : u.nextSymbol < limit) :
    (makeUpperBound (φ.var v) u').1 = φ.var (makeUpperBound v u).1 ∧
      Later x n n' (makeUpperBound v u).2 (makeUpperBound (φ.var v) u').2 := by
  have hslide := hv u.nextSymbol h.le hlimit
  have hsymbols := h.symbols
  have hnext : u'.nextSymbol = φ.number (if v.kind = .global then .global else .local) u.nextSymbol := by
    omega
  refine ⟨?_, h.labels, ?_, Nat.le_succ_of_le h.le⟩
  · change Variable.mk u'.nextSymbol _ _ _ _ = Variable.mk _ _ _ _ _
    rw [hnext]
    rfl
  · change u'.nextSymbol + 1 + n = u.nextSymbol + 1 + n'
    omega

end Supply.Later

theorem atMost_translate (T : Translation) (v bound : Variable) :
    (atMost v bound).translate T = atMost (T.var v) (T.var bound) := rfl

theorem increment_translate (T : Translation) (v : Variable) :
    (increment v).translate T = increment (T.var v) := rfl

mutual

theorem Statement.flatten_renumber
    (hφ : ∀ v, D v → Slides (φ.number (if v.kind = .global then .global else .local)) n n' limit) :
    (s : Statement) → {u u' : Supply} → u.Later x n n' u' → s.Of D P →
    (s.flatten u).2.nextSymbol ≤ limit →
      ((s.translate (φ.translation x)).flatten u').1 = translateAll (φ.translation x) (s.flatten u).1 ∧
        (s.flatten u).2.Later x n n' ((s.translate (φ.translation x)).flatten u').2
  | .block ss, u, u', hu, h, hlimit => flattenAll_renumber hφ ss hu h hlimit
  | .ifThen e s, u, u', hu, h, hlimit => by
    obtain ⟨hs, hend⟩ := s.flatten_renumber hφ (hu.skip 1) h.2 hlimit
    refine ⟨?_, hend⟩
    simp only [Statement.translate, flatten_ifThen, hs, hu.label_eq]
    simp [translateAll, Statement.translate]
  | .ifElse e s s', u, u', hu, h, hlimit => by
    have hle := s'.nextSymbol_le (s.flatten (u.skip 2)).2
    obtain ⟨hs, hmid⟩ := s.flatten_renumber hφ (hu.skip 2) h.2.1 (Nat.le_trans hle hlimit)
    obtain ⟨hs', hend⟩ := s'.flatten_renumber hφ hmid h.2.2 hlimit
    refine ⟨?_, hend⟩
    simp only [Statement.translate, flatten_ifElse, hs, hs', hu.label_eq]
    simp [translateAll, Statement.translate]
  | .whileLoop e s _, u, u', hu, h, hlimit => by
    obtain ⟨hs, hend⟩ := s.flatten_renumber hφ (hu.skip 1) h.2 hlimit
    refine ⟨?_, hend⟩
    simp only [Statement.translate, flatten_whileLoop, hs, hu.label_eq]
    simp [flatWhile, translateAll, Statement.translate, translateExits]
  | .doLoop s e _, u, u', hu, h, hlimit => by
    obtain ⟨hs, hend⟩ := s.flatten_renumber hφ (hu.skip 1) h.2 hlimit
    refine ⟨?_, hend⟩
    simp only [Statement.translate, flatten_doLoop, hs, hu.label_eq]
    simp [flatDo, translateAll, Statement.translate, translateExits]
  | .forLoop v lower upper s _, u, u', hu, h, hlimit => by
    obtain ⟨hv, -, hs⟩ := h
    have hle := s.nextSymbol_le ((makeUpperBound v u).2.skip 2)
    obtain ⟨hbound, hmid⟩ := hu.upperBound (hφ v hv) (Nat.le_trans hle hlimit)
    obtain ⟨hs, hend⟩ := s.flatten_renumber hφ (hmid.skip 2) hs hlimit
    refine ⟨?_, hend⟩
    change ((Statement.forLoop (φ.var v) _ _ _ _).flatten u').1 = _
    simp only [flatten_forLoop, hs, hu.label_eq, hbound]
    simp [flatWhile, translateAll, Statement.translate, translateExits, atMost_translate, increment_translate]
  | .declare _ _, _, _, hu, _, _ | .label _, _, _, hu, _, _ | .goto _, _, _, hu, _, _
  | .gotoIf _ _ _, _, _, hu, _, _ | .leave _, _, _, hu, _, _ | .expression _, _, _, hu, _, _ =>
    ⟨rfl, hu⟩

theorem flattenAll_renumber
    (hφ : ∀ v, D v → Slides (φ.number (if v.kind = .global then .global else .local)) n n' limit) :
    (ss : List Statement) → {u u' : Supply} → u.Later x n n' u' →
    AllOf D P ss → (flattenAll ss u).2.nextSymbol ≤ limit →
      (flattenAll (translateAll (φ.translation x) ss) u').1 =
          translateAll (φ.translation x) (flattenAll ss u).1 ∧
        (flattenAll ss u).2.Later x n n' (flattenAll (translateAll (φ.translation x) ss) u').2
  | [], _, _, hu, _, _ => ⟨rfl, hu⟩
  | s :: rest, u, u', hu, h, hlimit => by
    have hle := nextSymbol_le_all rest (s.flatten u).2
    obtain ⟨hs, hmid⟩ := s.flatten_renumber hφ hu h.1 (Nat.le_trans hle hlimit)
    obtain ⟨hrest, hend⟩ := flattenAll_renumber hφ rest hmid h.2 hlimit
    refine ⟨?_, hend⟩
    simp [translateAll, flattenAll_cons, hs, hrest]

end

end Code

end SmallScript
