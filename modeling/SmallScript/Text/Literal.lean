namespace SmallScript

namespace Decimal

/-- The value of a numeral of at least one digit. -/
def natural? (cs : List Char) : Option Nat :=
  if cs ≠ [] ∧ cs.all Char.isDigit then some (Nat.ofDigitChars 10 cs 0) else none

/-- The value of a numeral with at most one sign before it. -/
def integer? : List Char → Option Int
  | '-' :: ds => (natural? ds).map fun n ↦ -(n : Int)
  | '+' :: ds => (natural? ds).map fun n ↦ (n : Int)
  | ds => (natural? ds).map fun n ↦ (n : Int)

/-- The value of a numeral that 32 bits hold. -/
def int32? (cs : List Char) : Option Int32 :=
  (integer? cs).bind fun z ↦ if -0x80000000 ≤ z ∧ z < 0x80000000 then some (Int32.ofInt z) else none

theorem natural?_toDigits (n : Nat) : natural? (Nat.toDigits 10 n) = some n := by
  have hd : (Nat.toDigits 10 n).all Char.isDigit :=
    List.all_eq_true.mpr fun _ h ↦ Nat.isDigit_of_mem_toDigits (by decide) (by decide) h
  rw [natural?, if_pos ⟨Nat.toDigits_ne_nil, hd⟩,
    Nat.ofDigitChars_toDigits (by decide) (by decide)]

theorem isDigit_of_mem_toString {c : Char} {n : Nat} (h : c ∈ (toString n).toList) : c.isDigit := by
  rw [Nat.toString_eq_repr, Nat.repr_eq_ofList_toDigits, String.toList_ofList] at h
  exact Nat.isDigit_of_mem_toDigits (by decide) (by decide) h

end Decimal

namespace Quoted

/-- The text with a backslash before each quote and backslash. -/
def escape : List Char → List Char
  | [] => []
  | c :: rest => if c = '"' ∨ c = '\\' then '\\' :: c :: escape rest else c :: escape rest

def encode (s : String) : String := String.ofList ('"' :: (escape s.toList ++ ['"']))

theorem escape_append (cs ds : List Char) : escape (cs ++ ds) = escape cs ++ escape ds := by
  induction cs with
  | nil => rfl
  | cons c cs ih => by_cases h : c = '"' ∨ c = '\\' <;> simp [escape, h, ih]

end Quoted

/-- Replaces each occurrence of `pattern`, from the left and without overlap, after dropping `skip`
characters. -/
def substitute (pattern replacement : List Char) : (skip : Nat) → List Char → List Char
  | _, [] => []
  | skip + 1, _ :: rest => substitute pattern replacement skip rest
  | 0, c :: rest =>
    if pattern.isPrefixOf (c :: rest) then
      replacement ++ substitute pattern replacement (pattern.length - 1) rest
    else c :: substitute pattern replacement 0 rest

def replaceAll (pattern replacement cs : List Char) : List Char := substitute pattern replacement 0 cs

section Replace

variable {p r : List Char}

theorem substitute_drop (skipped cs : List Char) :
    substitute p r skipped.length (skipped ++ cs) = substitute p r 0 cs := by
  induction skipped with
  | nil => rfl
  | cons c skipped ih => exact ih

theorem replaceAll_append_of_pattern (c : Char) (cs : List Char) :
    replaceAll (c :: p) r ((c :: p) ++ cs) = r ++ replaceAll (c :: p) r cs := by
  have hprefix : (c :: p).isPrefixOf ((c :: p) ++ cs) := List.isPrefixOf_iff_prefix.mpr (List.prefix_append _ _)
  unfold replaceAll
  rw [List.cons_append, substitute, ← List.cons_append, if_pos hprefix]
  exact congrArg (r ++ ·) (substitute_drop p cs)

/-- Characters that the pattern does not begin with are passed over. -/
theorem replaceAll_append_of_not_mem {c : Char} {passed : List Char} (h : c ∉ passed) (cs : List Char) :
    replaceAll (c :: p) r (passed ++ cs) = passed ++ replaceAll (c :: p) r cs := by
  induction passed with
  | nil => rfl
  | cons d passed ih =>
    obtain ⟨hd, hpassed⟩ := not_or.mp (mt List.mem_cons.mpr h)
    have hprefix : ¬ (c :: p).isPrefixOf (d :: (passed ++ cs)) := by simp [hd]
    rw [List.cons_append, List.cons_append, ← ih hpassed]
    unfold replaceAll
    rw [substitute, if_neg hprefix]

theorem replaceAll_singleton (c : Char) (cs : List Char) :
    replaceAll [c] r cs = cs.flatMap fun d ↦ if d = c then r else [d] := by
  induction cs with
  | nil => rfl
  | cons d rest ih =>
    unfold replaceAll at ih ⊢
    by_cases h : d = c
    · simp [substitute, h, ih]
    · simp [substitute, h, Ne.symm h, ih]

end Replace

end SmallScript
