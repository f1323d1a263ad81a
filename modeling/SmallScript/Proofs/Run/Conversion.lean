import SmallScript.Proofs.Token.Written
import SmallScript.Run.Arithmetic

namespace SmallScript

section Trim

/-- Whether `inner` is what a text has between the blanks around it. -/
structure Strips (cs inner : List Char) : Prop where
  around : ∃ before after, cs = before ++ (inner ++ after) ∧ (∀ c ∈ before, isBlank c) ∧ ∀ c ∈ after, isBlank c
  first : ∀ c, inner.head? = some c → isBlank c = false
  last : ∀ c, inner.getLast? = some c → isBlank c = false

variable {cs inner : List Char}

theorem dropWhile_stops {p : Char → Bool} {c : Char} (h : (cs.dropWhile p).head? = some c) : p c = false := by
  have hstop := List.head?_dropWhile_not p cs
  rw [h] at hstop
  exact hstop

theorem strips_trim (cs : List Char) : Strips cs (trim cs) := by
  let rest := cs.dropWhile isBlank
  let after := (rest.reverse.takeWhile isBlank).reverse
  have hfront : cs.takeWhile isBlank ++ rest = cs := List.takeWhile_append_dropWhile
  have hback : trim cs ++ after = rest := by
    rw [trim, trimEnd, ← List.reverse_append, List.takeWhile_append_dropWhile, List.reverse_reverse]
  refine ⟨⟨cs.takeWhile isBlank, after, ?_, ?_, ?_⟩, fun c hc ↦ ?_, fun c hc ↦ ?_⟩
  · rw [hback, hfront]
  · exact List.all_eq_true.mp List.all_takeWhile
  · exact fun c hc ↦ List.all_eq_true.mp List.all_takeWhile c (List.mem_reverse.mp hc)
  · have hrest : rest.head? = some c := by rw [← hback, List.head?_append, hc, Option.some_or]
    exact dropWhile_stops hrest
  · rw [trim, trimEnd, List.getLast?_reverse] at hc
    exact dropWhile_stops hc

theorem Strips.eq_trim (h : Strips cs inner) : inner = trim cs := by
  obtain ⟨before, after, rfl, hbefore, hafter⟩ := h.around
  have hfront : (before ++ (inner ++ after)).dropWhile isBlank = (inner ++ after).dropWhile isBlank :=
    List.dropWhile_append_of_pos hbefore
  cases inner with
  | nil =>
    have hnil : (after ++ []).dropWhile isBlank = [] := List.dropWhile_append_of_pos hafter
    rw [trim, hfront, List.nil_append, ← List.append_nil after, hnil]
    rfl
  | cons c inner =>
    have hc : isBlank c = false := h.first c rfl
    have hblank : ∀ d ∈ after.reverse, isBlank d := fun d hd ↦ hafter d (List.mem_reverse.mp hd)
    have hstop : ∀ d, (c :: inner).reverse.head? = some d → isBlank d = false :=
      fun d hd ↦ h.last d (by rwa [List.head?_reverse] at hd)
    have hlast := takeWhile_of_stops hblank hstop
    rw [trim, hfront, List.cons_append, List.dropWhile_cons_of_neg (by simp [hc]), trimEnd, ← List.cons_append,
      List.reverse_append, hlast.2, List.reverse_reverse]

theorem strips_self (h : ∀ c ∈ cs, isBlank c = false) : Strips cs cs :=
  ⟨⟨[], [], by simp, List.forall_mem_nil _, List.forall_mem_nil _⟩, fun c hc ↦ h c (List.mem_of_mem_head? hc),
    fun c hc ↦ h c (List.mem_of_getLast? hc)⟩

theorem strips_iff : Strips cs inner ↔ inner = trim cs :=
  ⟨Strips.eq_trim, fun h ↦ h ▸ strips_trim cs⟩

end Trim

namespace Decimal

/-- The value of decimal digits, where each counts by its place from the right. -/
def placeValue : List Char → Nat
  | [] => 0
  | d :: ds => (d.toNat - '0'.toNat) * Nat.pow 10 ds.length + placeValue ds

/-- How an integer can be written: with digits, and one sign before them or none. -/
inductive Writes : List Char → Int → Prop
  | unsigned {ds : List Char} (hne : ds ≠ []) (hds : ∀ d ∈ ds, d.isDigit) : Writes ds (placeValue ds)
  | plus {ds : List Char} (hne : ds ≠ []) (hds : ∀ d ∈ ds, d.isDigit) : Writes ('+' :: ds) (placeValue ds)
  | minus {ds : List Char} (hne : ds ≠ []) (hds : ∀ d ∈ ds, d.isDigit) : Writes ('-' :: ds) (-(placeValue ds : Int))

theorem ofDigitChars_eq_placeValue (ds : List Char) : Nat.ofDigitChars 10 ds 0 = placeValue ds := by
  induction ds with
  | nil => rfl
  | cons d ds ih =>
    rw [Nat.ofDigitChars_cons, Nat.ofDigitChars_eq_ofDigitChars_zero, ih, placeValue, Nat.mul_zero, Nat.zero_add,
      Nat.mul_comm]
    rfl

theorem natural?_eq_some_iff {ds : List Char} {n : Nat} :
    natural? ds = some n ↔ ds ≠ [] ∧ (∀ d ∈ ds, d.isDigit) ∧ placeValue ds = n := by
  rw [natural?, ofDigitChars_eq_placeValue]
  by_cases h : ds ≠ [] ∧ ds.all Char.isDigit
  · rw [if_pos h, Option.some_inj]
    exact ⟨fun hn ↦ ⟨h.1, List.all_eq_true.mp h.2, hn⟩, fun hn ↦ hn.2.2⟩
  · rw [if_neg h]
    exact ⟨fun hn ↦ (Option.some_ne_none n hn.symm).elim, fun hn ↦ absurd ⟨hn.1, List.all_eq_true.mpr hn.2.1⟩ h⟩

variable {cs : List Char} {z : Int} {n : Int32}

theorem integer?_eq_some_iff : integer? cs = some z ↔ Writes cs z := by
  constructor
  · intro h
    unfold integer? at h
    split at h
    · next ds =>
      obtain ⟨n, hn, rfl⟩ : ∃ n, natural? ds = some n ∧ -(n : Int) = z := by simpa [Option.bind_eq_some_iff] using h
      obtain ⟨hne, hds, rfl⟩ := natural?_eq_some_iff.mp hn
      exact .minus hne hds
    · next ds =>
      obtain ⟨n, hn, rfl⟩ : ∃ n, natural? ds = some n ∧ (n : Int) = z := by simpa [Option.bind_eq_some_iff] using h
      obtain ⟨hne, hds, rfl⟩ := natural?_eq_some_iff.mp hn
      exact .plus hne hds
    · obtain ⟨n, hn, rfl⟩ : ∃ n, natural? cs = some n ∧ (n : Int) = z := by simpa [Option.bind_eq_some_iff] using h
      obtain ⟨hne, hds, rfl⟩ := natural?_eq_some_iff.mp hn
      exact .unsigned hne hds
  · rintro (⟨hne, hds⟩ | ⟨hne, hds⟩ | ⟨hne, hds⟩)
    · rw [integer?_of_digits hne hds, ofDigitChars_eq_placeValue]
    · rw [integer?, natural?_eq_some_iff.mpr ⟨hne, hds, rfl⟩]
      rfl
    · rw [integer?, natural?_eq_some_iff.mpr ⟨hne, hds, rfl⟩]
      rfl

theorem int32?_eq_some_iff : int32? cs = some n ↔ Writes cs n.toInt := by
  constructor
  · intro h
    obtain ⟨z, hz, hn⟩ := Option.bind_eq_some_iff.mp h
    split at hn
    · next hfits =>
      obtain rfl := Option.some.inj hn
      rw [Int32.toInt_ofInt_of_le hfits.1 hfits.2]
      exact integer?_eq_some_iff.mp hz
    · nomatch hn
  · intro h
    have hle := n.le_toInt
    have hlt := n.toInt_lt
    rw [int32?, integer?_eq_some_iff.mpr h, Option.bind_some, if_pos ⟨hle, hlt⟩, Int32.ofInt_toInt]

theorem digits_toDigits (n : Nat) : ∀ d ∈ Nat.toDigits 10 n, d.isDigit :=
  fun _ h ↦ Nat.isDigit_of_mem_toDigits (by decide) (by decide) h

theorem placeValue_toDigits (n : Nat) : placeValue (Nat.toDigits 10 n) = n := by
  rw [← ofDigitChars_eq_placeValue, Nat.ofDigitChars_ten_toDigits]

theorem writes_toDigits (n : Nat) : Writes (Nat.toDigits 10 n) n := by
  have hwrites := Writes.unsigned Nat.toDigits_ne_nil (digits_toDigits n)
  rwa [placeValue_toDigits] at hwrites

theorem writes_toString (z : Int) : Writes (toString z).toList z := by
  cases z with
  | ofNat n =>
    change Writes (toString n).toList n
    rw [Nat.toString_eq_repr, Nat.repr_eq_ofList_toDigits, String.toList_ofList]
    exact writes_toDigits n
  | negSucc n =>
    have hdigits := digits_toDigits (n + 1)
    have htext : (toString (Int.negSucc n)).toList = '-' :: Nat.toDigits 10 (n + 1) := by
      change ("-" ++ Nat.repr (n + 1)).toList = _
      rw [Nat.repr_eq_ofList_toDigits, String.toList_append, String.toList_ofList, String.toList_ofList]
      rfl
    have hwrites := Writes.minus Nat.toDigits_ne_nil hdigits
    rw [placeValue_toDigits] at hwrites
    rw [htext]
    exact hwrites

theorem Writes.not_blank (h : Writes cs z) : ∀ c ∈ cs, isBlank c = false := by
  have hdigit {ds : List Char} (hds : ∀ d ∈ ds, d.isDigit) : ∀ d ∈ ds, isBlank d = false :=
    fun d hd ↦ isBlank_of_isIdentifierPart (isIdentifierPart_of_isDigit (hds d hd))
  cases h with
  | unsigned hne hds => exact hdigit hds
  | plus hne hds | minus hne hds => exact List.forall_mem_cons.mpr ⟨by decide, hdigit hds⟩

end Decimal

section Words

/-- Whether a text is a word of small letters, where each may be the capital of it instead. -/
def SpellsWord (word cs : List Char) : Prop :=
  List.Forall₂ (fun w c ↦ c = w ∨ c = w.toUpper) word cs

variable {w c : Char} {word cs : List Char} {b : Bool}

theorem toNat_toLower (c : Char) :
    c.toLower.toNat = if 65 ≤ c.toNat ∧ c.toNat ≤ 90 then c.toNat + 32 else c.toNat := by
  by_cases h : 65 ≤ c.toNat ∧ c.toNat ≤ 90
  · have hval : c.toLower.val = c.val + ('a'.val - 'A'.val) := congrArg Char.val (dif_pos h)
    have hshift : ('a'.val - 'A'.val).toNat = 32 := by decide
    rw [if_pos h, Char.toNat, hval, UInt32.toNat_add, hshift]
    simp only [Char.toNat] at h ⊢
    omega
  · have hsame : c.toLower = c := dif_neg h
    rw [if_neg h, hsame]

theorem isLower_iff : w.isLower ↔ 97 ≤ w.toNat ∧ w.toNat ≤ 122 :=
  Bool.and_eq_true_iff.trans (and_congr decide_eq_true_iff decide_eq_true_iff)

theorem toNat_toUpper (h : w.isLower) : w.toUpper.toNat = w.toNat - 32 := by
  have hrange := isLower_iff.mp h
  have hval : w.toUpper.val = w.val + ('A'.val - 'a'.val) := by
    delta Char.toUpper
    rw [dif_pos ⟨hrange.1, hrange.2⟩]
  have hshift : ('A'.val - 'a'.val).toNat = 4294967264 := by decide
  rw [Char.toNat, hval, UInt32.toNat_add, hshift]
  simp only [Char.toNat] at hrange ⊢
  omega

theorem toLower_eq_iff (h : w.isLower) : c.toLower = w ↔ c = w ∨ c = w.toUpper := by
  obtain ⟨hge, hle⟩ := isLower_iff.mp h
  rw [← Char.toNat_inj, ← Char.toNat_inj, ← Char.toNat_inj, toNat_toLower, toNat_toUpper h]
  split <;> omega

theorem map_toLower_eq_iff (h : ∀ w ∈ word, w.isLower) : cs.map Char.toLower = word ↔ SpellsWord word cs := by
  induction word generalizing cs with
  | nil => rw [List.map_eq_nil_iff, SpellsWord, List.forall₂_nil_left_iff]
  | cons w word ih =>
    obtain ⟨hw, hword⟩ := List.forall_mem_cons.mp h
    cases cs with
    | nil => exact ⟨nofun, nofun⟩
    | cons c cs =>
      rw [List.map_cons, List.cons_eq_cons, ih hword, toLower_eq_iff hw, SpellsWord, SpellsWord, List.forall₂_cons]

theorem isLower_of_mem_text (b : Bool) : ∀ c ∈ (Value.bool b).text.toList, c.isLower := by
  have hword : (Value.bool b).text.toList.all Char.isLower := by cases b <;> rfl
  exact List.all_eq_true.mp hword

theorem Value.truth?_eq_some_iff : truth? cs = some b ↔ SpellsWord (bool b).text.toList cs := by
  refine Iff.trans ?_ (map_toLower_eq_iff (isLower_of_mem_text b))
  have htrue : (bool true).text.toList = ['t', 'r', 'u', 'e'] := rfl
  have hfalse : (bool false).text.toList = ['f', 'a', 'l', 's', 'e'] := rfl
  rw [truth?]
  split_ifs with ht hf <;> cases b <;> simp_all

end Words

namespace Value

/-- Whether a text, blanks around it aside, is written like a number that 32 bits hold. -/
def IsNumeral (s : String) (z : Int) : Prop :=
  (∃ cs, Strips s.toList cs ∧ Decimal.Writes cs z) ∧ -0x80000000 ≤ z ∧ z ≤ 0x7FFFFFFF

/-- Whether a text, blanks around it aside, is written like a truth value, in small letters or capitals. -/
def IsTruth (s : String) (b : Bool) : Prop :=
  ∃ cs, Strips s.toList cs ∧ SpellsWord (bool b).text.toList cs

variable {s : String} {v : Value} {f : Fault}

theorem exists_strips_iff {p : List Char → Prop} : (∃ cs, Strips s.toList cs ∧ p cs) ↔ p (trim s.toList) := by
  simp only [strips_iff, exists_eq_left]

theorem int32?_trim_eq_some_iff {n : Int32} : Decimal.int32? (trim s.toList) = some n ↔ IsNumeral s n.toInt := by
  have hlt := n.toInt_lt
  rw [Decimal.int32?_eq_some_iff, IsNumeral, exists_strips_iff]
  exact ⟨fun h ↦ ⟨h, n.le_toInt, by omega⟩, And.left⟩

theorem truth?_trim_eq_some_iff {b : Bool} : truth? (trim s.toList) = some b ↔ IsTruth s b := by
  rw [truth?_eq_some_iff, IsTruth, exists_strips_iff]

theorem IsNumeral.toInt_ofInt {z : Int} (h : IsNumeral s z) : (Int32.ofInt z).toInt = z :=
  Int32.toInt_ofInt_of_le h.2.1 (by have := h.2.2; omega)

theorem convert_int_eq (s : String) :
    (∃ n, convert .int (.string s) = .ok (.int n) ∧ IsNumeral s n.toInt) ∨
      convert .int (.string s) = .error (.invalidConversion s .int) ∧ ∀ z, ¬ IsNumeral s z := by
  cases hn : Decimal.int32? (trim s.toList) with
  | some n => exact .inl ⟨n, by rw [convert, hn], int32?_trim_eq_some_iff.mp hn⟩
  | none =>
    refine .inr ⟨by rw [convert, hn], fun z hz ↦ ?_⟩
    have hsome := int32?_trim_eq_some_iff.mpr (hz.toInt_ofInt.symm ▸ hz)
    rw [hn] at hsome
    nomatch hsome

theorem convert_bool_eq (s : String) :
    (∃ b, convert .bool (.string s) = .ok (.bool b) ∧ IsTruth s b) ∨
      convert .bool (.string s) = .error (.invalidConversion s .bool) ∧ ∀ b, ¬ IsTruth s b := by
  cases hb : truth? (trim s.toList) with
  | some b => exact .inl ⟨b, by rw [convert, hb], truth?_trim_eq_some_iff.mp hb⟩
  | none =>
    refine .inr ⟨by rw [convert, hb], fun b h ↦ ?_⟩
    rw [truth?_trim_eq_some_iff.mpr h] at hb
    nomatch hb

theorem IsNumeral.unique {z z' : Int} (h : IsNumeral s z) (h' : IsNumeral s z') : z = z' := by
  have hz := int32?_trim_eq_some_iff.mpr (h.toInt_ofInt.symm ▸ h)
  have hz' := int32?_trim_eq_some_iff.mpr (h'.toInt_ofInt.symm ▸ h')
  rw [← h.toInt_ofInt, ← h'.toInt_ofInt, Option.some.inj (hz.symm.trans hz')]

theorem IsTruth.unique {b b' : Bool} (h : IsTruth s b) (h' : IsTruth s b') : b = b' :=
  Option.some.inj ((truth?_trim_eq_some_iff.mpr h).symm.trans (truth?_trim_eq_some_iff.mpr h'))

theorem isNumeral_text (n : Int32) : IsNumeral (int n).text n.toInt :=
  have hwrites := Decimal.writes_toString n.toInt
  have hlt := n.toInt_lt
  ⟨⟨_, strips_self hwrites.not_blank, hwrites⟩, n.le_toInt, by omega⟩

theorem isTruth_text (b : Bool) : IsTruth (bool b).text b := by
  have hblank : (bool b).text.toList.all (!isBlank ·) := by cases b <;> rfl
  exact ⟨_, strips_self (by simpa using hblank), List.forall₂_same.mpr fun _ _ ↦ .inl rfl⟩

theorem convert_int_eq_ok_iff : convert .int (.string s) = .ok v ↔ ∃ n, v = .int n ∧ IsNumeral s n.toInt := by
  obtain ⟨n, hok, hn⟩ | ⟨herror, hnone⟩ := convert_int_eq s
  · rw [hok, Except.ok.injEq]
    refine ⟨fun h ↦ ⟨n, h.symm, hn⟩, ?_⟩
    rintro ⟨m, rfl, hm⟩
    rw [Int32.toInt_inj.mp (hn.unique hm)]
  · rw [herror]
    exact ⟨nofun, fun ⟨n, _, hn⟩ ↦ absurd hn (hnone _)⟩

theorem convert_bool_eq_ok_iff : convert .bool (.string s) = .ok v ↔ ∃ b, v = .bool b ∧ IsTruth s b := by
  obtain ⟨b, hok, hb⟩ | ⟨herror, hnone⟩ := convert_bool_eq s
  · rw [hok, Except.ok.injEq]
    refine ⟨fun h ↦ ⟨b, h.symm, hb⟩, ?_⟩
    rintro ⟨b', rfl, hb'⟩
    rw [hb.unique hb']
  · rw [herror]
    exact ⟨nofun, fun ⟨b, _, hb⟩ ↦ absurd hb (hnone _)⟩

theorem convert_int_eq_error_iff :
    convert .int (.string s) = .error f ↔ (∀ z, ¬ IsNumeral s z) ∧ f = .invalidConversion s .int := by
  obtain ⟨n, hok, hn⟩ | ⟨herror, hnone⟩ := convert_int_eq s
  · rw [hok]
    exact ⟨nofun, fun h ↦ absurd hn (h.1 _)⟩
  · rw [herror, Except.error.injEq]
    exact ⟨fun h ↦ ⟨hnone, h.symm⟩, fun h ↦ h.2.symm⟩

theorem convert_bool_eq_error_iff :
    convert .bool (.string s) = .error f ↔ (∀ b, ¬ IsTruth s b) ∧ f = .invalidConversion s .bool := by
  obtain ⟨b, hok, hb⟩ | ⟨herror, hnone⟩ := convert_bool_eq s
  · rw [hok]
    exact ⟨nofun, fun h ↦ absurd hb (h.1 _)⟩
  · rw [herror, Except.error.injEq]
    exact ⟨fun h ↦ ⟨hnone, h.symm⟩, fun h ↦ h.2.symm⟩

/-- What a number or a truth value converts to converts back to it. A text converts to a number exactly if, blanks
around it aside, it is one sign or none and then digits whose value 32 bits hold, and to a truth value exactly if it
is the word of one; any other text is in the fault as it stands. -/
theorem convert_exact :
    (∀ n, ∃ s, convert .string (.int n) = .ok (.string s) ∧ convert .int (.string s) = .ok (.int n)) ∧
    (∀ b, ∃ s, convert .string (.bool b) = .ok (.string s) ∧ convert .bool (.string s) = .ok (.bool b)) ∧
    ∀ s,
      (∀ v, convert .int (.string s) = .ok v ↔ ∃ n, v = .int n ∧ IsNumeral s n.toInt) ∧
      ((∃ v, convert .int (.string s) = .ok v) ↔ ∃ z, IsNumeral s z) ∧
      (∀ f, convert .int (.string s) = .error f ↔ (∀ z, ¬ IsNumeral s z) ∧ f = .invalidConversion s .int) ∧
      (∀ v, convert .bool (.string s) = .ok v ↔ ∃ b, v = .bool b ∧ IsTruth s b) ∧
      (∀ f, convert .bool (.string s) = .error f ↔ (∀ b, ¬ IsTruth s b) ∧ f = .invalidConversion s .bool) := by
  refine ⟨fun n ↦ ⟨_, rfl, convert_int_eq_ok_iff.mpr ⟨n, rfl, isNumeral_text n⟩⟩,
    fun b ↦ ⟨_, rfl, convert_bool_eq_ok_iff.mpr ⟨b, rfl, isTruth_text b⟩⟩, fun s ↦
      ⟨fun v ↦ convert_int_eq_ok_iff, ⟨?_, ?_⟩, fun f ↦ convert_int_eq_error_iff,
        fun v ↦ convert_bool_eq_ok_iff, fun f ↦ convert_bool_eq_error_iff⟩⟩
  · rintro ⟨v, hv⟩
    obtain ⟨n, _, hn⟩ := convert_int_eq_ok_iff.mp hv
    exact ⟨_, hn⟩
  · rintro ⟨z, hz⟩
    exact ⟨_, convert_int_eq_ok_iff.mpr ⟨_, rfl, hz.toInt_ofInt.symm ▸ hz⟩⟩

example : Value.convert .int (.string " -2147483648 ") = .ok (.int (-2147483648)) := by decide

end Value

end SmallScript
