import Mathlib.Data.List.Basic
import SmallScript.Text.Position

namespace SmallScript

/-- The byte of a line feed. -/
def lineFeed : UInt8 := 10

/-- The bytes of a text. -/
def textBytes (text : String) : List UInt8 := text.toUTF8.data.toList

/-- Whether the line of a position begins at a byte: that is the first one or comes after a line feed, and no other
line feed is before the position. -/
structure BeginsLine (bytes : List UInt8) (start p : Nat) : Prop where
  le : start ≤ p
  first : start = 0 ∨ ∃ i, start = i + 1 ∧ bytes[i]? = some lineFeed
  last : ∀ i, start ≤ i → i < p → bytes[i]? ≠ some lineFeed

/-- Whether a position is on an earlier line than another, or in an earlier column of the same line. -/
def Position.Before (a b : Position) : Prop := a.line < b.line ∨ a.line = b.line ∧ a.column < b.column

theorem lineFeed_mem_utf8EncodeChar {c : Char} : lineFeed ∈ String.utf8EncodeChar c ↔ c = '\n' := by
  have hsmall {n : Nat} (hn : n < 256) : lineFeed = UInt8.ofNat n ↔ n = 10 := by
    rw [← UInt8.toNat_inj, UInt8.toNat_ofNat_of_lt' hn]
    exact eq_comm
  have hchar : c = '\n' ↔ c.val.toNat = 10 := by
    rw [← Char.toNat_inj]
    rfl
  -- In a character of several bytes each of them has its highest bit set.
  unfold String.utf8EncodeChar
  dsimp only
  split
  · rw [List.mem_singleton, hsmall (by omega), hchar]
  · split
    · simp only [List.mem_cons, List.not_mem_nil, or_false]
      rw [hsmall (by omega), hsmall (by omega), hchar]
      omega
    · split
      · simp only [List.mem_cons, List.not_mem_nil, or_false]
        rw [hsmall (by omega), hsmall (by omega), hsmall (by omega), hchar]
        omega
      · simp only [List.mem_cons, List.not_mem_nil, or_false]
        rw [hsmall (by omega), hsmall (by omega), hsmall (by omega), hsmall (by omega), hchar]
        omega

theorem le_iff_lt_countP {l : List Nat} (h : l.Pairwise (· < ·)) {i n p : Nat} (hi : l[i]? = some n) :
    n ≤ p ↔ i < l.countP (· ≤ p) := by
  induction h generalizing i with
  | nil => cases hi
  | @cons m l hm h ih =>
    by_cases hp : m ≤ p
    · rw [List.countP_cons_of_pos (p := (decide <| · ≤ p)) (decide_eq_true hp)]
      cases i with
      | zero =>
        cases hi
        exact iff_of_true hp (Nat.succ_pos _)
      | succ i => exact (ih hi).trans Nat.succ_lt_succ_iff.symm
    · have hall : ∀ k ∈ m :: l, ¬ k ≤ p := List.forall_mem_cons.mpr ⟨hp, fun k hk ↦ by
        have hlt := hm k hk
        omega⟩
      have hnone : (m :: l).countP (· ≤ p) = 0 :=
        List.countP_eq_zero.mpr fun k hk ↦ by simpa using hall k hk
      rw [hnone]
      exact iff_of_false (hall n (List.mem_of_getElem? hi)) (Nat.not_lt_zero i)

def afterFeeds (offset : Nat) : List UInt8 → List Nat
  | [] => []
  | b :: bytes => if b = lineFeed then (offset + 1) :: afterFeeds (offset + 1) bytes else afterFeeds (offset + 1) bytes

section AfterFeeds

variable {o n p : Nat} {bs cs : List UInt8}

theorem afterFeeds_append (o : Nat) (bs cs : List UInt8) :
    afterFeeds o (bs ++ cs) = afterFeeds o bs ++ afterFeeds (o + bs.length) cs := by
  induction bs generalizing o with
  | nil => rfl
  | cons b bs ih =>
    have hlength : o + 1 + bs.length = o + (b :: bs).length := by
      rw [List.length_cons]
      omega
    rw [List.cons_append, afterFeeds, afterFeeds, ih, hlength]
    split <;> rfl

theorem mem_afterFeeds : n ∈ afterFeeds o bs ↔ ∃ i, n = o + i + 1 ∧ bs[i]? = some lineFeed := by
  induction bs generalizing o with
  | nil => simp [afterFeeds]
  | cons b bs ih =>
    have hsplit : (∃ i, n = o + i + 1 ∧ (b :: bs)[i]? = some lineFeed) ↔
        (n = o + 1 ∧ b = lineFeed) ∨ n ∈ afterFeeds (o + 1) bs := by
      rw [ih]
      constructor
      · rintro ⟨i, hn, hi⟩
        cases i with
        | zero => exact .inl ⟨hn, Option.some.inj hi⟩
        | succ i => exact .inr ⟨i, by omega, hi⟩
      · rintro (⟨hn, hb⟩ | ⟨i, hn, hi⟩)
        · exact ⟨0, hn, congrArg some hb⟩
        · exact ⟨i + 1, by omega, hi⟩
    rw [hsplit, afterFeeds]
    split
    · next hb => simp [hb]
    · next hb => simp [hb]

theorem lt_of_mem_afterFeeds (h : n ∈ afterFeeds o bs) : o < n := by
  obtain ⟨i, hn, -⟩ := mem_afterFeeds.mp h
  omega

theorem pairwise_afterFeeds (o : Nat) (bs : List UInt8) : (afterFeeds o bs).Pairwise (· < ·) := by
  induction bs generalizing o with
  | nil => exact .nil
  | cons b bs ih =>
    rw [afterFeeds]
    split
    · exact .cons (fun _ ↦ lt_of_mem_afterFeeds) (ih (o + 1))
    · exact ih (o + 1)

theorem countP_afterFeeds (o p : Nat) (bs : List UInt8) :
    (afterFeeds o bs).countP (· ≤ o + p) = (bs.take p).count lineFeed := by
  induction bs generalizing o p with
  | nil => simp [afterFeeds]
  | cons b bs ih =>
    cases p with
    | zero =>
      simp only [List.take_zero, List.count_nil, List.countP_eq_zero, decide_eq_true_eq]
      intro n hn
      have hlt := lt_of_mem_afterFeeds hn
      omega
    | succ p =>
      have hstep : o + (p + 1) = o + 1 + p := by omega
      rw [afterFeeds, List.take_succ_cons, List.count_cons, hstep]
      split
      · next hb => simp [hb, ih]
      · next hb => simp [hb, ih]

end AfterFeeds

theorem afterFeeds_utf8EncodeChar (o : Nat) (c : Char) :
    afterFeeds o (String.utf8EncodeChar c) = if c = '\n' then [o + c.utf8Size] else [] := by
  split
  · next h =>
    subst h
    rfl
  · next h =>
    refine List.eq_nil_iff_forall_not_mem.mpr fun n hn ↦ ?_
    obtain ⟨i, -, hi⟩ := mem_afterFeeds.mp hn
    exact h (lineFeed_mem_utf8EncodeChar.mp (List.mem_of_getElem? hi))

theorem textBytes_eq (text : String) : textBytes text = text.toList.flatMap String.utf8EncodeChar := by
  conv_lhs => rw [← String.ofList_toList (s := text)]
  rw [textBytes, String.toUTF8, String.toByteArray_ofList, List.utf8Encode, List.toList_data_toByteArray]

theorem length_textBytes (text : String) : (textBytes text).length = text.utf8ByteSize := rfl

namespace LineMap

theorem startsAfter_eq (o : Nat) (cs : List Char) :
    startsAfter o cs = afterFeeds o (cs.flatMap String.utf8EncodeChar) := by
  induction cs generalizing o with
  | nil => rfl
  | cons c cs ih =>
    rw [List.flatMap_cons, afterFeeds_append, afterFeeds_utf8EncodeChar, String.length_utf8EncodeChar, ← ih]
    simp only [startsAfter]
    split <;> rfl

section

variable (text : String)

theorem starts_ofText : (ofText text).starts.toList = 0 :: afterFeeds 0 (textBytes text) := by
  rw [ofText, startsAfter_eq, textBytes_eq]

theorem pairwise_starts : (ofText text).starts.toList.Pairwise (· < ·) := by
  rw [starts_ofText]
  exact .cons (fun _ ↦ lt_of_mem_afterFeeds) (pairwise_afterFeeds _ _)

theorem mem_starts {n : Nat} :
    n ∈ (ofText text).starts.toList ↔ n = 0 ∨ ∃ i, n = i + 1 ∧ (textBytes text)[i]? = some lineFeed := by
  rw [starts_ofText, List.mem_cons, mem_afterFeeds]
  simp only [Nat.zero_add]

theorem countP_starts (p : Nat) :
    (ofText text).starts.toList.countP (· ≤ p) = ((textBytes text).take p).count lineFeed + 1 := by
  have hcount := countP_afterFeeds 0 p (textBytes text)
  rw [Nat.zero_add] at hcount
  rw [starts_ofText, List.countP_cons, hcount, if_pos (by simp)]

theorem count_lt_lineCount (p : Nat) : ((textBytes text).take p).count lineFeed < (ofText text).lineCount := by
  rw [Nat.lt_iff_add_one_le, ← countP_starts]
  exact List.countP_le_length

end

variable {text : String} {i p q : Nat}

theorem getElem?_starts (hi : i < (ofText text).lineCount) :
    (ofText text).starts.toList[i]? = some ((ofText text).start i) := by
  rw [start, Array.getElem?_toList, Array.getElem?_eq_getElem hi]
  rfl

/-- A line begins at or before a position just if no more line feeds come before the line than before the position. -/
theorem start_le_iff (hi : i < (ofText text).lineCount) :
    (ofText text).start i ≤ p ↔ i ≤ ((textBytes text).take p).count lineFeed := by
  rw [le_iff_lt_countP (pairwise_starts text) (getElem?_starts hi), countP_starts, Nat.lt_succ_iff]

theorem line_position (text : String) (p : Nat) :
    ((ofText text).position p).line = ((textBytes text).take p).count lineFeed := by
  have hpoint : partitionPoint (fun i ↦ (ofText text).start i ≤ p) 0 (ofText text).lineCount =
      ((textBytes text).take p).count lineFeed + 1 := by
    refine partitionPoint_eq (Nat.zero_le _) (count_lt_lineCount text p) (fun i _ hi ↦ ?_) (fun i hle hi ↦ ?_)
    · have hi : i ≤ ((textBytes text).take p).count lineFeed := Nat.lt_succ_iff.mp hi
      exact decide_eq_true ((start_le_iff (Nat.lt_of_le_of_lt hi (count_lt_lineCount text p))).mpr hi)
    · exact decide_eq_false fun h ↦ absurd ((start_le_iff hi).mp h) (by omega)
  rw [position, hpoint]
  rfl

theorem line_lt_lineCount (text : String) (p : Nat) :
    ((ofText text).position p).line < (ofText text).lineCount := by
  rw [line_position]
  exact count_lt_lineCount text p

theorem start_line_add_column (text : String) (p : Nat) :
    (ofText text).start ((ofText text).position p).line + ((ofText text).position p).column = p :=
  Nat.add_sub_of_le ((start_le_iff (line_lt_lineCount text p)).mpr (Nat.le_of_eq (line_position text p)))

theorem beginsLine_start (text : String) (p : Nat) :
    BeginsLine (textBytes text) ((ofText text).start ((ofText text).position p).line) p where
  le := Nat.le.intro (start_line_add_column text p)
  first := (mem_starts text).mp (List.mem_of_getElem? (getElem?_starts (line_lt_lineCount text p)))
  last i hi hip hfeed := by
    -- A line feed from the start on would be counted before the position, though not before itself.
    have hbefore := (start_le_iff (line_lt_lineCount text p)).mp hi
    have hcount : ((textBytes text).take (i + 1)).count lineFeed = ((textBytes text).take i).count lineFeed + 1 := by
      rw [List.take_add_one, hfeed, List.count_append]
      rfl
    have hle : ((textBytes text).take (i + 1)).count lineFeed ≤ ((textBytes text).take p).count lineFeed :=
      (List.take_prefix_take_left hip).sublist.count_le lineFeed
    rw [line_position] at hbefore
    omega

theorem position_injective (text : String) : Function.Injective (ofText text).position := fun p q h ↦ by
  rw [← start_line_add_column text p, ← start_line_add_column text q, h]

theorem position_before (text : String) (hpq : p < q) :
    ((ofText text).position p).Before ((ofText text).position q) := by
  have hle : ((ofText text).position p).line ≤ ((ofText text).position q).line := by
    rw [line_position, line_position]
    exact (List.take_prefix_take_left (Nat.le_of_lt hpq)).sublist.count_le lineFeed
  have hp := start_line_add_column text p
  have hq := start_line_add_column text q
  obtain hlt | heq := Nat.lt_or_eq_of_le hle
  · exact .inl hlt
  · rw [heq] at hp
    exact .inr ⟨heq, by omega⟩

/-- Every text: the lines begin at positions of the text, so that these need no more digits than its length; the line
of a position counts the line feeds before it and before the end of the text, and its column is the distance from
the beginning of that line; and positions are told apart and ordered as their lines and columns are. -/
theorem positions_faithful (text : String) :
    (∀ n ∈ (ofText text).starts, n ≤ text.utf8ByteSize) ∧
    (∀ p, ((ofText text).position p).line =
        ((textBytes text).take (min p text.utf8ByteSize)).count lineFeed ∧
      ((ofText text).position p).column ≤ p ∧
      BeginsLine (textBytes text) (p - ((ofText text).position p).column) p ∧
      (ofText text).start ((ofText text).position p).line + ((ofText text).position p).column = p) ∧
    Function.Injective (ofText text).position ∧
    ∀ p q, p < q → ((ofText text).position p).Before ((ofText text).position q) := by
  refine ⟨fun n hn ↦ ?_, fun p ↦ ?_, position_injective text, fun p q ↦ position_before text⟩
  · obtain rfl | ⟨i, rfl, hi⟩ := (mem_starts text).mp (Array.mem_toList_iff.mpr hn)
    · exact Nat.zero_le _
    · exact (List.getElem?_eq_some_iff.mp hi).1
  · have hstart := start_line_add_column text p
    refine ⟨?_, by omega, ?_, hstart⟩
    · rw [line_position, ← length_textBytes, ← List.take_eq_take_min]
    · rw [← Nat.eq_sub_of_add_eq hstart]
      exact beginsLine_start text p

/-- Two ends of lines, of which the first has two characters, an empty line, a character of two bytes, and positions on
an end of a line and past the end of the text. -/
theorem positions_faithful_ends : let m := ofText "é\r\n\nb\n"
    m.position 3 = ⟨0, 3⟩ ∧ m.position 4 = ⟨1, 0⟩ ∧ m.position 5 = ⟨2, 0⟩ ∧ m.position 9 = ⟨3, 2⟩ ∧
      m.start 3 + 2 = 9 ∧ BeginsLine (textBytes "é\r\n\nb\n") 7 9 ∧
      (m.position 3).Before (m.position 4) ∧ m.position 5 ≠ m.position 9 := by
  obtain ⟨-, hposition, hinjective, hbefore⟩ := positions_faithful "é\r\n\nb\n"
  obtain ⟨-, -, hbegins, hstart⟩ := hposition 9
  have hend : (ofText "é\r\n\nb\n").position 9 = ⟨3, 2⟩ := by decide +kernel
  rw [hend] at hbegins hstart
  exact ⟨by decide +kernel, by decide +kernel, by decide +kernel, hend, hstart, hbegins, hbefore 3 4 (by decide),
    hinjective.ne (by decide)⟩

end LineMap

end SmallScript
