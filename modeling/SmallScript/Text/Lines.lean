namespace SmallScript

/-- Whether a character has the property `White_Space`. -/
def isBlank (c : Char) : Bool :=
  let n := c.toNat
  (9 ≤ n && n ≤ 13) || n == 0x20 || n == 0x85 || n == 0xA0 || n == 0x1680
    || (0x2000 ≤ n && n ≤ 0x200A) || n == 0x2028 || n == 0x2029 || n == 0x202F || n == 0x205F
    || n == 0x3000

def isLineBreak (c : Char) : Bool := c == '\n' || c == '\r'

theorem isBlank_of_isLineBreak {c : Char} (h : isLineBreak c) : isBlank c := by
  simp only [isLineBreak, Bool.or_eq_true, beq_iff_eq] at h
  rcases h with rfl | rfl <;> decide

def trimEnd (cs : List Char) : List Char := (cs.reverse.dropWhile isBlank).reverse

def trim (cs : List Char) : List Char := trimEnd (cs.dropWhile isBlank)

theorem trimEnd_append_blank {cs : List Char} {c : Char} (h : isBlank c) :
    trimEnd (cs ++ [c]) = trimEnd cs := by
  simp [trimEnd, h]

theorem trimEnd_append_of_not_blank {cs : List Char} {c : Char} (h : isBlank c = false) :
    trimEnd (cs ++ [c]) = cs ++ [c] := by
  simp [trimEnd, h]

/-- The lines of a stream, each with what ends it. -/
def rawLines : List Char → List (List Char)
  | [] => []
  | c :: rest =>
    if c = '\n' then [c] :: rawLines rest
    else match rawLines rest with
      | [] => [[c]]
      | line :: later => (c :: line) :: later

/-- A line without its line feed, and without a carriage return before that. -/
def withoutEnd (line : List Char) : List Char :=
  match line.reverse with
  | '\n' :: '\r' :: body | '\n' :: body => body.reverse
  | _ => line

def withoutBreaks (line : List Char) : List Char := (line.reverse.dropWhile isLineBreak).reverse

theorem rawLines_flatten (cs : List Char) : (rawLines cs).flatten = cs := by
  induction cs with
  | nil => rfl
  | cons c rest ih =>
    rw [rawLines]
    split
    · simp [ih]
    · cases h : rawLines rest <;> simp_all

theorem withoutEnd_append_newline {line : List Char} (h : line.getLast? ≠ some '\r') :
    withoutEnd (line ++ ['\n']) = line := by
  cases hr : line.reverse with
  | nil => simp_all [withoutEnd]
  | cons c body =>
    have hl : line = body.reverse ++ [c] := by rw [← List.reverse_reverse line, hr]; simp
    subst hl
    simp_all [withoutEnd]

end SmallScript
