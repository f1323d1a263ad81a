import Mathlib.Data.List.Chain
import SmallScript.Proofs.Token.Pieces

namespace SmallScript

open Token (Kind)

/-- The second character of a longer sign that a sign is the beginning of. -/
def Punctuation.longer? : Punctuation → Option Char
  | bang | equals | less | greater => some '='
  | ampersand => some '&'
  | pipe => some '|'
  | _ => none

theorem Punctuation.isBlank_of_longer? {p : Punctuation} {c : Char} (h : p.longer? = some c) : isBlank c = false := by
  unfold longer? at h
  split at h <;> cases h <;> rfl

theorem Punctuation.endsBefore {p : Punctuation} {rest : List Char}
    (h : ∀ c, p.longer? = some c → rest.head? ≠ some c) : (Code.Piece.sign p).EndsBefore rest := by
  cases p
  case bang => exact ⟨'!', [], rfl, congrArg some (if_neg (h '=' rfl))⟩
  case equals => exact ⟨'=', [], rfl, congrArg some (if_neg (h '=' rfl))⟩
  case less => exact ⟨'<', [], rfl, congrArg some (if_neg (h '=' rfl))⟩
  case greater => exact ⟨'>', [], rfl, congrArg some (if_neg (h '=' rfl))⟩
  case ampersand => exact ⟨'&', [], rfl, congrArg some (if_neg (h '&' rfl))⟩
  case pipe => exact ⟨'|', [], rfl, congrArg some (if_neg (h '|' rfl))⟩
  all_goals exact ⟨_, _, rfl, rfl⟩

/-- A numeral in decimal digits, leading zeros included, that 32 bits hold. -/
structure Numeral where
  digits : String
  nonempty : digits.toList ≠ []
  decimal : ∀ c ∈ digits.toList, c.isDigit
  small : Nat.ofDigitChars 10 digits.toList 0 < 0x80000000

def Numeral.value (n : Numeral) : Int32 := .ofInt (Nat.ofDigitChars 10 n.digits.toList 0)

theorem Decimal.integer?_of_digits {cs : List Char} (h : cs ≠ []) (hdigits : ∀ c ∈ cs, c.isDigit) :
    integer? cs = some (Nat.ofDigitChars 10 cs 0 : Int) := by
  unfold integer?
  split
  · exact absurd (hdigits _ List.mem_cons_self) (by decide)
  · exact absurd (hdigits _ List.mem_cons_self) (by decide)
  · rw [natural?, if_pos ⟨h, List.all_eq_true.mpr hdigits⟩]
    rfl

theorem Numeral.int32?_digits (n : Numeral) : Decimal.int32? n.digits.toList = some n.value := by
  have hsmall := n.small
  rw [Decimal.int32?, Decimal.integer?_of_digits n.nonempty n.decimal, Option.bind_some, if_pos (by omega)]
  rfl

/-- A token as it can be written: a sign, a keyword, an identifier, a numeral, or a text of one line in quotes. -/
inductive Wording
  | sign (p : Punctuation)
  | keyword (k : Keyword)
  | name (word : String) (h : IsName word)
  | numeral (n : Numeral)
  | quoted (contents : String) (h : ∀ c ∈ contents.toList, isLineBreak c = false)

namespace Wording

def kind : Wording → Kind
  | sign p => .mark p
  | keyword k => .word k
  | name _ _ => .identifier
  | numeral _ => .number
  | quoted _ _ => .string

def text : Wording → String
  | sign p => p.text
  | keyword k => k.text
  | name word _ => word
  | numeral n => n.digits
  | quoted contents _ => Quoted.encode contents

def value : Wording → Option Value
  | numeral n => some (.int n.value)
  | quoted contents _ => some (.string contents)
  | sign _ | keyword _ | name _ _ => none

theorem kind_ne_endOfFile (w : Wording) : w.kind ≠ .endOfFile := by cases w <;> exact Kind.noConfusion

def isWordlike : Wording → Bool
  | keyword _ | name _ _ | numeral _ => true
  | sign _ | quoted _ _ => false

def longer? : Wording → Option Char
  | sign p => p.longer?
  | _ => none

/-- Whether two wordings run into each other if nothing stands between them: two words or numerals, or a sign and
what a longer sign goes on with. -/
def Merges (w w' : Wording) : Prop :=
  (w.isWordlike ∧ w'.isWordlike) ∨ ∃ c ∈ w.longer?, w'.text.toList.head? = some c

instance (w w' : Wording) : Decidable (w.Merges w') :=
  @instDecidableOr _ _ inferInstance (Option.decidableExistsMem w.longer?)

def EndsBefore (rest : List Char) : Wording → Prop
  | sign p => ∀ c, p.longer? = some c → rest.head? ≠ some c
  | keyword _ | name _ _ | numeral _ => ∀ c, rest.head? = some c → isIdentifierPart c = false
  | quoted _ _ => True

theorem isWord_keyword (k : Keyword) : IsWord k.text := by cases k <;> exact .of_all rfl (by decide) rfl

theorem read_wording {w : Wording} {rest : List Char} (h : w.EndsBefore rest) :
    ∃ c cs, w.text.toList ++ rest = c :: cs ∧ isBlank c = false ∧
      Lexeme.read c cs = ⟨w.kind, w.text.toList, w.value, none, rest⟩ := by
  cases w with
  | sign p => exact (Code.Piece.sign p).read_piece trivial (Punctuation.endsBefore h) Code.Piece.noConfusion
  | keyword k =>
    obtain ⟨c, cs, hs, hc, hread⟩ := Code.Piece.read_isWord (isWord_keyword k) h
    refine ⟨c, cs, hs, hc, hread.trans ?_⟩
    rw [Code.Piece.kind, Kind.ofWord, k.find?_text]
    rfl
  | name word hword =>
    obtain ⟨c, cs, hs, hc, hread⟩ := Code.Piece.read_isWord hword.toIsWord h
    refine ⟨c, cs, hs, hc, hread.trans ?_⟩
    rw [Code.Piece.kind_name hword]
    rfl
  | numeral n =>
    have hdigits := n.decimal
    have hvalue := n.int32?_digits
    cases hs : n.digits.toList with
    | nil => exact absurd hs n.nonempty
    | cons c cs =>
      rw [hs] at hdigits hvalue
      have hc := isIdentifierPart_of_isDigit (hdigits c List.mem_cons_self)
      refine ⟨c, cs ++ rest, by rw [text, hs]; rfl, isBlank_of_isIdentifierPart hc, ?_⟩
      rw [Lexeme.read_digits hdigits hvalue h, text, hs]
      rfl
  | quoted contents hcontents =>
    exact (Code.Piece.literal (.string contents)).read_piece hcontents trivial Code.Piece.noConfusion

theorem exists_head (w : Wording) : ∃ c cs, w.text.toList = c :: cs ∧ (isIdentifierPart c → w.isWordlike) := by
  cases w with
  | sign p => cases p <;> exact ⟨_, _, rfl, fun h ↦ absurd h (by decide)⟩
  | keyword k =>
    obtain ⟨c, cs, hs, -⟩ := (isWord_keyword k).start
    exact ⟨c, cs, hs, fun _ ↦ rfl⟩
  | name word hword =>
    obtain ⟨c, cs, hs, -⟩ := hword.start
    exact ⟨c, cs, hs, fun _ ↦ rfl⟩
  | numeral n =>
    obtain ⟨c, cs, hs⟩ := List.exists_cons_of_ne_nil n.nonempty
    exact ⟨c, cs, hs, fun _ ↦ rfl⟩
  | quoted contents _ => exact ⟨'"', _, String.toList_ofList, fun h ↦ absurd h (by decide)⟩

theorem endsBefore_of_blank (w : Wording) {rest : List Char} (h : ∀ c, rest.head? = some c → isBlank c) :
    w.EndsBefore rest := by
  have hword : ∀ c, rest.head? = some c → isIdentifierPart c = false := by
    refine fun c hc ↦ Bool.eq_false_iff.mpr fun hpart ↦ ?_
    have hblank := isBlank_of_isIdentifierPart hpart
    rw [h c hc] at hblank
    nomatch hblank
  cases w with
  | sign p =>
    intro c hp hc
    have hblank := h c hc
    rw [Punctuation.isBlank_of_longer? hp] at hblank
    nomatch hblank
  | keyword | name | numeral => exact hword
  | quoted => trivial

theorem endsBefore_of_not_merges {w w' : Wording} (h : ¬ w.Merges w') (rest : List Char) :
    w.EndsBefore (w'.text.toList ++ rest) := by
  obtain ⟨c, cs, hs, hc⟩ := w'.exists_head
  rw [hs, List.cons_append]
  rw [Merges, not_or] at h
  have hword (hw : w.isWordlike) (d : Char) (hd : (c :: (cs ++ rest)).head? = some d) :
      isIdentifierPart d = false := by
    obtain rfl := Option.some.inj hd
    exact Bool.eq_false_iff.mpr fun hpart ↦ h.1 ⟨hw, hc hpart⟩
  cases w with
  | sign p => exact fun d hp hd ↦ h.2 ⟨d, hp, by rw [hs]; exact hd⟩
  | keyword | name | numeral => exact hword rfl
  | quoted => trivial

end Wording

/-- A stretch of blanks, which may be empty. -/
structure Gap where
  chars : List Char
  blank : ∀ c ∈ chars, isBlank c

/-- A wording and the blanks before it. -/
structure Spaced where
  gap : Gap
  wording : Wording

namespace Spaced

/-- Some wordings with the blanks before them, and the blanks behind the last. -/
def chars (l : List Spaced) (last : Gap) : List Char :=
  l.flatMap (fun s ↦ s.gap.chars ++ s.wording.text.toList) ++ last.chars

/-- Whether blanks stand between neighbours that would run into each other. -/
def Apart (l : List Spaced) : Prop :=
  l.IsChain fun s s' ↦ s.wording.Merges s'.wording → s'.gap.chars ≠ []

instance : DecidablePred Apart := fun l ↦ inferInstanceAs (Decidable (l.IsChain _))

theorem endsBefore_chars {s : Spaced} {l : List Spaced} (h : Apart (s :: l)) (last : Gap) :
    s.wording.EndsBefore (chars l last) := by
  cases l with
  | nil => exact s.wording.endsBefore_of_blank fun c hc ↦ last.blank c (List.mem_of_mem_head? hc)
  | cons s' l =>
    have hchars : chars (s' :: l) last = s'.gap.chars ++ (s'.wording.text.toList ++ chars l last) := by
      simp [chars]
    rw [hchars]
    cases hgap : s'.gap.chars with
    | nil => exact Wording.endsBefore_of_not_merges (fun hm ↦ (List.isChain_cons_cons.mp h).1 hm hgap) _
    | cons b blanks =>
      refine s.wording.endsBefore_of_blank fun c hc ↦ s'.gap.blank c ?_
      obtain rfl := Option.some.inj hc
      exact hgap ▸ List.mem_cons_self

end Spaced

/-- What a token says, wherever it stands. -/
def Token.content (t : Token) : Kind × String × Option Value := (t.kind, t.text, t.value)

def Wording.content (w : Wording) : Kind × String × Option Value := (w.kind, w.text, w.value)

namespace ScanPoint

variable {o : Nat} {blanks : List Char}

theorem next_of_blanks {c : Char} {cs : List Char} {l : Lexeme} (hblanks : ∀ b ∈ blanks, isBlank b)
    (hc : isBlank c = false) (hl : Lexeme.read c cs = l) (hfault : l.fault = none) :
    ∃ o' t, next ⟨o, blanks ++ c :: cs⟩ = (⟨t, none⟩, ⟨o', l.rest⟩) ∧
      t.content = (l.kind, String.ofList l.chars, l.value) := by
  have hstop : ∀ d, (c :: cs).head? = some d → isBlank d = false := by
    intro d hd
    obtain rfl := Option.some.inj hd
    exact hc
  simp only [next, skipBlanks, (takeWhile_of_stops hblanks hstop).2, hl, hfault]
  exact ⟨_, _, rfl, rfl⟩

theorem next_of_only_blanks (h : ∀ b ∈ blanks, isBlank b) :
    ∃ p t, next ⟨o, blanks⟩ = (⟨t, none⟩, p) ∧ t.content = (.endOfFile, "", none) := by
  have hdrop : (blanks ++ []).dropWhile isBlank = [] := (takeWhile_of_stops h (by simp)).2
  rw [List.append_nil] at hdrop
  simp only [next, skipBlanks, hdrop]
  exact ⟨_, _, rfl, rfl⟩

theorem scan_of_blanks {c : Char} {cs : List Char} {l : Lexeme} (hblanks : ∀ b ∈ blanks, isBlank b)
    (hc : isBlank c = false) (hl : Lexeme.read c cs = l) (hfault : l.fault = none) (hend : l.kind ≠ .endOfFile)
    (n : Nat) : ∃ o' t, scan (n + 1) ⟨o, blanks ++ c :: cs⟩ = ⟨t, none⟩ :: scan n ⟨o', l.rest⟩ ∧
      t.content = (l.kind, String.ofList l.chars, l.value) := by
  obtain ⟨o', t, hnext, ht⟩ := next_of_blanks (o := o) hblanks hc hl hfault
  have hkind : t.kind = l.kind := congrArg Prod.fst ht
  refine ⟨o', t, ?_, ht⟩
  rw [scan, hnext]
  split
  · next heof => exact absurd (hkind.symm.trans heof) hend
  · rfl

theorem scan_of_only_blanks (h : ∀ b ∈ blanks, isBlank b) (n : Nat) :
    ∃ t, scan n ⟨o, blanks⟩ = [⟨t, none⟩] ∧ t.content = (.endOfFile, "", none) := by
  obtain ⟨p, t, hnext, ht⟩ := next_of_only_blanks (o := o) h
  refine ⟨t, ?_, ht⟩
  cases n with
  | zero => rw [scan, hnext]
  | succ n =>
    have hkind : t.kind = .endOfFile := congrArg Prod.fst ht
    simp only [scan, hnext, hkind]

theorem scan_chars {l : List Spaced} (h : Spaced.Apart l) (last : Gap) {n : Nat} (hn : l.length ≤ n) (o : Nat) :
    (scan n ⟨o, Spaced.chars l last⟩).map (·.token.content) =
        l.map (·.wording.content) ++ [(.endOfFile, "", none)] ∧
      ∀ s ∈ scan n ⟨o, Spaced.chars l last⟩, s.report = none := by
  induction l generalizing n o with
  | nil =>
    obtain ⟨t, hscan, ht⟩ := scan_of_only_blanks (o := o) last.blank n
    change (scan n ⟨o, last.chars⟩).map _ = _ ∧ ∀ s ∈ scan n ⟨o, last.chars⟩, _
    rw [hscan]
    exact ⟨congrArg (· :: []) ht, List.forall_mem_singleton.mpr rfl⟩
  | cons s l ih =>
    obtain ⟨n, rfl⟩ := Nat.exists_eq_succ_of_ne_zero (Nat.ne_zero_of_lt hn)
    obtain ⟨c, cs, hchars, hc, hread⟩ := Wording.read_wording (Spaced.endsBefore_chars h last)
    obtain ⟨o', t, hscan, ht⟩ := scan_of_blanks (o := o) s.gap.blank hc hread rfl s.wording.kind_ne_endOfFile n
    obtain ⟨htokens, hreports⟩ := ih h.tail (Nat.le_of_succ_le_succ hn) o'
    have hcons : Spaced.chars (s :: l) last = s.gap.chars ++ c :: cs := by
      rw [← hchars]
      simp [Spaced.chars]
    rw [hcons, hscan]
    refine ⟨?_, List.forall_mem_cons.mpr ⟨rfl, hreports⟩⟩
    rw [List.map_cons, htokens, List.map_cons, ht, String.ofList_toList]
    rfl

end ScanPoint

namespace Spaced

theorem length_le_chars (l : List Spaced) (last : Gap) : l.length ≤ (chars l last).length := by
  induction l with
  | nil => exact Nat.zero_le _
  | cons s l ih =>
    obtain ⟨c, cs, hs, -⟩ := s.wording.exists_head
    have hchars : chars (s :: l) last = s.gap.chars ++ (s.wording.text.toList ++ chars l last) := by simp [chars]
    rw [hchars, hs]
    simp only [List.length_append, List.length_cons]
    omega

/-- Tokens that are written with blanks between those that would run into each other, and any blanks elsewhere,
are scanned as they are, and nothing is wrong with them. -/
theorem scan_written (l : List Spaced) (h : Apart l) (last : Gap) :
    (scan (String.ofList (chars l last))).map (·.token.content) =
        l.map (·.wording.content) ++ [(.endOfFile, "", none)] ∧
      ∀ s ∈ scan (String.ofList (chars l last)), s.report = none := by
  rw [scan, String.toList_ofList]
  exact ScanPoint.scan_chars h last (length_le_chars l last) 0

/-- No blanks where none are needed. -/
def tight : List Spaced :=
  let x : Wording := .name "x" ⟨.of_all rfl (by decide) rfl, by decide⟩
  let seven : Wording := .numeral ⟨"007", by decide, List.all_eq_true.mp rfl, by decide⟩
  let none : Gap := ⟨[], nofun⟩
  let space : Gap := ⟨[' '], List.all_eq_true.mp rfl⟩
  let lines : Gap := ⟨['\n', '\t'], List.all_eq_true.mp rfl⟩
  [⟨none, .keyword .ifTest⟩, ⟨space, x⟩, ⟨none, .sign .less⟩, ⟨lines, .sign .equalsEquals⟩, ⟨none, .sign .bang⟩,
    ⟨none, seven⟩, ⟨none, .quoted "a\"b\\" (by simp [isLineBreak])⟩, ⟨none, .sign .ampersandAmpersand⟩,
    ⟨none, .sign .ampersand⟩, ⟨none, .keyword .elseBranch⟩]

theorem scan_written_tight : Apart tight ∧
    String.ofList (chars tight ⟨[], nofun⟩) = "if x<\n\t==!007\"a\\\"b\\\\\"&&&else" ∧
    (scan "if x<\n\t==!007\"a\\\"b\\\\\"&&&else").map (·.token.content) =
      tight.map (·.wording.content) ++ [(.endOfFile, "", none)] := by
  have hapart : Apart tight := by decide
  have htext : String.ofList (chars tight ⟨[], nofun⟩) = "if x<\n\t==!007\"a\\\"b\\\\\"&&&else" := by decide
  exact ⟨hapart, htext, htext ▸ (scan_written tight hapart ⟨[], nofun⟩).1⟩

end Spaced

end SmallScript
