import SmallScript.Report.Basic
import SmallScript.Text.Identifier
import SmallScript.Text.Lines
import SmallScript.Text.Literal
import SmallScript.Text.Position
import SmallScript.Token.Kind
import SmallScript.Value

namespace SmallScript

/-- `value` is what a literal stands for; `afterBreak` tells that a line break comes between the
token and the one before it. -/
structure Token where
  kind : Token.Kind
  start : Nat
  text : String
  value : Option Value
  afterBreak : Bool
  deriving DecidableEq

namespace Token

def span (t : Token) : Span := ⟨t.start, t.text.utf8ByteSize⟩

def missing (kind : Kind) (start : Nat) : Token := ⟨kind, start, "", none, false⟩

/-- The end of a text has no characters either, and is not missing. -/
def isMissing (t : Token) : Bool := t.text.isEmpty && t.kind != .endOfFile

theorem isMissing_missing {k : Kind} (h : k ≠ .endOfFile) (n : Nat) : (missing k n).isMissing := by
  simp [isMissing, missing, h]

end Token

/-- The punctuation that begins with `c`, where `next` follows. A sign of two characters is
preferred to one of one character. -/
def Punctuation.ofChars? (c : Char) (next : Option Char) : Option Punctuation :=
  match c with
  | '+' => some plus
  | '-' => some minus
  | '*' => some star
  | '/' => some slash
  | '(' => some openParenthesis
  | ')' => some closeParenthesis
  | '{' => some openBrace
  | '}' => some closeBrace
  | ':' => some colon
  | ',' => some comma
  | '~' => some tilde
  | '^' => some hat
  | '&' => some (if next = some '&' then ampersandAmpersand else ampersand)
  | '|' => some (if next = some '|' then pipePipe else pipe)
  | '=' => some (if next = some '=' then equalsEquals else equals)
  | '!' => some (if next = some '=' then bangEquals else bang)
  | '<' => some (if next = some '=' then lessOrEquals else less)
  | '>' => some (if next = some '=' then greaterOrEquals else greater)
  | _ => none

/-- What follows an opening quote: the characters `raw` up to and with the closing quote, the text
`value` that they write, and the rest. A line break or the end leaves a literal unclosed. -/
structure Quoted where
  raw : List Char
  value : List Char
  closed : Bool
  rest : List Char

namespace Quoted

/-- A quote or a backslash after a backslash stands for itself; any other backslash is a character
like others. -/
def read : List Char → Quoted
  | [] => ⟨[], [], false, []⟩
  | '"' :: rest => ⟨['"'], [], true, rest⟩
  | '\\' :: '"' :: rest =>
    let q := read rest
    { q with raw := '\\' :: '"' :: q.raw, value := '"' :: q.value }
  | '\\' :: '\\' :: rest =>
    let q := read rest
    { q with raw := '\\' :: '\\' :: q.raw, value := '\\' :: q.value }
  | c :: rest =>
    if isLineBreak c then ⟨[], [], false, c :: rest⟩
    else
      let q := read rest
      { q with raw := c :: q.raw, value := c :: q.value }

theorem read_append (cs : List Char) : (read cs).raw ++ (read cs).rest = cs := by
  fun_induction read cs with
  | case1 => rfl
  | case2 => rfl
  | case3 rest q ih => simpa using ih
  | case4 rest q ih => simpa using ih
  | case5 => rfl
  | case6 c rest _ _ _ _ q ih => simpa using ih

end Quoted

/-- One lexeme, what is wrong with it, and the rest of the text. -/
structure Lexeme where
  kind : Token.Kind
  chars : List Char
  value : Option Value
  fault : Option Cause
  rest : List Char

namespace Lexeme

def ofPunctuation (p : Punctuation) (cs : List Char) : Lexeme :=
  let n := p.text.length
  ⟨.mark p, cs.take n, none, none, cs.drop n⟩

def ofQuoted (rest : List Char) : Lexeme :=
  let q := Quoted.read rest
  ⟨.string, '"' :: q.raw, some (.string (String.ofList q.value)),
    if q.closed then none else some .unterminatedString, q.rest⟩

/-- A numeral that does not fit counts as zero. -/
def ofDigits (cs : List Char) : Lexeme :=
  let digits := cs.takeWhile Char.isDigit
  let number := Decimal.int32? digits
  ⟨.number, digits, some (.int (number.getD 0)),
    if number.isSome then none else some (.numeralTooLarge (String.ofList digits)),
    cs.dropWhile Char.isDigit⟩

def ofWord (cs : List Char) : Lexeme :=
  let word := cs.takeWhile isIdentifierPart
  let kind := match Keyword.find? (String.ofList word) with
    | some k => .word k
    | none => .identifier
  ⟨kind, word, none, none, cs.dropWhile isIdentifierPart⟩

def read (c : Char) (rest : List Char) : Lexeme :=
  match Punctuation.ofChars? c rest.head? with
  | some p => ofPunctuation p (c :: rest)
  | none =>
    if c = '"' then ofQuoted rest
    else if c.isDigit then ofDigits (c :: rest)
    else if isIdentifierStart c then ofWord (c :: rest)
    else ⟨.bad, [c], none, some (.badCharacter c), rest⟩

theorem read_append (c : Char) (rest : List Char) :
    (read c rest).chars ++ (read c rest).rest = c :: rest := by
  simp only [read]
  split
  · exact List.take_append_drop ..
  · split
    · next h => subst h; simp [ofQuoted, Quoted.read_append]
    · split
      · exact List.takeWhile_append_dropWhile
      · split
        · exact List.takeWhile_append_dropWhile
        · rfl

theorem read_ne_nil (c : Char) (rest : List Char) : (read c rest).chars ≠ [] := by
  simp only [read]
  split
  · next p _ =>
    have : p.text.length ≠ 0 := by cases p <;> decide
    simpa [ofPunctuation]
  · split
    · simp [ofQuoted]
    · split
      · next h => simp [ofDigits, h]
      · split
        · next h => simp [ofWord, isIdentifierPart_of_start h]
        · simp

theorem length_rest_lt (c : Char) (rest : List Char) :
    (read c rest).rest.length < (c :: rest).length := by
  have h := congrArg List.length (read_append c rest)
  have := List.length_pos_iff.mpr (read_ne_nil c rest)
  rw [List.length_append] at h
  omega

end Lexeme

/-- What is still unread of a text, and how many bytes come before it. -/
structure ScanPoint where
  offset : Nat
  unread : List Char

structure Scanned where
  token : Token
  report : Option Report

namespace ScanPoint

def skipBlanks (p : ScanPoint) : ScanPoint :=
  ⟨p.offset + byteLength (p.unread.takeWhile isBlank), p.unread.dropWhile isBlank⟩

/-- Whether a line ends among the blanks that come next. -/
def breaksLine (p : ScanPoint) : Bool := (p.unread.takeWhile isBlank).any isLineBreak

/-- An unclosed string is reported at its quote, any other fault at the whole token. -/
def report (t : Token) : Cause → Report
  | .unterminatedString => ⟨⟨t.start, 1⟩, .unterminatedString⟩
  | cause => ⟨t.span, cause⟩

def next (p : ScanPoint) : Scanned × ScanPoint :=
  let q := p.skipBlanks
  match q.unread with
  | [] => (⟨⟨.endOfFile, q.offset, "", none, p.breaksLine⟩, none⟩, q)
  | c :: rest =>
    let l := Lexeme.read c rest
    let t : Token := ⟨l.kind, q.offset, String.ofList l.chars, l.value, p.breaksLine⟩
    (⟨t, l.fault.map (report t)⟩, ⟨q.offset + byteLength l.chars, l.rest⟩)

/-- The tokens that come next, at most `n` before the last. -/
def scan : (n : Nat) → ScanPoint → List Scanned
  | 0, p => [p.next.1]
  | n + 1, p =>
    let s := p.next
    match s.1.token.kind with
    | .endOfFile => [s.1]
    | _ => s.1 :: scan n s.2

theorem length_unread_skipBlanks (p : ScanPoint) :
    p.skipBlanks.unread.length ≤ p.unread.length :=
  (List.dropWhile_suffix _).length_le

end ScanPoint

/-- The tokens of a text. Each takes a character, so its length bounds their number. -/
def scan (text : String) : List Scanned :=
  ScanPoint.scan text.toList.length ⟨0, text.toList⟩

end SmallScript
