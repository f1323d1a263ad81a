import SmallScript.Report.Basic
import SmallScript.Token.Scan

namespace SmallScript.Tree

/-- The token in front, those after it, and the reports so far, the latest first. -/
structure Cursor where
  current : Token
  rest : List Token
  reports : List Report

namespace Cursor

def left (c : Cursor) : Nat := c.rest.length

/-- The kind of the token after the one in front. The last token is followed by itself. -/
def nextKind (c : Cursor) : Token.Kind := (c.rest.head?.getD c.current).kind

def advance (c : Cursor) : Token × Cursor :=
  match c.rest with
  | [] => (c.current, c)
  | t :: rest => (c.current, ⟨t, rest, c.reports⟩)

/-- Takes a token of a kind. If another is in front, it stays there and is reported. -/
def take (kind : Token.Kind) (c : Cursor) : Token × Cursor :=
  if c.current.kind = kind then c.advance
  else
    (.missing kind c.current.start,
      { c with reports := ⟨c.current.span, .unexpectedToken c.current.kind kind⟩ :: c.reports })

theorem left_advance_le (c : Cursor) : c.advance.2.left ≤ c.left := by
  unfold advance
  split <;> simp_all [left]

theorem left_advance_lt {c : Cursor} (h : c.rest ≠ []) : c.advance.2.left < c.left := by
  unfold advance
  split
  · contradiction
  · next t rest hr => simp [left, hr]

theorem left_take_le (k : Token.Kind) (c : Cursor) : (c.take k).2.left ≤ c.left := by
  unfold take
  split
  · exact c.left_advance_le
  · exact Nat.le_refl _

end Cursor

abbrev Reader := StateM Cursor

namespace Reader

def kind : Reader Token.Kind := return (← get).current.kind

def advance : Reader Token := modifyGet Cursor.advance

def take (kind : Token.Kind) : Reader Token := modifyGet (Cursor.take kind)

/-- Skips a token unless one was taken since `before` were left. -/
def progress (before : Nat) : Reader Unit := do
  if (← get).left = before then
    let _ ← advance

end Reader

end SmallScript.Tree
