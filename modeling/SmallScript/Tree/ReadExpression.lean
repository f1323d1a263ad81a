import SmallScript.Token.Kind
import SmallScript.Tree.Basic
import SmallScript.Tree.Cursor

namespace SmallScript.Tree.Reader

def name : Reader Expression := return .name (← take .identifier)

mutual

/-- An assignment, or operands joined by operators. The first argument bounds the depth. -/
def expression : Nat → Reader Expression
  | 0 => name
  | n + 1 => do
    if (← kind) = .identifier ∧ (← get).nextKind = .mark .equals then
      let identifier ← advance
      let equals ← advance
      return .assign identifier equals (← expression n)
    else operators n 0

/-- An operand with all operators after it that bind tighter than `level`. -/
def operators : Nat → (level : Nat) → Reader Expression
  | 0, _ => name
  | n + 1, level => do
    match (← kind).unaryLevel? with
    | some own =>
      if level ≤ own then
        let sign ← advance
        let operand ← operators n own
        joined n level (.unary sign operand)
      else joined n level (← primary n)
    | none => joined n level (← primary n)

/-- Extends an operand by the operators after it that bind tighter than `level`. -/
def joined : Nat → (level : Nat) → Expression → Reader Expression
  | 0, _, left => return left
  | n + 1, level, left => do
    match (← kind).binaryLevel? with
    | some own =>
      if level < own then
        let sign ← advance
        let right ← operators n own
        joined n level (.binary left sign right)
      else return left
    | none => return left

def primary : Nat → Reader Expression
  | 0 => name
  | n + 1 => do
    match ← kind with
    | .mark .openParenthesis =>
      let opening ← advance
      let inner ← expression n
      let closing ← take (.mark .closeParenthesis)
      return .group opening inner closing
    | .word .trueValue => return .literal (← advance) (.bool true)
    | .word .falseValue => return .literal (← advance) (.bool false)
    | .number =>
      let token ← advance
      return .literal token (token.value.getD (.int 0))
    | .string =>
      let token ← advance
      return .literal token (token.value.getD (.string ""))
    | .identifier =>
      if (← get).nextKind = .mark .openParenthesis then
        let identifier ← advance
        let opening ← advance
        let args ← arguments n
        let closing ← take (.mark .closeParenthesis)
        return .call identifier opening args closing
      else name
    | _ => name

/-- Arguments up to the closing parenthesis, a comma after each but the last. A comma may also
stand before the parenthesis. -/
def arguments : Nat → Reader (List Expression)
  | 0 => return []
  | n + 1 => do
    match ← kind with
    | .mark .closeParenthesis | .endOfFile => return []
    | _ =>
      let argument ← expression n
      if (← kind) = .mark .comma then
        let _ ← advance
        return argument :: (← arguments n)
      else return [argument]

end

/-- An expression. Each token bounds three steps of the depth. -/
def wholeExpression : Reader Expression := do expression (3 * (← get).left + 3)

end SmallScript.Tree.Reader
