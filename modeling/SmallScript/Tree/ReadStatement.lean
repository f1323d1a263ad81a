import SmallScript.Tree.ReadExpression

namespace SmallScript.Tree.Reader

def typeClause : Reader TypeClause := do
  let colon ← take (.mark .colon)
  let identifier ← take .identifier
  return ⟨colon, identifier⟩

def typeClause? : Reader (Option TypeClause) := do
  if (← kind) = .mark .colon then return some (← typeClause) else return none

def declaration : Reader Statement := do
  let keyword ← advance
  let identifier ← take .identifier
  let clause ← typeClause?
  let equals ← take (.mark .equals)
  let initializer ← wholeExpression
  return .declare keyword identifier clause equals initializer

/-- A value belongs to a return only if it begins on the same line. -/
def leaving : Reader Statement := do
  let keyword ← advance
  let next := (← get).current
  if next.afterBreak || next.kind == .mark .closeBrace || next.kind == .endOfFile then
    return .leave keyword none
  else return .leave keyword (some (← wholeExpression))

mutual

/-- One statement. The first argument bounds the depth. -/
def statement : Nat → Reader Statement
  | 0 => return .expression (← wholeExpression)
  | n + 1 => do
    match ← kind with
    | .mark .openBrace =>
      let opening ← advance
      let inner ← statements n
      let closing ← take (.mark .closeBrace)
      return .block opening inner closing
    | .word .letName | .word .varName => declaration
    | .word .ifTest =>
      let keyword ← advance
      let condition ← wholeExpression
      let branch ← statement n
      if (← kind) = .word .elseBranch then
        let elseKeyword ← advance
        let otherwise ← statement n
        return .ifElse keyword condition branch elseKeyword otherwise
      else return .ifThen keyword condition branch
    | .word .whileLoop =>
      let keyword ← advance
      let condition ← wholeExpression
      let body ← statement n
      return .whileLoop keyword condition body
    | .word .doLoop =>
      let keyword ← advance
      let body ← statement n
      let whileKeyword ← take (.word .whileLoop)
      let condition ← wholeExpression
      return .doLoop keyword body whileKeyword condition
    | .word .forLoop =>
      let keyword ← advance
      let identifier ← take .identifier
      let equals ← take (.mark .equals)
      let lower ← wholeExpression
      let toKeyword ← take (.word .toBound)
      let upper ← wholeExpression
      let body ← statement n
      return .forLoop keyword identifier equals lower toKeyword upper body
    | .word .breakLoop => return .breakLoop (← advance)
    | .word .continueLoop => return .continueLoop (← advance)
    | .word .returnValue => leaving
    | _ => return .expression (← wholeExpression)

/-- Statements up to a closing brace or the end. A token that no statement takes is skipped. -/
def statements : Nat → Reader (List Statement)
  | 0 => return []
  | n + 1 => do
    match ← kind with
    | .mark .closeBrace | .endOfFile => return []
    | _ =>
      let before := (← get).left
      let first ← statement n
      progress before
      return first :: (← statements n)

end

/-- A statement. Each token bounds two steps of the depth. -/
def wholeStatement : Reader Statement := do statement (2 * (← get).left + 1)

def block : Reader Block := do
  let opening ← take (.mark .openBrace)
  let inner ← statements (2 * (← get).left + 2)
  let closing ← take (.mark .closeBrace)
  return ⟨opening, inner, closing⟩

end SmallScript.Tree.Reader
