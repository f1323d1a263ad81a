import SmallScript.Tree.Basic
import SmallScript.Tree.ReadSource

namespace SmallScript.Tree

/-- One node or token. The note is a token's text or a literal's value; a token that was made up
has none. -/
structure Row where
  depth : Nat
  name : String
  span : Span
  note : Option Value

namespace Row

def ofToken (depth : Nat) (t : Token) : Row :=
  ⟨depth, t.kind.name, t.span, if t.isMissing then none else some (.string t.text)⟩

/-- A node without a note, and the rows of its parts. -/
def node (depth : Nat) (name : String) (span : Span) (parts : List Row) : List Row :=
  ⟨depth, name, span, none⟩ :: parts

end Row

open Row

mutual

def Expression.rows (depth : Nat) (e : Expression) : List Row :=
  match e with
  | .literal t value => [⟨depth, "LiteralExpression", e.span, some value⟩, ofToken (depth + 1) t]
  | .name t => node depth "NameExpression" e.span [ofToken (depth + 1) t]
  | .unary sign operand =>
    node depth "UnaryExpression" e.span (ofToken (depth + 1) sign :: operand.rows (depth + 1))
  | .binary left sign right =>
    node depth "BinaryExpression" e.span
      (left.rows (depth + 1) ++ ofToken (depth + 1) sign :: right.rows (depth + 1))
  | .group opening inner closing =>
    node depth "ParenthesizedExpression" e.span
      (ofToken (depth + 1) opening :: inner.rows (depth + 1) ++ [ofToken (depth + 1) closing])
  | .assign identifier equals value =>
    node depth "AssignmentExpression" e.span
      (ofToken (depth + 1) identifier :: ofToken (depth + 1) equals :: value.rows (depth + 1))
  | .call identifier opening arguments closing =>
    node depth "CallExpression" e.span
      (ofToken (depth + 1) identifier :: ofToken (depth + 1) opening
        :: expressionRows (depth + 1) arguments ++ [ofToken (depth + 1) closing])

def expressionRows (depth : Nat) : List Expression → List Row
  | [] => []
  | e :: rest => e.rows depth ++ expressionRows depth rest

end

def TypeClause.rows (depth : Nat) (c : TypeClause) : List Row :=
  node depth "TypeClause" c.span [ofToken (depth + 1) c.colon, ofToken (depth + 1) c.identifier]

def clauseRows (depth : Nat) : Option TypeClause → List Row
  | none => []
  | some c => c.rows depth

mutual

def Statement.rows (depth : Nat) (s : Statement) : List Row :=
  match s with
  | .block opening statements closing =>
    node depth "BlockStatement" s.span
      (ofToken (depth + 1) opening :: statementRows (depth + 1) statements
        ++ [ofToken (depth + 1) closing])
  | .declare keyword identifier clause equals initializer =>
    node depth "VariableDeclaration" s.span
      (ofToken (depth + 1) keyword :: ofToken (depth + 1) identifier :: clauseRows (depth + 1) clause
        ++ ofToken (depth + 1) equals :: initializer.rows (depth + 1))
  | .ifThen keyword condition branch =>
    node depth "IfStatement" s.span
      (ofToken (depth + 1) keyword :: condition.rows (depth + 1) ++ branch.rows (depth + 1))
  | .ifElse keyword condition branch elseKeyword otherwise =>
    node depth "IfStatement" s.span
      (ofToken (depth + 1) keyword :: condition.rows (depth + 1) ++ branch.rows (depth + 1)
        ++ ofToken (depth + 1) elseKeyword :: otherwise.rows (depth + 1))
  | .whileLoop keyword condition body =>
    node depth "WhileStatement" s.span
      (ofToken (depth + 1) keyword :: condition.rows (depth + 1) ++ body.rows (depth + 1))
  | .doLoop keyword body whileKeyword condition =>
    node depth "DoWhileStatement" s.span
      (ofToken (depth + 1) keyword :: body.rows (depth + 1)
        ++ ofToken (depth + 1) whileKeyword :: condition.rows (depth + 1))
  | .forLoop keyword identifier equals lower toKeyword upper body =>
    node depth "ForStatement" s.span
      (ofToken (depth + 1) keyword :: ofToken (depth + 1) identifier :: ofToken (depth + 1) equals
        :: lower.rows (depth + 1) ++ ofToken (depth + 1) toKeyword :: upper.rows (depth + 1)
        ++ body.rows (depth + 1))
  | .breakLoop keyword => node depth "BreakStatement" s.span [ofToken (depth + 1) keyword]
  | .continueLoop keyword => node depth "ContinueStatement" s.span [ofToken (depth + 1) keyword]
  | .leave keyword none => node depth "ReturnStatement" s.span [ofToken (depth + 1) keyword]
  | .leave keyword (some value) =>
    node depth "ReturnStatement" s.span (ofToken (depth + 1) keyword :: value.rows (depth + 1))
  | .expression e => node depth "ExpressionStatement" s.span (e.rows (depth + 1))

def statementRows (depth : Nat) : List Statement → List Row
  | [] => []
  | s :: rest => s.rows depth ++ statementRows depth rest

end

def Block.rows (depth : Nat) (b : Block) : List Row :=
  Statement.rows depth (.block b.opening b.statements b.closing)

def Parameter.rows (depth : Nat) (p : Parameter) : List Row :=
  node depth "Parameter" p.span (ofToken (depth + 1) p.identifier :: p.clause.rows (depth + 1))

def Function.rows (depth : Nat) (f : Function) : List Row :=
  node depth "FunctionDeclaration" f.span
    (ofToken (depth + 1) f.keyword :: ofToken (depth + 1) f.identifier
      :: ofToken (depth + 1) f.opening :: f.parameters.flatMap (Parameter.rows (depth + 1))
      ++ ofToken (depth + 1) f.closing :: clauseRows (depth + 1) f.clause
      ++ f.body.rows (depth + 1))

def Member.rows (depth : Nat) : Member → List Row
  | .function f => f.rows depth
  | .statement s => node depth "GlobalStatement" s.span (s.rows (depth + 1))

/-- The members at depth zero, and the end of the text after them. -/
def Source.rows (s : Source) : List Row :=
  s.members.flatMap (Member.rows 0) ++ [ofToken 0 s.finish]

end SmallScript.Tree
