import SmallScript.Token.Scan

namespace SmallScript.Tree

inductive Expression
  | literal (token : Token) (value : Value)
  | name (identifier : Token)
  | unary (sign : Token) (operand : Expression)
  | binary (left : Expression) (sign : Token) (right : Expression)
  | group (opening : Token) (inner : Expression) (closing : Token)
  | assign (identifier equals : Token) (value : Expression)
  | call (identifier opening : Token) (arguments : List Expression) (closing : Token)

structure TypeClause where
  colon : Token
  identifier : Token

inductive Statement
  | block (opening : Token) (statements : List Statement) (closing : Token)
  | declare (keyword identifier : Token) (clause : Option TypeClause) (equals : Token)
      (initializer : Expression)
  | ifThen (keyword : Token) (condition : Expression) (branch : Statement)
  | ifElse (keyword : Token) (condition : Expression) (branch : Statement) (elseKeyword : Token)
      (otherwise : Statement)
  | whileLoop (keyword : Token) (condition : Expression) (body : Statement)
  | doLoop (keyword : Token) (body : Statement) (whileKeyword : Token) (condition : Expression)
  | forLoop (keyword identifier equals : Token) (lower : Expression) (toKeyword : Token)
      (upper : Expression) (body : Statement)
  | breakLoop (keyword : Token)
  | continueLoop (keyword : Token)
  | leave (keyword : Token) (value : Option Expression)
  | expression (e : Expression)

structure Block where
  opening : Token
  statements : List Statement
  closing : Token

structure Parameter where
  identifier : Token
  clause : TypeClause

structure Function where
  keyword : Token
  identifier : Token
  opening : Token
  parameters : List Parameter
  closing : Token
  clause : Option TypeClause
  body : Block

inductive Member
  | function (f : Function)
  | statement (s : Statement)

structure Source where
  members : List Member
  finish : Token

def Expression.span : Expression → Span
  | literal t _ => t.span
  | name t => t.span
  | unary sign operand => sign.span.union operand.span
  | binary left _ right => left.span.union right.span
  | group opening _ closing => opening.span.union closing.span
  | assign identifier _ value => identifier.span.union value.span
  | call identifier _ _ closing => identifier.span.union closing.span

def TypeClause.span (c : TypeClause) : Span := c.colon.span.union c.identifier.span

def Statement.span : Statement → Span
  | block opening _ closing => opening.span.union closing.span
  | declare keyword _ _ _ initializer => keyword.span.union initializer.span
  | ifThen keyword _ branch => keyword.span.union branch.span
  | ifElse keyword _ _ _ otherwise => keyword.span.union otherwise.span
  | whileLoop keyword _ body => keyword.span.union body.span
  | doLoop keyword _ _ condition => keyword.span.union condition.span
  | forLoop keyword _ _ _ _ _ body => keyword.span.union body.span
  | breakLoop keyword => keyword.span
  | continueLoop keyword => keyword.span
  | leave keyword none => keyword.span
  | leave keyword (some value) => keyword.span.union value.span
  | expression e => e.span

def Block.span (b : Block) : Span := b.opening.span.union b.closing.span

def Parameter.span (p : Parameter) : Span := p.identifier.span.union p.clause.span

def Function.span (f : Function) : Span := f.keyword.span.union f.body.span

def Member.span : Member → Span
  | function f => f.span
  | statement s => s.span

end SmallScript.Tree
