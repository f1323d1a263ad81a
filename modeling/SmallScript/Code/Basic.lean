import SmallScript.Operator
import SmallScript.Symbol
import SmallScript.Value

namespace SmallScript

/-- A place that jumps go to. The loops of a body and the labels made for it are numbered; a label
that is given by name is told from others of its name by its number. -/
inductive Label
  | breakOf (loop : Nat)
  | continueOf (loop : Nat)
  | made (n : Nat)
  | given (n : Nat) (name : String)
  deriving DecidableEq, Repr

def Label.name : Label → String
  | breakOf n => s!"break{n}"
  | continueOf n => s!"continue{n}"
  | made n => s!"label{n}"
  | given _ name => name

/-- The labels that leave a loop and that go on with it. -/
structure Exits where
  leave : Label
  again : Label
  deriving DecidableEq, Repr

namespace Code

/-- `error` stands for an expression that has no meaning. -/
inductive Expression
  | error
  | literal (v : Value)
  | var (v : Variable)
  | assign (v : Variable) (value : Expression)
  | unary (o : UnaryOperator) (operand : Expression)
  | binary (left : Expression) (o : BinaryOperator) (right : Expression)
  | call (f : Function) (arguments : List Expression)
  | convert (target : Ty) (operand : Expression)

inductive Statement
  | block (statements : List Statement)
  | declare (v : Variable) (initializer : Expression)
  | ifThen (condition : Expression) (branch : Statement)
  | ifElse (condition : Expression) (branch otherwise : Statement)
  | whileLoop (condition : Expression) (body : Statement) (exits : Exits)
  | doLoop (body : Statement) (condition : Expression) (exits : Exits)
  | forLoop (v : Variable) (lower upper : Expression) (body : Statement) (exits : Exits)
  | label (l : Label)
  | goto (l : Label)
  /-- Goes to the label if the condition is true, or if it is false when `negated`. -/
  | gotoIf (l : Label) (condition : Expression) (negated : Bool)
  | leave (value : Option Expression)
  | expression (e : Expression)

namespace Expression

/-- The type of an expression. An assignment has that of the value assigned. -/
def ty : Expression → Ty
  | error => .unknown
  | literal v => v.ty
  | var v => v.ty
  | assign _ value => value.ty
  | unary o _ => o.result
  | binary _ o _ => o.result
  | call f _ => f.returns
  | convert target _ => target

def nodeName : Expression → String
  | error => "ErrorExpression"
  | literal _ => "LiteralExpression"
  | var _ => "VariableExpression"
  | assign _ _ => "AssignmentExpression"
  | unary _ _ => "UnaryExpression"
  | binary _ _ _ => "BinaryExpression"
  | call _ _ => "CallExpression"
  | convert _ _ => "ConversionExpression"

end Expression

namespace Statement

def nodeName : Statement → String
  | block _ => "BlockStatement"
  | declare _ _ => "VariableDeclaration"
  | ifThen _ _ | ifElse _ _ _ => "IfStatement"
  | whileLoop _ _ _ => "WhileStatement"
  | doLoop _ _ _ => "DoWhileStatement"
  | forLoop _ _ _ _ _ => "ForStatement"
  | label _ => "LabelStatement"
  | goto _ => "GotoStatement"
  | gotoIf _ _ _ => "ConditionalGotoStatement"
  | leave _ => "ReturnStatement"
  | expression _ => "ExpressionStatement"

/-- Whether a statement holds no other statement. -/
def isFlat : Statement → Bool
  | declare _ _ | label _ | goto _ | gotoIf _ _ _ | leave _ | expression _ => true
  | _ => false

end Statement

end Code

end SmallScript
