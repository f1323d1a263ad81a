import SmallScript.Operator
import SmallScript.Text.Lines
import SmallScript.Text.Literal
import SmallScript.Value

namespace SmallScript

inductive Operation
  | intOperand
  | boolOperand
  | stringOperand
  | binary (action : BinaryAction)
  | conversion (target : Ty)
  deriving DecidableEq

def Operation.text : Operation → String
  | intOperand => "an int operand"
  | boolOperand => "a bool operand"
  | stringOperand => "a string operand"
  | binary action => action.name
  | conversion target => s!"conversion to {target.name}"

/-- What stops a run. Failures of the console are left out: it is made of lines, which can always be read and
written. -/
inductive Fault
  | unexpectedNode (node : String)
  | undefinedLabel (name : String)
  | typeMismatch (operation : Operation) (ty : Ty)
  | unassignedVariable (name : String)
  | missingBody (function : String)
  | missingValue
  | divisionByZero
  | invalidConversion (value : String) (target : Ty)
  | invalidRandomRange (min max : Int32)
  | stepLimitExceeded (limit : Nat)
  | callDepthExceeded (limit : Nat)
  deriving DecidableEq

namespace Fault

def message : Fault → String
  | unexpectedNode node => s!"internal error: unexpected {node} reached the evaluator"
  | undefinedLabel name => s!"internal error: label '{name}' is not defined in the current body"
  | typeMismatch operation ty =>
    s!"internal error: {operation.text} is not defined for {ty.name} values"
  | unassignedVariable name => s!"variable '{name}' was read before it was assigned"
  | missingBody function => s!"internal error: function '{function}' has no bound body"
  | missingValue => "internal error: expression produced no value"
  | divisionByZero => "division by zero"
  | invalidConversion value target => s!"cannot convert '{value}' to {target.name}"
  | invalidRandomRange min max =>
    s!"random: min ({min.toInt}) must not be greater than max ({max.toInt})"
  | stepLimitExceeded limit => s!"evaluation exceeded the step limit of {limit}"
  | callDepthExceeded limit => s!"call depth exceeded the limit of {limit}"

/-- Whether code whose names and types are resolved can have the fault at all. -/
def isInternal : Fault → Bool
  | unexpectedNode _ | undefinedLabel _ | typeMismatch _ _ | missingBody _ | missingValue => true
  | _ => false

end Fault

namespace Value

def int? : Value → Except Fault Int32
  | int n => .ok n
  | v => .error (.typeMismatch .intOperand v.ty)

def bool? : Value → Except Fault Bool
  | bool b => .ok b
  | v => .error (.typeMismatch .boolOperand v.ty)

def string? : Value → Except Fault String
  | string s => .ok s
  | v => .error (.typeMismatch .stringOperand v.ty)

end Value

def UnaryAction.apply : UnaryAction → Value → Except Fault Value
  | identity, v => v.int?.map fun n ↦ .int n
  | negation, v => v.int?.map fun n ↦ .int (-n)
  | onesComplement, v => v.int?.map fun n ↦ .int (~~~n)
  | logicalNegation, v => v.bool?.map fun b ↦ .bool !b

/-- Any two values can be compared; the other operators fit some types only. -/
def BinaryAction.apply : BinaryAction → Value → Value → Except Fault Value
  | equals, v, w => .ok (.bool (v = w))
  | notEquals, v, w => .ok (.bool (v ≠ w))
  | addition, .int m, .int n => .ok (.int (m + n))
  | addition, .string s, .string t => .ok (.string (s ++ t))
  | subtraction, .int m, .int n => .ok (.int (m - n))
  | multiplication, .int m, .int n => .ok (.int (m * n))
  | division, .int m, .int n => if n = 0 then .error .divisionByZero else .ok (.int (m / n))
  | bitwiseAnd, .int m, .int n => .ok (.int (m &&& n))
  | bitwiseOr, .int m, .int n => .ok (.int (m ||| n))
  | bitwiseXor, .int m, .int n => .ok (.int (m ^^^ n))
  | bitwiseAnd, .bool a, .bool b => .ok (.bool (a && b))
  | bitwiseOr, .bool a, .bool b => .ok (.bool (a || b))
  | bitwiseXor, .bool a, .bool b => .ok (.bool (a ^^ b))
  | less, .int m, .int n => .ok (.bool (m < n))
  | lessOrEquals, .int m, .int n => .ok (.bool (m ≤ n))
  | greater, .int m, .int n => .ok (.bool (n < m))
  | greaterOrEquals, .int m, .int n => .ok (.bool (n ≤ m))
  | action, v, _ => .error (.typeMismatch (.binary action) v.ty)

namespace Value

def truth? (cs : List Char) : Option Bool :=
  let word := cs.map Char.toLower
  if word = ['t', 'r', 'u', 'e'] then some true
  else if word = ['f', 'a', 'l', 's', 'e'] then some false
  else none

/-- The value as one of a type. Blanks around a text that is read do not count. -/
def convert (target : Ty) (v : Value) : Except Fault Value :=
  match target, v with
  | .string, v => .ok (.string v.text)
  | .int, .int n => .ok (.int n)
  | .int, .string s =>
    match Decimal.int32? (trim s.toList) with
    | some n => .ok (.int n)
    | none => .error (.invalidConversion s .int)
  | .bool, .bool b => .ok (.bool b)
  | .bool, .string s =>
    match truth? (trim s.toList) with
    | some b => .ok (.bool b)
    | none => .error (.invalidConversion s .bool)
  | target, v => .error (.typeMismatch (.conversion target) v.ty)

end Value

end SmallScript
