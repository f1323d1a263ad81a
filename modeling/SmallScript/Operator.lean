import SmallScript.Token.Kind
import SmallScript.Value

namespace SmallScript

inductive UnaryAction
  | identity | negation | logicalNegation | onesComplement
  deriving DecidableEq, Repr

inductive BinaryAction
  | addition | subtraction | multiplication | division
  | logicalAnd | logicalOr | bitwiseAnd | bitwiseOr | bitwiseXor
  | equals | notEquals | less | lessOrEquals | greater | greaterOrEquals
  deriving DecidableEq, Repr

def UnaryAction.name : UnaryAction → String
  | identity => "Identity"
  | negation => "Negation"
  | logicalNegation => "LogicalNegation"
  | onesComplement => "OnesComplement"

def BinaryAction.name : BinaryAction → String
  | addition => "Addition"
  | subtraction => "Subtraction"
  | multiplication => "Multiplication"
  | division => "Division"
  | logicalAnd => "LogicalAnd"
  | logicalOr => "LogicalOr"
  | bitwiseAnd => "BitwiseAnd"
  | bitwiseOr => "BitwiseOr"
  | bitwiseXor => "BitwiseXor"
  | equals => "Equals"
  | notEquals => "NotEquals"
  | less => "Less"
  | lessOrEquals => "LessOrEquals"
  | greater => "Greater"
  | greaterOrEquals => "GreaterOrEquals"

/-- A unary operator gives a result of its operand's type. -/
structure UnaryOperator where
  sign : Punctuation
  action : UnaryAction
  operand : Ty
  deriving DecidableEq, Repr

/-- The two operands of a binary operator have one type. -/
structure BinaryOperator where
  sign : Punctuation
  action : BinaryAction
  operand : Ty
  result : Ty
  deriving DecidableEq, Repr

namespace UnaryOperator

def result (o : UnaryOperator) : Ty := o.operand

def all : List UnaryOperator :=
  [⟨.bang, .logicalNegation, .bool⟩, ⟨.plus, .identity, .int⟩, ⟨.minus, .negation, .int⟩,
    ⟨.tilde, .onesComplement, .int⟩]

/-- The operator that a token stands for before an operand of a type. -/
def find? (kind : Token.Kind) (operand : Ty) : Option UnaryOperator :=
  all.find? fun o ↦ .mark o.sign == kind && o.operand == operand

theorem operand_of_find? {k : Token.Kind} {t : Ty} {o : UnaryOperator} (h : find? k t = some o) :
    o.operand = t := by
  have := List.find?_some h
  simp only [Bool.and_eq_true, beq_iff_eq] at this
  exact this.2

end UnaryOperator

namespace BinaryOperator

def all : List BinaryOperator :=
  [⟨.plus, .addition, .int, .int⟩, ⟨.minus, .subtraction, .int, .int⟩,
    ⟨.star, .multiplication, .int, .int⟩, ⟨.slash, .division, .int, .int⟩,
    ⟨.ampersand, .bitwiseAnd, .int, .int⟩, ⟨.pipe, .bitwiseOr, .int, .int⟩,
    ⟨.hat, .bitwiseXor, .int, .int⟩, ⟨.equalsEquals, .equals, .int, .bool⟩,
    ⟨.bangEquals, .notEquals, .int, .bool⟩, ⟨.less, .less, .int, .bool⟩,
    ⟨.lessOrEquals, .lessOrEquals, .int, .bool⟩, ⟨.greater, .greater, .int, .bool⟩,
    ⟨.greaterOrEquals, .greaterOrEquals, .int, .bool⟩,
    ⟨.ampersandAmpersand, .logicalAnd, .bool, .bool⟩, ⟨.pipePipe, .logicalOr, .bool, .bool⟩,
    ⟨.ampersand, .bitwiseAnd, .bool, .bool⟩, ⟨.pipe, .bitwiseOr, .bool, .bool⟩,
    ⟨.hat, .bitwiseXor, .bool, .bool⟩, ⟨.equalsEquals, .equals, .bool, .bool⟩,
    ⟨.bangEquals, .notEquals, .bool, .bool⟩, ⟨.plus, .addition, .string, .string⟩,
    ⟨.equalsEquals, .equals, .string, .bool⟩, ⟨.bangEquals, .notEquals, .string, .bool⟩]

/-- The operator that a token stands for between operands of two types. -/
def find? (kind : Token.Kind) (left right : Ty) : Option BinaryOperator :=
  all.find? fun o ↦ .mark o.sign == kind && o.operand == left && o.operand == right

theorem operand_of_find? {k : Token.Kind} {s t : Ty} {o : BinaryOperator}
    (h : find? k s t = some o) : o.operand = s ∧ o.operand = t := by
  have := List.find?_some h
  simp only [Bool.and_eq_true, beq_iff_eq] at this
  exact ⟨this.1.2, this.2⟩

end BinaryOperator

end SmallScript
