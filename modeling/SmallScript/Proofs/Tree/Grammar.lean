import SmallScript.Proofs.Tree.Places
import SmallScript.Proofs.Tree.Steps

namespace SmallScript.Tree

open Token (Kind)

/-- What a derivation looks at besides the tokens that it derives. -/
structure Rules where
  /-- Whether a comma may stand after the last item of a list. -/
  trailingComma : Prop
  /-- Whether an expression that begins the first tokens may end before the second ones. -/
  expression (ts us : List Token) : Prop
  /-- Whether an `if` without `else` may end before some tokens. -/
  unpaired (us : List Token) : Prop
  /-- Whether a return without a value may end before some tokens. -/
  bare (us : List Token) : Prop
  /-- Whether the value of a return may begin some tokens. -/
  valued (ts : List Token) : Prop

section Relations

variable (R : Rules)

mutual

inductive ExpressionAt : List Token → List Token → Prop
  | assign {t equals : Token} {ts us : List Token} (ht : t.kind = .identifier) (he : equals.kind = .mark .equals)
      (hx : ExpressionAt ts us) (hR : R.expression (t :: equals :: ts) us) :
    ExpressionAt (t :: equals :: ts) us
  | operators {ts us : List Token} (hx : OperatorsAt ts us) (hR : R.expression ts us) : ExpressionAt ts us

/-- Operands joined by operators. -/
inductive OperatorsAt : List Token → List Token → Prop
  | operand {ts us : List Token} (hx : OperandAt ts us) : OperatorsAt ts us
  | binary {sign : Token} {ts us vs : List Token} (hx : OperandAt ts (sign :: us))
      (hsign : sign.kind ∈ Kind.binaryOperators) (hy : OperatorsAt us vs) : OperatorsAt ts vs

/-- Signs, and what they stand before. -/
inductive OperandAt : List Token → List Token → Prop
  | unary {sign : Token} {ts us : List Token} (hsign : sign.kind ∈ Kind.unaryOperators) (hx : OperandAt ts us) :
    OperandAt (sign :: ts) us
  | literal {t : Token} {us : List Token} (ht : t.kind ∈ literalKinds) : OperandAt (t :: us) us
  | name {t : Token} {us : List Token} (ht : t.kind = .identifier) : OperandAt (t :: us) us
  | group {opening closing : Token} {ts us : List Token} (ho : opening.kind = .mark .openParenthesis)
      (hx : ExpressionAt ts (closing :: us)) (hc : closing.kind = .mark .closeParenthesis) :
    OperandAt (opening :: ts) us
  | call {t opening closing : Token} {ts us : List Token} (ht : t.kind = .identifier)
      (ho : opening.kind = .mark .openParenthesis) (hxs : ArgumentsAt ts (closing :: us))
      (hc : closing.kind = .mark .closeParenthesis) : OperandAt (t :: opening :: ts) us

inductive ArgumentsAt : List Token → List Token → Prop
  | none {us : List Token} : ArgumentsAt us us
  | some {ts us : List Token} (hxs : ArgumentListAt ts us) : ArgumentsAt ts us

/-- One argument or more. -/
inductive ArgumentListAt : List Token → List Token → Prop
  | last {ts us : List Token} (hx : ExpressionAt ts us) : ArgumentListAt ts us
  | trailing {comma : Token} {ts us : List Token} (hR : R.trailingComma) (hx : ExpressionAt ts (comma :: us))
      (hcomma : comma.kind = .mark .comma) : ArgumentListAt ts us
  | cons {comma : Token} {ts us vs : List Token} (hx : ExpressionAt ts (comma :: us))
      (hcomma : comma.kind = .mark .comma) (hxs : ArgumentListAt us vs) : ArgumentListAt ts vs

end

inductive TypeClauseAt : List Token → List Token → Prop
  | mk {colon t : Token} {us : List Token} (hcolon : colon.kind = .mark .colon) (ht : t.kind = .identifier) :
    TypeClauseAt (colon :: t :: us) us

inductive TypeClause?At : List Token → List Token → Prop
  | none {us : List Token} : TypeClause?At us us
  | some {ts us : List Token} (h : TypeClauseAt ts us) : TypeClause?At ts us

mutual

inductive StatementAt : List Token → List Token → Prop
  | block {opening closing : Token} {ts us : List Token} (ho : opening.kind = .mark .openBrace)
      (hs : StatementsAt ts (closing :: us)) (hc : closing.kind = .mark .closeBrace) :
    StatementAt (opening :: ts) us
  | declare {keyword t equals : Token} {ts us vs : List Token}
      (hk : keyword.kind = .word .letName ∨ keyword.kind = .word .varName) (ht : t.kind = .identifier)
      (hclause : TypeClause?At ts (equals :: us)) (he : equals.kind = .mark .equals)
      (hx : ExpressionAt R us vs) : StatementAt (keyword :: t :: ts) vs
  | ifThen {keyword : Token} {ts us vs : List Token} (hk : keyword.kind = .word .ifTest)
      (hx : ExpressionAt R ts us) (hs : StatementAt us vs) (hR : R.unpaired vs) : StatementAt (keyword :: ts) vs
  | ifElse {keyword elseKeyword : Token} {ts us vs ws : List Token} (hk : keyword.kind = .word .ifTest)
      (hx : ExpressionAt R ts us) (hs : StatementAt us (elseKeyword :: vs))
      (helse : elseKeyword.kind = .word .elseBranch) (hs' : StatementAt vs ws) : StatementAt (keyword :: ts) ws
  | whileLoop {keyword : Token} {ts us vs : List Token} (hk : keyword.kind = .word .whileLoop)
      (hx : ExpressionAt R ts us) (hs : StatementAt us vs) : StatementAt (keyword :: ts) vs
  | doLoop {keyword whileKeyword : Token} {ts us vs : List Token} (hk : keyword.kind = .word .doLoop)
      (hs : StatementAt ts (whileKeyword :: us)) (hwhile : whileKeyword.kind = .word .whileLoop)
      (hx : ExpressionAt R us vs) : StatementAt (keyword :: ts) vs
  | forLoop {keyword t equals toKeyword : Token} {ts us vs ws : List Token} (hk : keyword.kind = .word .forLoop)
      (ht : t.kind = .identifier) (he : equals.kind = .mark .equals) (hx : ExpressionAt R ts (toKeyword :: us))
      (hto : toKeyword.kind = .word .toBound) (hy : ExpressionAt R us vs) (hs : StatementAt vs ws) :
    StatementAt (keyword :: t :: equals :: ts) ws
  | breakLoop {keyword : Token} {us : List Token} (hk : keyword.kind = .word .breakLoop) :
    StatementAt (keyword :: us) us
  | continueLoop {keyword : Token} {us : List Token} (hk : keyword.kind = .word .continueLoop) :
    StatementAt (keyword :: us) us
  | leave {keyword : Token} {us : List Token} (hk : keyword.kind = .word .returnValue) (hR : R.bare us) :
    StatementAt (keyword :: us) us
  | leaveWith {keyword : Token} {ts us : List Token} (hk : keyword.kind = .word .returnValue)
      (hx : ExpressionAt R ts us) (hR : R.valued ts) : StatementAt (keyword :: ts) us
  | expression {ts us : List Token} (hx : ExpressionAt R ts us) : StatementAt ts us

inductive StatementsAt : List Token → List Token → Prop
  | nil {us : List Token} : StatementsAt us us
  | cons {ts us vs : List Token} (hs : StatementAt ts us) (hss : StatementsAt us vs) : StatementsAt ts vs

end

inductive BlockAt : List Token → List Token → Prop
  | mk {opening closing : Token} {ts us : List Token} (ho : opening.kind = .mark .openBrace)
      (hs : StatementsAt R ts (closing :: us)) (hc : closing.kind = .mark .closeBrace) : BlockAt (opening :: ts) us

inductive ParameterAt : List Token → List Token → Prop
  | mk {t : Token} {ts us : List Token} (ht : t.kind = .identifier) (hclause : TypeClauseAt ts us) :
    ParameterAt (t :: ts) us

/-- One parameter or more. -/
inductive ParameterListAt : List Token → List Token → Prop
  | last {ts us : List Token} (h : ParameterAt ts us) : ParameterListAt ts us
  | trailing {comma : Token} {ts us : List Token} (hR : R.trailingComma) (h : ParameterAt ts (comma :: us))
      (hcomma : comma.kind = .mark .comma) : ParameterListAt ts us
  | cons {comma : Token} {ts us vs : List Token} (h : ParameterAt ts (comma :: us))
      (hcomma : comma.kind = .mark .comma) (hs : ParameterListAt us vs) : ParameterListAt ts vs

inductive ParametersAt : List Token → List Token → Prop
  | none {us : List Token} : ParametersAt us us
  | some {ts us : List Token} (hs : ParameterListAt R ts us) : ParametersAt ts us

inductive FunctionAt : List Token → List Token → Prop
  | mk {keyword t opening closing : Token} {ts us vs ws : List Token} (hk : keyword.kind = .word .functionHead)
      (ht : t.kind = .identifier) (ho : opening.kind = .mark .openParenthesis)
      (hparameters : ParametersAt R ts (closing :: us)) (hc : closing.kind = .mark .closeParenthesis)
      (hclause : TypeClause?At us vs) (hbody : BlockAt R vs ws) : FunctionAt (keyword :: t :: opening :: ts) ws

inductive MemberAt : List Token → List Token → Prop
  | function {ts us : List Token} (h : FunctionAt R ts us) : MemberAt ts us
  | statement {ts us : List Token} (h : StatementAt R ts us) : MemberAt ts us

inductive MembersAt : List Token → List Token → Prop
  | nil {us : List Token} : MembersAt us us
  | cons {ts us vs : List Token} (h : MemberAt R ts us) (hs : MembersAt us vs) : MembersAt ts vs

/-- The tokens of a whole text: members, then its end. -/
def IsUnit (ts : List Token) : Prop := ∃ finish, MembersAt R ts [finish] ∧ finish.kind = .endOfFile

end Relations

/-- The rules of the grammar as it is, with or without commas after the last items of lists. -/
def Rules.free (trailingComma : Prop) : Rules where
  trailingComma := trailingComma
  expression _ _ := True
  unpaired _ := True
  bare _ := True
  valued _ := True

/-- The documented rules: an item after every comma. -/
def Rules.documented : Rules := .free False

end SmallScript.Tree
