import SmallScript.Tree.Basic

namespace SmallScript.Tree

mutual

def Expression.tokens : Expression → List Token
  | .literal t _ | .name t => [t]
  | .unary sign operand => sign :: operand.tokens
  | .binary left sign right => left.tokens ++ sign :: right.tokens
  | .group opening inner closing => opening :: inner.tokens ++ [closing]
  | .assign identifier equals value => identifier :: equals :: value.tokens
  | .call identifier opening arguments closing =>
    identifier :: opening :: expressionTokens arguments ++ [closing]

def expressionTokens : List Expression → List Token
  | [] => []
  | e :: rest => e.tokens ++ expressionTokens rest

end

def TypeClause.tokens (c : TypeClause) : List Token := [c.colon, c.identifier]

def clauseTokens : Option TypeClause → List Token
  | none => []
  | some c => c.tokens

mutual

def Statement.tokens : Statement → List Token
  | .block opening statements closing => opening :: statementTokens statements ++ [closing]
  | .declare keyword identifier clause equals initializer =>
    keyword :: identifier :: clauseTokens clause ++ equals :: initializer.tokens
  | .ifThen keyword condition branch => keyword :: condition.tokens ++ branch.tokens
  | .ifElse keyword condition branch elseKeyword otherwise =>
    keyword :: condition.tokens ++ branch.tokens ++ elseKeyword :: otherwise.tokens
  | .whileLoop keyword condition body => keyword :: condition.tokens ++ body.tokens
  | .doLoop keyword body whileKeyword condition =>
    keyword :: body.tokens ++ whileKeyword :: condition.tokens
  | .forLoop keyword identifier equals lower toKeyword upper body =>
    keyword :: identifier :: equals :: lower.tokens ++ toKeyword :: upper.tokens ++ body.tokens
  | .breakLoop keyword | .continueLoop keyword | .leave keyword none => [keyword]
  | .leave keyword (some value) => keyword :: value.tokens
  | .expression e => e.tokens

def statementTokens : List Statement → List Token
  | [] => []
  | s :: rest => s.tokens ++ statementTokens rest

end

def Block.tokens (b : Block) : List Token := b.opening :: statementTokens b.statements ++ [b.closing]

def Parameter.tokens (p : Parameter) : List Token := p.identifier :: p.clause.tokens

def Function.tokens (f : Function) : List Token :=
  f.keyword :: f.identifier :: f.opening :: f.parameters.flatMap Parameter.tokens
    ++ f.closing :: clauseTokens f.clause ++ f.body.tokens

def Member.tokens : Member → List Token
  | .function f => f.tokens
  | .statement s => s.tokens

def Source.tokens (s : Source) : List Token := s.members.flatMap Member.tokens ++ [s.finish]

/-- No token among some is missing. -/
def Whole (ts : List Token) : Prop := ∀ t ∈ ts, t.isMissing = false

namespace Whole

variable {t : Token} {ts us : List Token}

@[simp]
theorem nil : Whole [] := fun _ h ↦ nomatch h

@[simp]
theorem cons_iff : Whole (t :: ts) ↔ t.isMissing = false ∧ Whole ts := List.forall_mem_cons

@[simp]
theorem append_iff : Whole (ts ++ us) ↔ Whole ts ∧ Whole us := List.forall_mem_append

end Whole

end SmallScript.Tree
