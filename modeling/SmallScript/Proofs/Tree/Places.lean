import SmallScript.Proofs.Tree.Tokens
import SmallScript.Token.Kind

namespace SmallScript.Tree

open Token (Kind)

/-- A place of a tree that a text is read into. -/
inductive Place
  /-- The tree has a token here, and tokens of some kinds may stand here. -/
  | token (kinds : List Kind) (t : Token)
  /-- An item of a list ends here. A comma stands between two items, and may stand after the last. -/
  | comma (between : Bool)
  /-- A statement or a function ends here. A token may be skipped. -/
  | gap
  /-- A return has no value here. -/
  | bare
  /-- An operand ends here, which is no assignment. -/
  | operand (assigns : Bool)

def Place.token? : Place → Option Token
  | token _ t => some t
  | comma _ | gap | bare | operand _ => none

section Place

variable {ps : List Place}

@[simp]
theorem filterMap_token (kinds : List Kind) (t : Token) :
    (Place.token kinds t :: ps).filterMap Place.token? = t :: ps.filterMap Place.token? := rfl

@[simp]
theorem filterMap_comma (between : Bool) :
    (Place.comma between :: ps).filterMap Place.token? = ps.filterMap Place.token? := rfl

@[simp]
theorem filterMap_gap : (Place.gap :: ps).filterMap Place.token? = ps.filterMap Place.token? := rfl

@[simp]
theorem filterMap_bare : (Place.bare :: ps).filterMap Place.token? = ps.filterMap Place.token? := rfl

@[simp]
theorem filterMap_operand (assigns : Bool) :
    (Place.operand assigns :: ps).filterMap Place.token? = ps.filterMap Place.token? := rfl

end Place

def Expression.isAssign : Expression → Bool
  | .assign _ _ _ => true
  | _ => false

def literalKinds : List Kind := [.number, .string, .word .trueValue, .word .falseValue]

mutual

def Expression.places : Expression → List Place
  | .literal t _ => [.token literalKinds t]
  | .name t => [.token [.identifier] t]
  | .unary sign operand => .token Kind.unaryOperators sign :: operand.places ++ [.operand operand.isAssign]
  | .binary left sign right =>
    left.places ++ .operand left.isAssign :: .token Kind.binaryOperators sign :: right.places
      ++ [.operand right.isAssign]
  | .group opening inner closing =>
    .token [.mark .openParenthesis] opening :: inner.places ++ [.token [.mark .closeParenthesis] closing]
  | .assign identifier equals value =>
    .token [.identifier] identifier :: .token [.mark .equals] equals :: value.places
  | .call identifier opening arguments closing =>
    .token [.identifier] identifier :: .token [.mark .openParenthesis] opening :: argumentPlaces arguments
      ++ [.token [.mark .closeParenthesis] closing]

def argumentPlaces : List Expression → List Place
  | [] => []
  | e :: rest => e.places ++ .comma (!rest.isEmpty) :: argumentPlaces rest

end

def TypeClause.places (c : TypeClause) : List Place :=
  [.token [.mark .colon] c.colon, .token [.identifier] c.identifier]

def clausePlaces : Option TypeClause → List Place
  | none => []
  | some c => c.places

mutual

def Statement.places : Statement → List Place
  | .block opening statements closing =>
    .token [.mark .openBrace] opening :: statementPlaces statements ++ [.token [.mark .closeBrace] closing]
  | .declare keyword identifier clause equals initializer =>
    .token [.word .letName, .word .varName] keyword :: .token [.identifier] identifier :: clausePlaces clause
      ++ .token [.mark .equals] equals :: initializer.places
  | .ifThen keyword condition branch =>
    .token [.word .ifTest] keyword :: condition.places ++ branch.places
  | .ifElse keyword condition branch elseKeyword otherwise =>
    .token [.word .ifTest] keyword :: condition.places ++ branch.places
      ++ .token [.word .elseBranch] elseKeyword :: otherwise.places
  | .whileLoop keyword condition body =>
    .token [.word .whileLoop] keyword :: condition.places ++ body.places
  | .doLoop keyword body whileKeyword condition =>
    .token [.word .doLoop] keyword :: body.places ++ .token [.word .whileLoop] whileKeyword :: condition.places
  | .forLoop keyword identifier equals lower toKeyword upper body =>
    .token [.word .forLoop] keyword :: .token [.identifier] identifier :: .token [.mark .equals] equals
      :: lower.places ++ .token [.word .toBound] toKeyword :: upper.places ++ body.places
  | .breakLoop keyword => [.token [.word .breakLoop] keyword]
  | .continueLoop keyword => [.token [.word .continueLoop] keyword]
  | .leave keyword none => [.token [.word .returnValue] keyword, .bare]
  | .leave keyword (some value) => .token [.word .returnValue] keyword :: value.places
  | .expression e => e.places

def statementPlaces : List Statement → List Place
  | [] => []
  | s :: rest => s.places ++ .gap :: statementPlaces rest

end

def Block.places (b : Block) : List Place :=
  .token [.mark .openBrace] b.opening :: statementPlaces b.statements ++ [.token [.mark .closeBrace] b.closing]

def Parameter.places (p : Parameter) : List Place := .token [.identifier] p.identifier :: p.clause.places

def parameterPlaces : List Parameter → List Place
  | [] => []
  | p :: rest => p.places ++ .comma (!rest.isEmpty) :: parameterPlaces rest

def Function.places (f : Function) : List Place :=
  .token [.word .functionHead] f.keyword :: .token [.identifier] f.identifier
    :: .token [.mark .openParenthesis] f.opening :: parameterPlaces f.parameters
    ++ .token [.mark .closeParenthesis] f.closing :: clausePlaces f.clause ++ f.body.places

def Member.places : Member → List Place
  | .function f => f.places
  | .statement s => s.places

def memberPlaces : List Member → List Place
  | [] => []
  | m :: rest => m.places ++ .gap :: memberPlaces rest

def Source.places (s : Source) : List Place := memberPlaces s.members ++ [.token [.endOfFile] s.finish]

section Tokens

mutual

theorem Expression.tokens_places : (e : Expression) → e.places.filterMap Place.token? = e.tokens
  | .literal _ _ | .name _ => rfl
  | .unary _ e | .assign _ _ e => by
    simp [Expression.places, Expression.tokens, e.tokens_places]
  | .binary e _ e' => by simp [Expression.places, Expression.tokens, e.tokens_places, e'.tokens_places]
  | .group _ e _ => by simp [Expression.places, Expression.tokens, e.tokens_places]
  | .call _ _ es _ => by simp [Expression.places, Expression.tokens, tokens_argumentPlaces es]

theorem tokens_argumentPlaces : (es : List Expression) →
    (argumentPlaces es).filterMap Place.token? = expressionTokens es
  | [] => rfl
  | e :: es => by
    simp [argumentPlaces, expressionTokens, e.tokens_places, tokens_argumentPlaces es]

end

theorem tokens_clausePlaces (c : Option TypeClause) :
    (clausePlaces c).filterMap Place.token? = clauseTokens c := by
  cases c <;> rfl

mutual

theorem Statement.tokens_places : (s : Statement) → s.places.filterMap Place.token? = s.tokens
  | .block _ ss _ => by simp [Statement.places, Statement.tokens, tokens_statementPlaces ss]
  | .declare _ _ c _ e => by
    simp [Statement.places, Statement.tokens, tokens_clausePlaces, e.tokens_places]
  | .ifThen _ e s | .whileLoop _ e s | .doLoop _ s _ e => by
    simp [Statement.places, Statement.tokens, e.tokens_places, s.tokens_places]
  | .ifElse _ e s _ s' => by
    simp [Statement.places, Statement.tokens, e.tokens_places, s.tokens_places, s'.tokens_places]
  | .forLoop _ _ _ e _ e' s => by
    simp [Statement.places, Statement.tokens, e.tokens_places, e'.tokens_places, s.tokens_places]
  | .breakLoop _ | .continueLoop _ | .leave _ none => rfl
  | .leave _ (some e) => by simp [Statement.places, Statement.tokens, e.tokens_places]
  | .expression e => by simp [Statement.places, Statement.tokens, e.tokens_places]

theorem tokens_statementPlaces : (ss : List Statement) →
    (statementPlaces ss).filterMap Place.token? = statementTokens ss
  | [] => rfl
  | s :: ss => by
    simp [statementPlaces, statementTokens, s.tokens_places, tokens_statementPlaces ss]

end

theorem tokens_parameterPlaces (ps : List Parameter) :
    (parameterPlaces ps).filterMap Place.token? = ps.flatMap Parameter.tokens := by
  induction ps with
  | nil => rfl
  | cons p ps ih =>
    simp [parameterPlaces, Parameter.places, Parameter.tokens, TypeClause.places, TypeClause.tokens,
      ih]

theorem Member.tokens_places (m : Member) : m.places.filterMap Place.token? = m.tokens := by
  cases m with
  | function f =>
    simp [places, tokens, Function.places, Function.tokens, Block.places, Block.tokens,
      tokens_parameterPlaces, tokens_clausePlaces, tokens_statementPlaces]
  | statement s => exact s.tokens_places

theorem Source.tokens_places (s : Source) : s.places.filterMap Place.token? = s.tokens := by
  have hmembers (ms : List Member) :
      (memberPlaces ms).filterMap Place.token? = ms.flatMap Member.tokens := by
    induction ms with
    | nil => rfl
    | cons m ms ih => simp [memberPlaces, m.tokens_places, ih]
  simp [places, tokens, hmembers]

theorem Expression.tokens_ne_nil (e : Expression) : e.tokens ≠ [] := by
  cases e <;> simp [tokens]

theorem Statement.tokens_ne_nil (s : Statement) : s.tokens ≠ [] := by
  cases s with
  | leave _ value => cases value <;> simp [tokens]
  | expression e => exact e.tokens_ne_nil
  | _ => simp [tokens]

theorem Member.tokens_ne_nil (m : Member) : m.tokens ≠ [] := by
  cases m with
  | function f => simp [tokens, Function.tokens]
  | statement s => exact s.tokens_ne_nil

end Tokens

end SmallScript.Tree
