import SmallScript.Resolve.State

namespace SmallScript.Resolver

open Code (Expression)

def needValue (span : Span) (e : Expression) : Resolver Expression := do
  if e.ty = .void then
    report span .valueMissing
    return .error
  else return e

/-- The expression with a type. A conversion that has to be written is reported unless it `isWritten`,
and made all the same. -/
def convert (span : Span) (e : Expression) (target : Ty) (isWritten : Bool) :
    Resolver Expression := do
  match Conversion.classify e.ty target with
  | .none =>
    if e.ty ≠ .unknown ∧ target ≠ .unknown then report span (.cannotConvert e.ty target)
    return .error
  | .identity => return e
  | .silent => return .convert target e
  | .explicit =>
    if !isWritten then report span (.cannotConvert e.ty target)
    return .convert target e

def named (identifier : Token) : Resolver Expression := do
  if identifier.isMissing then return .error
  match ← lookupVariable identifier.text with
  | some v => return .var v
  | none =>
    report identifier.span (.variableMissing identifier.text)
    return .error

/-- An assignment of a value that is written at `span`. A name that stands for nothing leaves the
value alone. -/
def assigned (identifier equals : Token) (span : Span) (value : Expression) :
    Resolver Expression := do
  match ← lookupVariable identifier.text with
  | none =>
    report identifier.span (.variableMissing identifier.text)
    return value
  | some v =>
    if v.readOnly then report equals.span (.readOnly identifier.text)
    return .assign v (← convert span value v.ty false)

def unary (sign : Token) (operand : Expression) : Resolver Expression := do
  if operand.ty = .unknown then return .error
  match UnaryOperator.find? sign.kind operand.ty with
  | some o => return .unary o operand
  | none =>
    report sign.span (.unaryUndefined sign.text operand.ty)
    return .error

def binary (left : Expression) (sign : Token) (right : Expression) : Resolver Expression := do
  if left.ty = .unknown ∨ right.ty = .unknown then return .error
  match BinaryOperator.find? sign.kind left.ty right.ty with
  | some o => return .binary left o right
  | none =>
    report sign.span (.binaryUndefined sign.text left.ty right.ty)
    return .error

/-- Whether each argument has its parameter's type. Each that has another known type is reported at
its span. -/
def matchArguments (function : String) :
    List Variable → List Expression → List Span → Resolver Bool
  | v :: vs, e :: es, span :: spans => do
    if e.ty = v.ty then matchArguments function vs es spans
    else
      if e.ty ≠ .unknown then report span (.argumentType function v.name v.ty e.ty)
      let _ ← matchArguments function vs es spans
      return false
  | _, _, _ => return true

def called (identifier : Token) (span : Span) (arguments : List Expression) (spans : List Span) :
    Resolver Expression := do
  match ← lookupFunction identifier.text with
  | none =>
    report identifier.span (.functionMissing identifier.text)
    return .error
  | some f =>
    if arguments.length ≠ f.parameters.length then
      report span (.argumentCount identifier.text f.parameters.length arguments.length)
      return .error
    else if ← matchArguments identifier.text f.parameters arguments spans then
      return .call f arguments
    else return .error

mutual

/-- An expression, which may be a call that gives no value. -/
def expression : Tree.Expression → Resolver Expression
  | .literal _ v => return .literal v
  | .name identifier => named identifier
  | .unary sign operand => do
    let e ← needValue operand.span (← expression operand)
    unary sign e
  | .binary left sign right => do
    let e ← needValue left.span (← expression left)
    let e' ← needValue right.span (← expression right)
    binary e sign e'
  | .group _ inner _ => do needValue inner.span (← expression inner)
  | .assign identifier equals value => do
    let e ← needValue value.span (← expression value)
    assigned identifier equals value.span e
  | .call identifier opening arguments closing => do
    let es ← expressions arguments
    let spans := arguments.map Tree.Expression.span
    match es, spans, Ty.written? identifier.text with
    | [e], [span], some target => convert span e target true
    | _, _, _ =>
      called identifier (Tree.Expression.call identifier opening arguments closing).span es spans

def expressions : List Tree.Expression → Resolver (List Expression)
  | [] => return []
  | e :: rest => do
    let first ← needValue e.span (← expression e)
    return first :: (← expressions rest)

end

def value (e : Tree.Expression) : Resolver Expression := do needValue e.span (← expression e)

def valueOf (target : Ty) (e : Tree.Expression) : Resolver Expression := do
  convert e.span (← value e) target false

end SmallScript.Resolver
