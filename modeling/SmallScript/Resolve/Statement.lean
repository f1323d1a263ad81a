import SmallScript.Resolve.Expression

namespace SmallScript.Resolver

open Code (Statement)

/-- Declares a variable, global outside functions. A name that is missing is not declared. -/
def declared (owner : Option Function) (identifier : Token) (readOnly : Bool) (ty : Ty) :
    Resolver Variable := do
  let name := if identifier.isMissing then "?" else identifier.text
  let kind := if owner.isSome then .local else .global
  let v : Variable := ⟨← freshSymbol, name, kind, ty, readOnly⟩
  if !identifier.isMissing then
    if !(← declareVariable v) then report identifier.span (.variableRedeclared name)
  return v

/-- A declaration. Where no type is written, the initializer gives it. -/
def declaration (owner : Option Function) (keyword identifier : Token)
    (clause : Option Tree.TypeClause) (initializer : Tree.Expression) : Resolver Statement := do
  let written ← clauseType? clause
  let e ← value initializer
  let ty := written.getD e.ty
  let v ← declared owner identifier (keyword.kind == .word .letName) ty
  return .declare v (← convert initializer.span e ty false)

def jump (keyword : Token) (target : Exits → Label) : Resolver Statement := do
  match (← get).loops with
  | exits :: _ => return .goto (target exits)
  | [] =>
    report keyword.span (.outsideLoop keyword.text)
    return .expression .error

/-- A return. A function that gives a value needs one here, and no other may have one. -/
def leaving (owner : Option Function) (keyword : Token) (e : Option Tree.Expression) :
    Resolver Statement := do
  let result ← e.mapM value
  match owner with
  | none =>
    report keyword.span .returnOutsideFunction
    return .leave result
  | some f =>
    match e, result with
    | some e, some r =>
      if f.returns = .void then
        report e.span (.voidReturnsValue f.name)
        return .leave result
      else return .leave (some (← convert e.span r f.returns false))
    | _, _ =>
      if f.returns ≠ .void then report keyword.span (.returnValueMissing f.returns)
      return .leave none

mutual

/-- A statement of the function `owner`, or outside functions. -/
def statement (owner : Option Function) : Tree.Statement → Resolver Statement
  | .block _ inner _ => return .block (← inside (statements owner inner))
  | .declare keyword identifier clause _ initializer =>
    declaration owner keyword identifier clause initializer
  | .ifThen _ condition branch => do
    let e ← valueOf .bool condition
    return .ifThen e (← statement owner branch)
  | .ifElse _ condition branch _ otherwise => do
    let e ← valueOf .bool condition
    let first ← statement owner branch
    return .ifElse e first (← statement owner otherwise)
  | .whileLoop _ condition body => do
    let e ← valueOf .bool condition
    let (turn, exits) ← insideLoop (statement owner body)
    return .whileLoop e turn exits
  | .doLoop _ body _ condition => do
    let (turn, exits) ← insideLoop (statement owner body)
    return .doLoop turn (← valueOf .bool condition) exits
  | .forLoop _ identifier _ lower _ upper body => do
    let first ← valueOf .int lower
    let last ← valueOf .int upper
    inside do
      let v ← declared owner identifier true .int
      let (turn, exits) ← insideLoop (statement owner body)
      return .forLoop v first last turn exits
  | .breakLoop keyword => jump keyword Exits.leave
  | .continueLoop keyword => jump keyword Exits.again
  | .leave keyword e => leaving owner keyword e
  | .expression e => return .expression (← expression e)

def statements (owner : Option Function) : List Tree.Statement → Resolver (List Statement)
  | [] => return []
  | s :: rest => do
    let first ← statement owner s
    return first :: (← statements owner rest)

end

end SmallScript.Resolver
