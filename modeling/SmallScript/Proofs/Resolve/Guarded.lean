import SmallScript.Proofs.Resolve.Loops
import SmallScript.Resolve.Layer

namespace SmallScript

open Code (Expression Statement)

namespace Scopes

variable {α : Type}

/-- What the first scope has that has something, from one scope outward. There is no answer where a scope on the
way does not exist, nor where the way is longer than `n`. -/
def nearest? (s : Scopes) (find : Frame → Option α) : (n scope : Nat) → Option (Option α)
  | 0, _ => none
  | n + 1, scope => do
    let f ← s.frames[scope]?
    match find f, f.parent with
    | some a, _ => return some a
    | none, some parent => s.nearest? find n parent
    | none, none => return none

theorem Ordered.nearest?_eq {s : Scopes} (h : s.Ordered) (find : Frame → Option α) {n scope : Nat} (hn : scope < n)
    (hscope : scope < s.frames.size) : s.nearest? find n scope = some ((s.outward n scope).findSome? find) := by
  induction n generalizing scope with
  | zero => nomatch hn
  | succ n ih =>
    obtain ⟨f, hf⟩ : ∃ f, s.frames[scope]? = some f := ⟨_, Array.getElem?_eq_getElem hscope⟩
    simp only [nearest?, outward, hf, Option.bind_eq_bind, Option.bind_some, List.findSome?_cons]
    cases hfind : find f with
    | some a => rfl
    | none =>
      cases hp : f.parent with
      | none => rfl
      | some parent =>
        have hlt := h scope f parent hf hp
        exact ih (by omega) (by omega)

/-- Declares a variable in a scope that exists, and tells whether its name was free. -/
def addVariable? (s : Scopes) (scope : Nat) (v : Variable) : Option (Bool × Scopes) := do
  let f ← s.frames[scope]?
  if (f.lookupVariable v.name).isSome then return (false, s)
  return (true, ⟨s.frames.set! scope { f with vars := f.vars ++ [v] }⟩)

def addFunction? (s : Scopes) (scope : Nat) (g : Function) : Option (Bool × Scopes) := do
  let f ← s.frames[scope]?
  if (f.lookupFunction g.name).isSome then return (false, s)
  return (true, ⟨s.frames.set! scope { f with functions := f.functions ++ [g] }⟩)

variable {s : Scopes} {scope : Nat} (h : scope < s.frames.size)
include h

theorem addVariable?_eq (v : Variable) : s.addVariable? scope v =
    some ((s.declareVariable? scope v).isSome, (s.declareVariable? scope v).getD s) := by
  have hf : s.frames[scope]? = some s.frames[scope] := Array.getElem?_eq_getElem h
  simp only [addVariable?, declareVariable?, hf, Option.bind_eq_bind, Option.bind_some]
  split <;> rfl

theorem addFunction?_eq (g : Function) : s.addFunction? scope g =
    some ((s.declareFunction? scope g).isSome, (s.declareFunction? scope g).getD s) := by
  have hf : s.frames[scope]? = some s.frames[scope] := Array.getElem?_eq_getElem h
  simp only [addFunction?, declareFunction?, hf, Option.bind_eq_bind, Option.bind_some]
  split <;> rfl

end Scopes

/-- Actions that come to a stop at a scope that does not exist, where those of a resolver would find nothing. -/
abbrev Guarded := StateT Resolution Option

namespace Guarded

open Resolver (report freshSymbol clauseType? needValue convert unary binary matchArguments jump parameters)

/-- Actions that come to no scope are the same. -/
instance : MonadLift Resolver Guarded := ⟨fun m r ↦ some (m r)⟩

def lookupVariable (name : String) : Guarded (Option Variable) := fun r ↦
  (r.scopes.nearest? (·.lookupVariable name) r.scopes.frames.size r.scope).map (·, r)

def lookupFunction (name : String) : Guarded (Option Function) := fun r ↦
  (r.scopes.nearest? (·.lookupFunction name) r.scopes.frames.size r.scope).map (·, r)

def declareVariable (v : Variable) : Guarded Bool := fun r ↦ do
  let (isFree, scopes) ← r.scopes.addVariable? r.scope v
  return (isFree, { r with scopes })

def declareFunction (f : Function) : Guarded Bool := fun r ↦ do
  let (isFree, scopes) ← r.scopes.addFunction? r.scope f
  return (isFree, { r with scopes })

def scopeVariables : Guarded (List Variable) := fun r ↦ (r.scopes.frames[r.scope]?).map (·.vars, r)

def inside {α : Type} (action : Guarded α) : Guarded α := do
  let outer ← Resolver.enter
  let result ← action
  Resolver.leave outer
  return result

def insideLoop {α : Type} (action : Guarded α) : Guarded (α × Exits) := do
  let exits ← modifyGet fun r ↦
    let n := r.loopCount + 1
    let exits : Exits := ⟨.breakOf n, .continueOf n⟩
    (exits, { r with loopCount := n, loops := exits :: r.loops })
  let result ← action
  modify fun r ↦ { r with loops := r.loops.tail }
  return (result, exits)

def named (identifier : Token) : Guarded Expression := do
  if identifier.isMissing then return .error
  match ← lookupVariable identifier.text with
  | some v => return .var v
  | none =>
    report identifier.span (.variableMissing identifier.text)
    return .error

def assigned (identifier equals : Token) (span : Span) (value : Expression) : Guarded Expression := do
  match ← lookupVariable identifier.text with
  | none =>
    report identifier.span (.variableMissing identifier.text)
    return value
  | some v =>
    if v.readOnly then report equals.span (.readOnly identifier.text)
    return .assign v (← convert span value v.ty false)

def called (identifier : Token) (span : Span) (arguments : List Expression) (spans : List Span) :
    Guarded Expression := do
  match ← lookupFunction identifier.text with
  | none =>
    report identifier.span (.functionMissing identifier.text)
    return .error
  | some f =>
    if arguments.length ≠ f.parameters.length then
      report span (.argumentCount identifier.text f.parameters.length arguments.length)
      return .error
    else if ← matchArguments identifier.text f.parameters arguments spans then
      return .call f arguments
    else return .error

mutual

def expression : Tree.Expression → Guarded Expression
  | .literal _ v => return .literal v
  | .name identifier => named identifier
  | .unary sign operand => do
    let e ← needValue operand.span (← expression operand)
    unary sign e
  | .binary left sign right => do
    let e ← needValue left.span (← expression left)
    let e' ← needValue right.span (← expression right)
    binary e sign e'
  | .group _ inner _ => do needValue inner.span (← expression inner)
  | .assign identifier equals value => do
    let e ← needValue value.span (← expression value)
    assigned identifier equals value.span e
  | .call identifier opening arguments closing => do
    let es ← expressions arguments
    let spans := arguments.map Tree.Expression.span
    match es, spans, Ty.written? identifier.text with
    | [e], [span], some target => convert span e target true
    | _, _, _ =>
      called identifier (Tree.Expression.call identifier opening arguments closing).span es spans

def expressions : List Tree.Expression → Guarded (List Expression)
  | [] => return []
  | e :: rest => do
    let first ← needValue e.span (← expression e)
    return first :: (← expressions rest)

end

def value (e : Tree.Expression) : Guarded Expression := do needValue e.span (← expression e)

def valueOf (target : Ty) (e : Tree.Expression) : Guarded Expression := do
  convert e.span (← value e) target false

def declared (owner : Option Function) (identifier : Token) (readOnly : Bool) (ty : Ty) : Guarded Variable := do
  let name := if identifier.isMissing then "?" else identifier.text
  let kind := if owner.isSome then .local else .global
  let v : Variable := ⟨← freshSymbol, name, kind, ty, readOnly⟩
  if !identifier.isMissing then
    if !(← declareVariable v) then report identifier.span (.variableRedeclared name)
  return v

def declaration (owner : Option Function) (keyword identifier : Token) (clause : Option Tree.TypeClause)
    (initializer : Tree.Expression) : Guarded Statement := do
  let written ← clauseType? clause
  let e ← value initializer
  let ty := written.getD e.ty
  let v ← declared owner identifier (keyword.kind == .word .letName) ty
  return .declare v (← convert initializer.span e ty false)

def leaving (owner : Option Function) (keyword : Token) (e : Option Tree.Expression) : Guarded Statement := do
  let result ← e.mapM value
  match owner with
  | none =>
    report keyword.span .returnOutsideFunction
    return .leave result
  | some f =>
    match e, result with
    | some e, some r =>
      if f.returns = .void then
        report e.span (.voidReturnsValue f.name)
        return .leave result
      else return .leave (some (← convert e.span r f.returns false))
    | _, _ =>
      if f.returns ≠ .void then report keyword.span (.returnValueMissing f.returns)
      return .leave none

mutual

def statement (owner : Option Function) : Tree.Statement → Guarded Statement
  | .block _ inner _ => return .block (← inside (statements owner inner))
  | .declare keyword identifier clause _ initializer =>
    declaration owner keyword identifier clause initializer
  | .ifThen _ condition branch => do
    let e ← valueOf .bool condition
    return .ifThen e (← statement owner branch)
  | .ifElse _ condition branch _ otherwise => do
    let e ← valueOf .bool condition
    let first ← statement owner branch
    return .ifElse e first (← statement owner otherwise)
  | .whileLoop _ condition body => do
    let e ← valueOf .bool condition
    let (turn, exits) ← insideLoop (statement owner body)
    return .whileLoop e turn exits
  | .doLoop _ body _ condition => do
    let (turn, exits) ← insideLoop (statement owner body)
    return .doLoop turn (← valueOf .bool condition) exits
  | .forLoop _ identifier _ lower _ upper body => do
    let first ← valueOf .int lower
    let last ← valueOf .int upper
    inside do
      let v ← declared owner identifier true .int
      let (turn, exits) ← insideLoop (statement owner body)
      return .forLoop v first last turn exits
  | .breakLoop keyword => jump keyword Exits.leave
  | .continueLoop keyword => jump keyword Exits.again
  | .leave keyword e => leaving owner keyword e
  | .expression e => return .expression (← expression e)

def statements (owner : Option Function) : List Tree.Statement → Guarded (List Statement)
  | [] => return []
  | s :: rest => do
    let first ← statement owner s
    return first :: (← statements owner rest)

end

def functionHead (text : Tree.Function) : Guarded (Option FunctionText) := do
  let params ← parameters [] text.parameters
  let returns ← clauseType? text.clause
  let name := text.identifier
  let f : Function := ⟨.declared (← freshSymbol), name.text, params, returns.getD .void⟩
  if name.isMissing then return none
  if ← declareFunction f then return some ⟨f, text⟩
  report name.span (.functionRedeclared name.text)
  return none

def functionHeads : List Tree.Member → Guarded (List FunctionText)
  | [] => return []
  | .statement _ :: rest => functionHeads rest
  | .function text :: rest => do
    match ← functionHead text with
    | some f => return f :: (← functionHeads rest)
    | none => functionHeads rest

def layer (source : Tree.Source) : Guarded Layer := do
  let functions ← functionHeads source.members
  let body ← statements none (source.members.filterMap Resolver.memberStatement?)
  let vars ← scopeVariables
  let r ← get
  return ⟨functions, vars, body, r.reports.reverse⟩

end Guarded

end SmallScript
