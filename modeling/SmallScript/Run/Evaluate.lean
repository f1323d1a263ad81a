import SmallScript.Program
import SmallScript.Run.Machine

namespace SmallScript

open Code (Expression Statement Body)

namespace Run

/-- A number from `min` up to and without `max`, or `min` where they are equal. -/
def random (limits : Limits) (min max : Int32) : Run Int32 := do
  if max < min then fail (.invalidRandomRange min max)
  else if min = max then return min
  else
    let m ← get
    set { m with draws := m.draws + 1 }
    let width := (max.toInt - min.toInt).toNat
    return .ofInt (min.toInt + limits.stream m.draws % width)

/-- The console takes every line: that writing may fail is left out. -/
def print (line : String) : Run Unit :=
  modify fun m ↦ { m with console := m.console.printLine line }

/-- The next line of the console, or an empty one behind the last. That reading may fail is left out. -/
def input : Run String :=
  modifyGet fun m ↦
    let (line, console) := m.console.readLine
    (line, { m with console })

/-- What a call of a declared function does, given the values of its parameters. -/
abbrev Invoke := Function → Store → Run (Option Value)

mutual

/-- The value of an expression. Only a call may have none. -/
def evaluate (limits : Limits) (invoke : Invoke) : Expression → Run (Option Value)
  | .error => fail (.unexpectedNode Expression.error.nodeName)
  | .literal x => return some x
  | .var v => return some (← read v)
  | .assign v e => do
    let x ← need (← evaluate limits invoke e)
    write v x
    return some x
  | .unary o e => do
    let x ← need (← evaluate limits invoke e)
    return some (← ofExcept (o.action.apply x))
  | .binary e o e' => do
    match o.action with
    | .logicalAnd =>
      if ← needBool (← evaluate limits invoke e) then
        return some (.bool (← needBool (← evaluate limits invoke e')))
      else return some (.bool false)
    | .logicalOr =>
      if ← needBool (← evaluate limits invoke e) then return some (.bool true)
      else return some (.bool (← needBool (← evaluate limits invoke e')))
    | action =>
      let x ← need (← evaluate limits invoke e)
      let y ← need (← evaluate limits invoke e')
      return some (← ofExcept (action.apply x y))
  | .call f arguments => do
    match f.origin, arguments with
    | .builtin .print, e :: _ =>
      print (← needString (← evaluate limits invoke e))
      return none
    | .builtin .input, _ => return some (.string (← input))
    | .builtin .random, e :: e' :: _ =>
      let min ← needInt (← evaluate limits invoke e)
      let max ← needInt (← evaluate limits invoke e')
      return some (.int (← random limits min max))
    | .builtin .random, [e] =>
      let _ ← needInt (← evaluate limits invoke e)
      throw .stuck
    | .builtin _, _ => throw .stuck
    | .declared _, es =>
      checkDepth limits
      invoke f (← bindArguments limits invoke .empty f.parameters es)
  | .convert target e => do
    let x ← need (← evaluate limits invoke e)
    return some (← ofExcept (x.convert target))

/-- A frame with the values of arguments put in for parameters, from the left. -/
def bindArguments (limits : Limits) (invoke : Invoke) (frame : Store) :
    List Variable → List Expression → Run Store
  | v :: vs, e :: es => do
    let x ← need (← evaluate limits invoke e)
    bindArguments limits invoke (frame.set v x) vs es
  | _, _ => return frame

end

/-- Where a body goes on: at a statement, with the last value so far, or nowhere, with its result. -/
inductive Next
  | at (index : Nat) (last : Option Value)
  | done (result : Option Value)

def target (body : Body) (l : Label) : Run Nat :=
  let places := body.zipIdx.filterMap fun (s, i) ↦
    match s with
    | .label m => if m = l then some (i + 1) else none
    | _ => none
  match places.getLast? with
  | some i => return i
  | none => fail (.undefinedLabel l.name)

/-- Carries out the statement before the place `index` of a body. -/
def step (limits : Limits) (invoke : Invoke) (body : Body) (index : Nat) (last : Option Value) :
    Statement → Run Next
  | .declare v e => do
    let x ← need (← evaluate limits invoke e)
    write v x
    return .at index (some x)
  | .expression e => return .at index (← evaluate limits invoke e)
  | .label _ => return .at index last
  | .goto l => return .at (← target body l) last
  | .gotoIf l e negated => do
    let b ← needBool (← evaluate limits invoke e)
    if b = negated then return .at index last else return .at (← target body l) last
  | .leave none => return .done none
  | .leave (some e) => return .done (← evaluate limits invoke e)
  | s => fail (.unexpectedNode s.nodeName)

/-- Runs a body from a place on, at most `n` statements. Its result is what it returns, or else its
last value. -/
def body (limits : Limits) (invoke : Invoke) (statements : Body) :
    (n : Nat) → (index : Nat) → (last : Option Value) → Run (Option Value)
  | 0, _, _ => throw .unfinished
  | n + 1, index, last =>
    match statements[index]? with
    | none => return last
    | some s => do
      tick limits
      match ← step limits invoke statements (index + 1) last s with
      | .at index last => body limits invoke statements n index last
      | .done result => return result

/-- Calls a declared function of a program. At most `n` calls are active, and each runs at most `n`
statements. -/
def call (p : Program) (limits : Limits) : (n : Nat) → Invoke
  | 0, _, _ => throw .unfinished
  | n + 1, f, frame =>
    match p.body? f with
    | none => fail (.missingBody f.name)
    | some statements => do
      let result ← withFrame frame (body limits (call p limits n) statements n 0 none)
      return if f.returns = .void then none else result

end Run

namespace Program

/-- Runs the statements outside functions. The number `n` bounds the calls and the statements of each
call; a run that needs more is unfinished. -/
def run (p : Program) (limits : Limits) (n : Nat) : Run (Option Value) :=
  Run.body limits (Run.call p limits n) p.main n 0 none

end Program

end SmallScript
