import SmallScript.Code.Printer
import SmallScript.Flow.Graph
import SmallScript.Resolve.Layer

namespace SmallScript

open Code (Body)

/-- The functions of the latest layer come first. -/
structure Program where
  functions : List (Function × Body)
  main : Body
  reports : List Report

/-- The flat body of a function, what is wrong with it, and the next free number for a symbol. -/
structure FunctionBody where
  body : Body
  reports : List Report
  nextSymbol : Nat

/-- The body of a function, resolved on top of all layers. One that gives a value has to return on
every path. -/
def FunctionText.body (f : FunctionText) (layers : Layers) (nextSymbol : Nat) : FunctionBody :=
  let start := layers.start nextSymbol
  let scopes := f.function.parameters.foldl
    (fun s v ↦ (s.declareVariable? start.scope v).getD s) start.scopes
  let action := Resolver.inside (Resolver.statements (some f.function) f.text.body.statements)
  let (statements, r) := action { start with scopes }
  let (body, nextSymbol) := Code.flattenBody statements r.nextSymbol
  let missing : List Report :=
    if f.function.returns ≠ .void ∧ !Flow.alwaysReturns body then
      [⟨f.text.identifier.span, .pathWithoutReturn⟩]
    else []
  ⟨body, r.reports.reverse ++ missing, nextSymbol⟩

namespace Program

/-- The bodies of some functions, what is wrong with them, and the next free number for a symbol. -/
def functionBodies (layers : Layers) (nextSymbol : Nat) :
    List FunctionText → List (Function × Body) × List Report × Nat
  | [] => ([], [], nextSymbol)
  | f :: rest =>
    let first := f.body layers nextSymbol
    let (bodies, reports, next) := functionBodies layers first.nextSymbol rest
    ((f.function, first.body) :: bodies, first.reports ++ reports, next)

def ofLayers (layers : Layers) (nextSymbol : Nat) : Program × Nat :=
  let (functions, reports, next) := functionBodies layers nextSymbol (layers.flatMap (·.functions))
  let statements := layers.head?.elim [] Layer.statements
  let (main, next) := Code.flattenBody statements next
  (⟨functions, main, reports⟩, next)

def body? (p : Program) (f : Function) : Option Body := p.functions.lookup f

/-- The first body of a function with a name, or that of the statements outside functions. -/
def bodyNamed? (p : Program) : Option String → Option Body
  | none => some p.main
  | some name => (p.functions.find? fun f ↦ f.1.name == name).map Prod.snd

/-- The whole program as text, each function behind its head, then the statements. -/
def text (p : Program) : String :=
  let function (f : Function × Body) : String :=
    Code.linesText (Code.headLine f.1 :: Code.Statement.lines 0 (.block f.2))
  String.join (p.functions.map function) ++ Code.linesText (Code.Statement.lines 0 (.block p.main))

end Program

end SmallScript
