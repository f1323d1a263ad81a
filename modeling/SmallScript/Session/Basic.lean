import SmallScript.Compilation
import SmallScript.Flow.Graph

namespace SmallScript

/-- `current` is what the next text goes on from; `clean` is the last text about which nothing was
reported before its function bodies. -/
structure Session where
  current : Option Compilation
  clean : Option Compilation
  globals : Store
  console : Console
  nextSymbol : Nat

namespace Session

def start (input : List String) : Session :=
  ⟨none, none, .empty, ⟨input, #[]⟩, Builtin.firstFree⟩

/-- Compiles a text on top of `base`. No other text of the session has symbols of its numbers. -/
def compile (s : Session) (base : Option Compilation) (text : String) : Compilation × Session :=
  let c := Compilation.ofText text (base.elim [] (·.layers)) s.nextSymbol
  (c, { s with nextSymbol := c.nextSymbol, clean := if c.reports.isEmpty then some c else s.clean })

/-- Runs a compilation. It becomes the current one if it finishes. -/
def evaluate (s : Session) (limits : Limits) (n : Nat) (c : Compilation) : Outcome × Session :=
  let e := c.evaluate limits n s.globals s.console
  let current := match e.outcome with
    | .finished _ => some c
    | _ => s.current
  (e.outcome, { s with current, globals := e.globals, console := e.console })

def reset (s : Session) : Session := { s with current := none, clean := none, globals := .empty }

/-- The lines printed, which the session forgets. -/
def takeOutput (s : Session) : List String × Session :=
  (s.console.output.toList, { s with console := { s.console with output := #[] } })

end Session

/-- The graph of a body by name, in the dot format. -/
def Program.dot? (p : Program) (name : Option String) : Option String := do
  let body ← p.bodyNamed? name
  return (← Flow.Graph.ofBody? body).dot

end SmallScript
