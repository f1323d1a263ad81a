import SmallScript.Options.Config
import SmallScript.Run.Evaluate
import SmallScript.Tree.ReadSource

namespace SmallScript

/-- `nextSymbol` is the next free number for a symbol. -/
structure Compilation where
  tree : Tree
  layers : Layers
  program : Program
  nextSymbol : Nat

/-- How a run went: it was refused, gave a last value, failed, got stuck, or was unfinished. -/
inductive Outcome
  | refused (reports : List Report)
  | finished (value : Option Value)
  | failed (fault : Fault)
  | stuck
  | unfinished

structure Evaluation where
  outcome : Outcome
  globals : Store
  console : Console

namespace Compilation

/-- Compiles a text on top of earlier layers, with symbols numbered from `nextSymbol` on. -/
def ofText (text : String) (earlier : Layers) (nextSymbol : Nat) : Compilation :=
  let tree := Tree.ofText text
  let (layer, next) := Layer.ofSource earlier tree.source nextSymbol
  let (program, next) := Program.ofLayers (layer :: earlier) next
  ⟨tree, layer :: earlier, program, next⟩

def first (text : String) : Compilation := ofText text [] Builtin.firstFree

def next (c : Compilation) (text : String) : Compilation := ofText text c.layers c.nextSymbol

/-- A text on top of others, each of them on top of those before it. -/
def chain : (earlier : List String) → (text : String) → Compilation
  | [], text => first text
  | t :: rest, text => (rest.foldl next (first t)).next text

def isChained (c : Compilation) : Bool := 1 < c.layers.length

def layer? (c : Compilation) : Option Layer := c.layers.head?

/-- The reports on the text itself, then those on the meaning of all texts. -/
def reports (c : Compilation) : List Report := c.tree.reports ++ c.layers.reports

/-- What keeps a compilation from running: its reports, or else those on function bodies. -/
def obstacles (c : Compilation) : List Report :=
  if c.reports.isEmpty then c.program.reports else c.reports

/-- Runs a compilation unless something is reported. The number `n` bounds the run. -/
def evaluate (c : Compilation) (limits : Limits) (n : Nat) (globals : Store) (console : Console) :
    Evaluation :=
  if c.obstacles.isEmpty then
    match c.program.run limits n (.start globals console) with
    | .ok value m => ⟨.finished value, m.globals, m.console⟩
    | .error (.fault f) m => ⟨.failed f, m.globals, m.console⟩
    | .error .stuck m => ⟨.stuck, m.globals, m.console⟩
    | .error .unfinished m => ⟨.unfinished, m.globals, m.console⟩
  else ⟨.refused c.obstacles, globals, console⟩

end Compilation

end SmallScript
