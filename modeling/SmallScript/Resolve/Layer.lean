import SmallScript.Resolve.Statement

namespace SmallScript

structure FunctionText where
  function : Function
  text : Tree.Function

/-- The meaning of one text. Its reports are those of this text alone. -/
structure Layer where
  functions : List FunctionText
  vars : List Variable
  statements : List Code.Statement
  reports : List Report

abbrev Layers := List Layer

namespace Layers

def reports (layers : Layers) : List Report := layers.reverse.flatMap Layer.reports

/-- The scopes of some layers inside the scope `parent`, and the innermost of them. -/
def addScopes (s : Scopes) (parent : Nat) : List Layer → Nat × Scopes
  | [] => (parent, s)
  | layer :: later =>
    let (scope, s) := s.push parent
    let s := layer.functions.foldl (fun s f ↦ (s.declareFunction? scope f.function).getD s) s
    let s := layer.vars.foldl (fun s v ↦ (s.declareVariable? scope v).getD s) s
    addScopes s scope later

/-- The start of a text or a body after some layers: a scope of its own, inside those of the layers,
the first of them outermost. -/
def start (layers : Layers) (nextSymbol : Nat) : Resolution :=
  let (parent, scopes) := addScopes .root 0 layers.reverse
  let (scope, scopes) := scopes.push parent
  ⟨scopes, scope, [], 0, nextSymbol, []⟩

end Layers

namespace Resolver

/-- The parameters of a function. One that repeats a name is reported and left out. -/
def parameters (seen : List String) : List Tree.Parameter → Resolver (List Variable)
  | [] => return []
  | p :: rest => do
    let name := p.identifier.text
    let ty ← clauseType? (some p.clause)
    if name ∈ seen then
      report p.span (.parameterRepeated name)
      parameters seen rest
    else
      let v : Variable := ⟨← freshSymbol, name, .parameter, ty.getD .unknown, true⟩
      return v :: (← parameters (name :: seen) rest)

/-- Declares a function, unless its name is missing or taken. Where no return type is written, or none
that exists, it gives no value. -/
def functionHead (text : Tree.Function) : Resolver (Option FunctionText) := do
  let params ← parameters [] text.parameters
  let returns ← clauseType? text.clause
  let name := text.identifier
  let f : Function := ⟨.declared (← freshSymbol), name.text, params, returns.getD .void⟩
  if name.isMissing then return none
  if ← declareFunction f then return some ⟨f, text⟩
  report name.span (.functionRedeclared name.text)
  return none

def functionHeads : List Tree.Member → Resolver (List FunctionText)
  | [] => return []
  | .statement _ :: rest => functionHeads rest
  | .function text :: rest => do
    match ← functionHead text with
    | some f => return f :: (← functionHeads rest)
    | none => functionHeads rest

def memberStatement? : Tree.Member → Option Tree.Statement
  | .statement s => some s
  | .function _ => none

/-- All functions of a text are declared before its statements are resolved. -/
def layer (source : Tree.Source) : Resolver Layer := do
  let functions ← functionHeads source.members
  let body ← statements none (source.members.filterMap memberStatement?)
  let r ← get
  return ⟨functions, r.scopes.variablesOf r.scope, body, r.reports.reverse⟩

end Resolver

/-- The meaning of a text after some layers, and the next free number for a symbol. -/
def Layer.ofSource (earlier : Layers) (source : Tree.Source) (nextSymbol : Nat) : Layer × Nat :=
  let (layer, r) := Resolver.layer source (earlier.start nextSymbol)
  (layer, r.nextSymbol)

end SmallScript
