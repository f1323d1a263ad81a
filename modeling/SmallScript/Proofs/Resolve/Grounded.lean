import SmallScript.Compilation
import SmallScript.Proofs.Resolve.Fresh
import SmallScript.Proofs.Resolve.Does

namespace SmallScript

open Code (Body)

namespace Scopes

theorem ordered_ofList {fs : List Frame} (hfs : Linear fs) (hne : fs ≠ []) {f : Frame}
    (hf : f.parent = some (fs.length - 1)) : (ofList (fs ++ [f])).Ordered := by
  have hpos := List.length_pos_iff.mpr hne
  intro i g p hg hp
  rw [frames_ofList] at hg
  rcases getElem?_append_singleton hg with hg | ⟨rfl, rfl⟩
  · rw [hfs i g hg] at hp
    split at hp
    · nomatch hp
    · obtain rfl := Option.some.inj hp
      omega
  · rw [hf] at hp
    obtain rfl := Option.some.inj hp
    omega

def addVariables? (s : Scopes) (scope : Nat) (vs : List Variable) : Option Scopes :=
  vs.foldlM (fun s v ↦ (s.addVariable? scope v).map Prod.snd) s

def addFunctions? (s : Scopes) (scope : Nat) (ts : List FunctionText) : Option Scopes :=
  ts.foldlM (fun s t ↦ (s.addFunction? scope t.function).map Prod.snd) s

variable {s : Scopes} {scope : Nat}

theorem addVariables?_eq (h : scope < s.frames.size) (vs : List Variable) :
    s.addVariables? scope vs = some (vs.foldl (fun s v ↦ (s.declareVariable? scope v).getD s) s) := by
  induction vs generalizing s with
  | nil => rfl
  | cons v vs ih =>
    have hsize : scope < ((s.declareVariable? scope v).getD s).frames.size := by rwa [size_declareVariable]
    rw [addVariables?, List.foldlM_cons, addVariable?_eq h]
    exact ih hsize

theorem addFunctions?_eq (h : scope < s.frames.size) (ts : List FunctionText) :
    s.addFunctions? scope ts = some (ts.foldl (fun s t ↦ (s.declareFunction? scope t.function).getD s) s) := by
  induction ts generalizing s with
  | nil => rfl
  | cons t ts ih =>
    have hsize : scope < ((s.declareFunction? scope t.function).getD s).frames.size := by rwa [size_declareFunction]
    rw [addFunctions?, List.foldlM_cons, addFunction?_eq h]
    exact ih hsize

theorem size_addFunctions (s : Scopes) (scope : Nat) (ts : List FunctionText) :
    (ts.foldl (fun s t ↦ (s.declareFunction? scope t.function).getD s) s).frames.size = s.frames.size := by
  induction ts generalizing s with
  | nil => rfl
  | cons t ts ih => exact (ih _).trans (s.size_declareFunction scope t.function)

end Scopes

namespace Layers

theorem stands_start (layers : Layers) (n : Nat) : (layers.start n).Stands := by
  rw [start_eq]
  exact ⟨by simp [Scopes.ofList], Scopes.ordered_ofList layers.linear_frames layers.frames_ne_nil rfl⟩

/-- The scopes of some layers, where each scope that is declared in exists. -/
def addScopes? (s : Scopes) (parent : Nat) : List Layer → Option (Nat × Scopes)
  | [] => some (parent, s)
  | layer :: later => do
    let (scope, s) := s.push parent
    let s ← s.addFunctions? scope layer.functions
    let s ← s.addVariables? scope layer.vars
    addScopes? s scope later

theorem addScopes?_eq (s : Scopes) (parent : Nat) (later : List Layer) :
    addScopes? s parent later = some (addScopes s parent later) := by
  induction later generalizing s parent with
  | nil => rfl
  | cons layer later ih =>
    have hpush : (s.push parent).1 < (s.push parent).2.frames.size := by simp [Scopes.push]
    simp only [addScopes?, addScopes]
    rw [Scopes.addFunctions?_eq hpush, Option.bind_eq_bind, Option.bind_some, Scopes.addVariables?_eq]
    · exact ih _ _
    · rwa [Scopes.size_addFunctions]

def start? (layers : Layers) (nextSymbol : Nat) : Option Resolution := do
  let (parent, scopes) ← addScopes? .root 0 layers.reverse
  let (scope, scopes) := scopes.push parent
  return ⟨scopes, scope, [], 0, nextSymbol, []⟩

theorem start?_eq (layers : Layers) (n : Nat) : layers.start? n = some (layers.start n) := by
  rw [start?, addScopes?_eq]
  rfl

end Layers

/-- The meaning of a text, where each scope that is looked up or declared in exists. -/
def Layer.ofSource? (earlier : Layers) (source : Tree.Source) (nextSymbol : Nat) : Option (Layer × Nat) := do
  let start ← earlier.start? nextSymbol
  let (layer, r) ← Guarded.layer source start
  return (layer, r.nextSymbol)

theorem Layer.ofSource?_eq (earlier : Layers) (source : Tree.Source) (n : Nat) :
    ofSource? earlier source n = some (ofSource earlier source n) := by
  have hlayer := (Guarded.does_layer source (earlier.start n)).2 (earlier.stands_start n)
  rw [ofSource?, Layers.start?_eq, Option.bind_eq_bind, Option.bind_some, hlayer]
  rfl

namespace FunctionText

theorem stands_start (t : FunctionText) (layers : Layers) (n : Nat) : (t.start layers n).Stands := by
  rw [start_eq]
  refine ⟨by simp [Scopes.ofList], ?_⟩
  exact Scopes.ordered_ofList layers.linear_frames layers.frames_ne_nil (t.parent_frame _)

/-- The flat body of a function, where each scope that is looked up or declared in exists. -/
def body? (f : FunctionText) (layers : Layers) (nextSymbol : Nat) : Option FunctionBody := do
  let start ← layers.start? nextSymbol
  let scopes ← start.scopes.addVariables? start.scope f.function.parameters
  let action := Guarded.inside (Guarded.statements (some f.function) f.text.body.statements)
  let (statements, r) ← action { start with scopes }
  let (body, nextSymbol) := Code.flattenBody statements r.nextSymbol
  let missing : List Report :=
    if f.function.returns ≠ .void ∧ !Flow.alwaysReturns body then
      [⟨f.text.identifier.span, .pathWithoutReturn⟩]
    else []
  return ⟨body, r.reports.reverse ++ missing, nextSymbol⟩

theorem body?_eq (t : FunctionText) (layers : Layers) (n : Nat) : t.body? layers n = some (t.body layers n) := by
  have hstatements := (Guarded.Does.inside
    (Guarded.does_statements (some t.function) t.text.body.statements) (t.start layers n)).2 (t.stands_start layers n)
  rw [body?, Layers.start?_eq, Option.bind_eq_bind, Option.bind_some,
    Scopes.addVariables?_eq (layers.stands_start n).scope]
  change (Guarded.inside _ (t.start layers n)).bind _ = _
  rw [hstatements]
  rfl

end FunctionText

namespace Program

def functionBodies? (layers : Layers) (nextSymbol : Nat) :
    List FunctionText → Option (List (Function × Body) × List Report × Nat)
  | [] => some ([], [], nextSymbol)
  | f :: rest => do
    let first ← f.body? layers nextSymbol
    let (bodies, reports, next) ← functionBodies? layers first.nextSymbol rest
    return ((f.function, first.body) :: bodies, first.reports ++ reports, next)

theorem functionBodies?_eq (layers : Layers) (n : Nat) (ts : List FunctionText) :
    functionBodies? layers n ts = some (functionBodies layers n ts) := by
  induction ts generalizing n with
  | nil => rfl
  | cons t rest ih =>
    rw [functionBodies?, t.body?_eq, Option.bind_eq_bind, Option.bind_some, ih]
    rfl

def ofLayers? (layers : Layers) (nextSymbol : Nat) : Option (Program × Nat) := do
  let (functions, reports, next) ← functionBodies? layers nextSymbol (layers.flatMap (·.functions))
  let statements := layers.head?.elim [] Layer.statements
  let (main, next) := Code.flattenBody statements next
  return (⟨functions, main, reports⟩, next)

theorem ofLayers?_eq (layers : Layers) (n : Nat) : ofLayers? layers n = some (ofLayers layers n) := by
  rw [ofLayers?, functionBodies?_eq]
  rfl

end Program

namespace Compilation

/-- Compiles a text as `ofText` does, and stops where a name is looked up or declared in a scope that does not
exist. -/
def ofText? (text : String) (earlier : Layers) (nextSymbol : Nat) : Option Compilation := do
  let tree := Tree.ofText text
  let (layer, next) ← Layer.ofSource? earlier tree.source nextSymbol
  let (program, next) ← Program.ofLayers? (layer :: earlier) next
  return ⟨tree, layer :: earlier, program, next⟩

theorem ofText?_eq (text : String) (earlier : Layers) (n : Nat) :
    ofText? text earlier n = some (ofText text earlier n) := by
  rw [ofText?, ofText]
  generalize Tree.ofText text = tree
  rw [Layer.ofSource?_eq]
  obtain ⟨layer, next⟩ := Layer.ofSource earlier tree.source n
  rw [Option.bind_eq_bind, Option.bind_some]
  dsimp only
  rw [Program.ofLayers?_eq]
  rfl

end Compilation

end SmallScript
