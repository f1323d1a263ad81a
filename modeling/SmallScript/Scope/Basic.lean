import SmallScript.Symbol

namespace SmallScript

/-- What one scope declares, in order, and the scope around it. -/
structure Frame where
  parent : Option Nat
  vars : List Variable
  functions : List Function

namespace Frame

def lookupVariable (f : Frame) (name : String) : Option Variable :=
  f.vars.find? fun v ↦ v.name == name

def lookupFunction (f : Frame) (name : String) : Option Function :=
  f.functions.find? fun g ↦ g.name == name

end Frame

/-- All scopes made so far. A scope is known by its place among them. -/
structure Scopes where
  frames : Array Frame

namespace Scopes

def root : Scopes := ⟨#[⟨none, [], Builtin.all.map Builtin.function⟩]⟩

/-- The handle of a new scope is its place, a number without bound. Handles of 32 bits are the same as long as
there are no more than `2 ^ 32` scopes. -/
def push (s : Scopes) (parent : Nat) : Nat × Scopes :=
  (s.frames.size, ⟨s.frames.push ⟨some parent, [], []⟩⟩)

def parent? (s : Scopes) (scope : Nat) : Option Nat :=
  s.frames[scope]?.bind Frame.parent

/-- Declares a variable, unless the scope has one of its name. -/
def declareVariable? (s : Scopes) (scope : Nat) (v : Variable) : Option Scopes :=
  match s.frames[scope]? with
  | none => none
  | some f =>
    if (f.lookupVariable v.name).isSome then none
    else some ⟨s.frames.set! scope { f with vars := f.vars ++ [v] }⟩

def declareFunction? (s : Scopes) (scope : Nat) (g : Function) : Option Scopes :=
  match s.frames[scope]? with
  | none => none
  | some f =>
    if (f.lookupFunction g.name).isSome then none
    else some ⟨s.frames.set! scope { f with functions := f.functions ++ [g] }⟩

def outward (s : Scopes) : (n : Nat) → (scope : Nat) → List Frame
  | 0, _ => []
  | n + 1, scope =>
    match s.frames[scope]? with
    | none => []
    | some f => f :: f.parent.elim [] (outward s n)

/-- A scope and those around it. No scope comes twice, so their number is a bound. -/
def chain (s : Scopes) (scope : Nat) : List Frame := s.outward s.frames.size scope

/-- The variable that a name stands for: the nearest declaration outward. -/
def lookupVariable (s : Scopes) (scope : Nat) (name : String) : Option Variable :=
  (s.chain scope).findSome? (·.lookupVariable name)

def lookupFunction (s : Scopes) (scope : Nat) (name : String) : Option Function :=
  (s.chain scope).findSome? (·.lookupFunction name)

def variablesOf (s : Scopes) (scope : Nat) : List Variable :=
  s.frames[scope]?.elim [] Frame.vars

def functionsOf (s : Scopes) (scope : Nat) : List Function :=
  s.frames[scope]?.elim [] Frame.functions

end Scopes

end SmallScript
