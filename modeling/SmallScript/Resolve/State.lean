import SmallScript.Code.Basic
import SmallScript.Report.Basic
import SmallScript.Scope.Basic
import SmallScript.Tree.Basic
import SmallScript.Value

namespace SmallScript

/-- The scopes and the one in force, the loops around, innermost first, the numbers used so far, and
the reports, the latest first. -/
structure Resolution where
  scopes : Scopes
  scope : Nat
  loops : List Exits
  loopCount : Nat
  nextSymbol : Nat
  reports : List Report

abbrev Resolver := StateM Resolution

namespace Resolver

def report (span : Span) (cause : Cause) : Resolver Unit :=
  modify fun r ↦ { r with reports := ⟨span, cause⟩ :: r.reports }

def freshSymbol : Resolver Nat :=
  modifyGet fun r ↦ (r.nextSymbol, { r with nextSymbol := r.nextSymbol + 1 })

def enter : Resolver Nat :=
  modifyGet fun r ↦
    let (inner, scopes) := r.scopes.push r.scope
    (r.scope, { r with scopes := scopes, scope := inner })

def leave (outer : Nat) : Resolver Unit := modify fun r ↦ { r with scope := outer }

/-- Carries out an action in a scope of its own. -/
def inside {α : Type} (action : Resolver α) : Resolver α := do
  let outer ← enter
  let result ← action
  leave outer
  return result

/-- Carries out an action as the body of a new loop, whose labels it gives back. -/
def insideLoop {α : Type} (action : Resolver α) : Resolver (α × Exits) := do
  let exits ← modifyGet fun r ↦
    let n := r.loopCount + 1
    let exits : Exits := ⟨.breakOf n, .continueOf n⟩
    (exits, { r with loopCount := n, loops := exits :: r.loops })
  let result ← action
  modify fun r ↦ { r with loops := r.loops.tail }
  return (result, exits)

def lookupVariable (name : String) : Resolver (Option Variable) :=
  return (← get).scopes.lookupVariable (← get).scope name

def lookupFunction (name : String) : Resolver (Option Function) :=
  return (← get).scopes.lookupFunction (← get).scope name

/-- Declares a variable in the scope in force. The answer tells whether the name was free. -/
def declareVariable (v : Variable) : Resolver Bool :=
  modifyGet fun r ↦
    match r.scopes.declareVariable? r.scope v with
    | some scopes => (true, { r with scopes })
    | none => (false, r)

/-- Declares a function in the scope in force. The answer tells whether the name was free. -/
def declareFunction (f : Function) : Resolver Bool :=
  modifyGet fun r ↦
    match r.scopes.declareFunction? r.scope f with
    | some scopes => (true, { r with scopes })
    | none => (false, r)

/-- The type that a clause names. A type that does not exist is reported; a missing name has been
reported before. -/
def clauseType? : Option Tree.TypeClause → Resolver (Option Ty)
  | none => return none
  | some clause => do
    let name := clause.identifier
    if name.isMissing then return none
    match Ty.written? name.text with
    | some t => return some t
    | none =>
      report name.span (.typeMissing name.text)
      return none

end Resolver

end SmallScript
