import SmallScript.Proofs.Lexical.Uses
import SmallScript.Proofs.Lowered
import SmallScript.Proofs.Run.Entered

namespace SmallScript

open Code (Expression Statement Body AllOf declaredBy)
open scoped List

/-- Whether a call has as many arguments as the function has parameters, of which there are no two the
same. -/
def Function.Placed (f : Function) (n : Nat) : Prop := n = f.parameters.length ∧ f.parameters.Nodup

namespace Code

variable {A : Variable → Prop} {C : Function → Nat → Prop}

end Code

namespace Lexical

theorem placed_callables (sources : List (Tree.Source × Nat)) :
    ∀ f ∈ callables (texts sources), f.Placed f.parameters.length :=
  fun f hf ↦ ⟨rfl, nodup_callables sources f hf⟩

end Lexical

namespace Layers

variable {sources : List (Tree.Source × Nat)} {n m : Nat}

end Layers

/-- A call of a function: its arguments, the machine before them, their values, and the machine that they
leave behind. Of what it calls in turn, `k` calls at most may be active at once. -/
structure Run.Entry where
  k : Nat
  arguments : List Expression
  before : Machine
  values : List Value
  outside : Machine

namespace Run.Entry

variable (e : Entry) (p : Program) (limits : Limits) (f : Function)

/-- The parameters with the values of the arguments, by place. -/
def given : List (Variable × Value) := f.parameters.zip e.values

def frame : Store := .ofPlaces f.parameters e.values

def inside : Machine := { e.outside with frames := e.frame f :: e.outside.frames }

/-- What comes of the call, whether it has a value or not. -/
def result : EStateM.Result Halt Machine (Option Value) :=
  evaluate limits (call p limits e.k) (.call f e.arguments) e.before

def opening : List Moment :=
  argumentMoments limits (call p limits e.k) (callMoments limits p e.k) .empty f.parameters e.arguments e.before

def during : List Moment := callMoments limits p e.k f (e.frame f) e.outside

/-- A call whose body is entered in the course of `l`, with the machine `m`. -/
structure Of (l : List Moment) (m : Machine) : Prop where
  moments : moments limits (call p limits e.k) (callMoments limits p e.k) (.call f e.arguments) e.before =
    e.opening p limits f ++ e.during p limits f
  seen : e.opening p limits f ++ e.during p limits f <:+: l
  passes : checkDepth limits e.before = .ok () e.before
  values : Run.values limits (call p limits e.k) e.arguments e.before = .ok e.values e.outside
  machine : m = e.inside f

end Run.Entry

namespace Run

variable {limits : Limits} {invoke : Invoke} {m m' : Machine}

end Run

namespace Program

variable {p : Program} {limits : Limits} {f : Function} {m : Machine} {l : List Moment}

end Program

namespace Compilation

attribute [local irreducible] ofText

variable {c : Compilation} {earlier : List Compilation}

theorem Chain.calls_main (h : Chain c earlier) :
    ∀ s ∈ c.program.main, ∀ e ∈ s.operand?, e.Respects (fun _ ↦ True) Function.Placed := by
  obtain ⟨sources, hsources, hlayers⟩ := h.exists_ofSources
  obtain ⟨n, hn⟩ := h.program_eq
  cases sources with
  | nil => nomatch hsources
  | cons first rest =>
    obtain ⟨source, k⟩ := first
    rw [hn, hlayers, Layers.ofSources]
    obtain ⟨m, hm⟩ := Program.exists_main_ofLayers (Layer.ofSource (Layers.ofSources rest) source k).1
      (Layers.ofSources rest) n
    rw [hm]
    have hplaced := Lexical.placed_callables ((source, k) :: rest)
    rw [← Layers.meaning_ofSources, Layers.callables_meaning] at hplaced
    exact Layers.calls_main source k m (.of_forall hplaced)

end Compilation

end SmallScript
