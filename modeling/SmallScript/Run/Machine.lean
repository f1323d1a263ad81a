import SmallScript.Run.Arithmetic
import SmallScript.Symbol
import SmallScript.Value

namespace SmallScript

/-- Each variable comes once, in the order of its first value. -/
structure Store where
  entries : List (Variable × Value)

namespace Store

def empty : Store := ⟨[]⟩

def getEntry? (v : Variable) : List (Variable × Value) → Option Value
  | [] => none
  | (w, y) :: rest => if v = w then some y else getEntry? v rest

def setEntry (v : Variable) (x : Value) : List (Variable × Value) → List (Variable × Value)
  | [] => [(v, x)]
  | (w, y) :: rest => if v = w then (v, x) :: rest else (w, y) :: setEntry v x rest

def get? (s : Store) (v : Variable) : Option Value := getEntry? v s.entries

def set (s : Store) (v : Variable) (x : Value) : Store := ⟨setEntry v x s.entries⟩

theorem getEntry?_setEntry (v w : Variable) (x : Value) (entries : List (Variable × Value)) :
    getEntry? w (setEntry v x entries) = if w = v then some x else getEntry? w entries := by
  induction entries with
  | nil => rfl
  | cons e rest ih =>
    by_cases hv : v = e.1
    · subst hv
      by_cases h : w = e.1 <;> simp [setEntry, getEntry?, h]
    · by_cases h : w = e.1
      · simp [setEntry, getEntry?, hv, h, Ne.symm hv]
      · simp [setEntry, getEntry?, hv, h, ih]

theorem get?_set (s : Store) (v w : Variable) (x : Value) :
    (s.set v x).get? w = if w = v then some x else s.get? w :=
  getEntry?_setEntry v w x s.entries

theorem get?_empty (v : Variable) : empty.get? v = none := rfl

structure Row where
  name : String
  ty : String
  text : String

/-- The order of rows: by name, then by type, then by text. -/
def Row.le (r s : Row) : Bool :=
  r.name < s.name ||
    (r.name == s.name && (r.ty < s.ty || (r.ty == s.ty && (r.text < s.text || r.text == s.text))))

def rows (s : Store) : List Row :=
  (s.entries.map fun (v, x) ↦ (⟨v.name, x.ty.name, x.text⟩ : Row)).mergeSort Row.le

end Store

/-- The lines still to be read, and the lines printed so far, the first one first. -/
structure Console where
  input : List String
  output : Array String

def Console.readLine (c : Console) : String × Console :=
  match c.input with
  | [] => ("", c)
  | line :: rest => (line, { c with input := rest })

def Console.printLine (c : Console) (line : String) : Console :=
  { c with output := c.output.push line }

/-- A frame for each active call, the innermost first. `steps` counts statements begun, `draws` random
numbers. -/
structure Machine where
  globals : Store
  frames : List Store
  steps : Nat
  draws : Nat
  console : Console

namespace Machine

def start (globals : Store) (console : Console) : Machine := ⟨globals, [], 0, 0, console⟩

/-- The value of a variable. Outside calls, locals are kept among the globals. -/
def get? (m : Machine) (v : Variable) : Option Value :=
  match v.kind, m.frames with
  | .global, _ | _, [] => m.globals.get? v
  | _, frame :: _ => frame.get? v

def set (m : Machine) (v : Variable) (x : Value) : Machine :=
  match v.kind, m.frames with
  | .global, _ | _, [] => { m with globals := m.globals.set v x }
  | _, frame :: rest => { m with frames := frame.set v x :: rest }

theorem get?_set_self (m : Machine) (v : Variable) (x : Value) :
    (m.set v x).get? v = some x := by
  unfold set get?
  cases v.kind <;> cases m.frames <;> simp [Store.get?_set]

end Machine

/-- Why a run has no result: a fault, a builtin without the arguments it needs, or the bound on its
depth came first. -/
inductive Halt
  | fault (f : Fault)
  | stuck
  | unfinished
  deriving DecidableEq

structure Limits where
  steps : Option Nat
  depth : Option Nat
  stream : Nat → Nat

abbrev Run := EStateM Halt Machine

namespace Run

def fail {α : Type} (f : Fault) : Run α := throw (.fault f)

def ofExcept {α : Type} : Except Fault α → Run α
  | .ok a => pure a
  | .error f => fail f

def tick (limits : Limits) : Run Unit := do
  let m ← get
  match limits.steps with
  | some limit =>
    if limit ≤ m.steps then
      set { m with steps := m.steps + 1 }
      fail (.stepLimitExceeded limit)
    else set { m with steps := m.steps + 1 }
  | none => set { m with steps := m.steps + 1 }

def read (v : Variable) : Run Value := do
  match (← get).get? v with
  | some x => return x
  | none => fail (.unassignedVariable v.name)

def write (v : Variable) (x : Value) : Run Unit := modify (·.set v x)

def checkDepth (limits : Limits) : Run Unit := do
  match limits.depth with
  | some limit => if limit ≤ (← get).frames.length then fail (.callDepthExceeded limit)
  | none => return ()

/-- Runs an action with a frame of its own, which is gone afterwards, also after a fault. -/
def withFrame {α : Type} (frame : Store) (action : Run α) : Run α := fun m ↦
  match action { m with frames := frame :: m.frames } with
  | .ok a m' => .ok a { m' with frames := m'.frames.tail }
  | .error e m' => .error e { m' with frames := m'.frames.tail }

def need : Option Value → Run Value
  | some x => return x
  | none => fail .missingValue

def needInt (x : Option Value) : Run Int32 := do ofExcept (← need x).int?

def needBool (x : Option Value) : Run Bool := do ofExcept (← need x).bool?

def needString (x : Option Value) : Run String := do ofExcept (← need x).string?

end Run

end SmallScript
