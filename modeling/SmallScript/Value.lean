namespace SmallScript

/-- `unknown` is the type of an expression that has none; no complaint follows from it. -/
inductive Ty
  | unknown
  | void
  | bool
  | int
  | string
  deriving DecidableEq, Repr

namespace Ty

def name : Ty → String
  | unknown => "?"
  | void => "void"
  | bool => "bool"
  | int => "int"
  | string => "string"

def written? : String → Option Ty
  | "bool" => some bool
  | "int" => some int
  | "string" => some string
  | _ => none

theorem name_of_written? {word : String} {t : Ty} (h : written? word = some t) : t.name = word := by
  unfold written? at h
  split at h <;> cases h <;> rfl

end Ty

inductive Value
  | int (n : Int32)
  | bool (b : Bool)
  | string (s : String)
  deriving DecidableEq

namespace Value

def ty : Value → Ty
  | int _ => .int
  | bool _ => .bool
  | string _ => .string

def text : Value → String
  | int n => toString n.toInt
  | bool b => if b then "true" else "false"
  | string s => s

end Value

/-- How one type converts to another. No pair of types converts silently yet. -/
inductive Conversion
  | none
  | identity
  | silent
  | explicit
  deriving DecidableEq, Repr

namespace Conversion

def classify (source target : Ty) : Conversion :=
  if source = target then identity
  else match source, target with
    | .bool, .string | .int, .string | .string, .bool | .string, .int => explicit
    | _, _ => none

def exists? (c : Conversion) : Bool := c != none

theorem classify_eq_identity_iff {s t : Ty} : classify s t = identity ↔ s = t := by
  cases s <;> cases t <;> decide

theorem classify_ne_silent (s t : Ty) : classify s t ≠ silent := by
  cases s <;> cases t <;> decide

end Conversion

end SmallScript
