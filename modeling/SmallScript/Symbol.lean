import SmallScript.Value

namespace SmallScript

inductive Variable.Kind
  | global
  | local
  | parameter
  deriving DecidableEq, Repr

structure Variable where
  id : Nat
  name : String
  kind : Variable.Kind
  ty : Ty
  readOnly : Bool
  deriving DecidableEq, Repr

inductive Builtin
  | print
  | input
  | random
  deriving DecidableEq, Repr

inductive Function.Origin
  | builtin (b : Builtin)
  | declared (id : Nat)
  deriving DecidableEq, Repr

structure Function where
  origin : Function.Origin
  name : String
  parameters : List Variable
  returns : Ty
  deriving DecidableEq, Repr

namespace Builtin

def all : List Builtin := [print, input, random]

def function : Builtin → Function
  | print => ⟨.builtin .print, "print", [⟨0, "text", .parameter, .string, true⟩], .void⟩
  | input => ⟨.builtin .input, "input", [], .string⟩
  | random =>
    ⟨.builtin .random, "random",
      [⟨1, "min", .parameter, .int, true⟩, ⟨2, "max", .parameter, .int, true⟩], .int⟩

/-- The least number that no symbol of a builtin has. -/
def firstFree : Nat := 3

end Builtin

end SmallScript
