import SmallScript.Run.Machine
import SmallScript.Text.Literal

namespace SmallScript

inductive Scalar
  | null
  | bool (b : Bool)
  | natural (n : Nat)
  | string (s : String)
  deriving DecidableEq

namespace Scalar

def isSpace (c : Char) : Bool := c == ' ' || c == '\t' || c == '\n' || c == '\r'

def skipSpace (cs : List Char) : List Char := cs.dropWhile isSpace

def hexDigit? (c : Char) : Option Nat :=
  if c.isDigit then some (c.toNat - '0'.toNat)
  else if 'a' ≤ c ∧ c ≤ 'f' then some (c.toNat - 'a'.toNat + 10)
  else if 'A' ≤ c ∧ c ≤ 'F' then some (c.toNat - 'A'.toNat + 10)
  else none

def unit? (a b c d : Char) : Option Nat := do
  return ((← hexDigit? a) * 16 + (← hexDigit? b)) * 256 + ((← hexDigit? c) * 16 + (← hexDigit? d))

def isHigh (n : Nat) : Bool := 0xD800 ≤ n && n < 0xDC00

def isLow (n : Nat) : Bool := 0xDC00 ≤ n && n < 0xE000

/-- The character that a high and a low unit write together. -/
def pairChar (high low : Nat) : Char :=
  Char.ofNat (0x10000 + (high - 0xD800) * 0x400 + (low - 0xDC00))

def escaped? : Char → Option Char
  | '"' => some '"'
  | '\\' => some '\\'
  | '/' => some '/'
  | 'b' => some '\x08'
  | 'f' => some '\x0c'
  | 'n' => some '\n'
  | 'r' => some '\r'
  | 't' => some '\t'
  | _ => none

def consChar (c : Char) (r : Option (List Char × List Char)) : Option (List Char × List Char) :=
  r.map fun (s, rest) ↦ (c :: s, rest)

/-- What a string holds, after its opening quote, and the text behind its closing one. Control
characters and half pairs are refused. -/
def stringBody? : List Char → Option (List Char × List Char)
  | [] => none
  | '"' :: rest => some ([], rest)
  | '\\' :: 'u' :: a :: b :: c :: d :: rest =>
    match unit? a b c d with
    | none => none
    | some n =>
      if isLow n then none
      else if isHigh n then
        match rest with
        | '\\' :: 'u' :: e :: f :: g :: h :: rest =>
          match unit? e f g h with
          | none => none
          | some m => if isLow m then consChar (pairChar n m) (stringBody? rest) else none
        | _ => none
      else consChar (Char.ofNat n) (stringBody? rest)
  | '\\' :: c :: rest =>
    match escaped? c with
    | none => none
    | some e => consChar e (stringBody? rest)
  | c :: rest => if c.toNat < 0x20 ∨ c = '\\' then none else consChar c (stringBody? rest)

def string? : List Char → Option (String × List Char)
  | '"' :: rest => (stringBody? rest).map fun (s, rest) ↦ (String.ofList s, rest)
  | _ => none

def greatest : Nat := UInt64.size - 1

/-- A number of 64 bits, without needless zeros, a fraction or an exponent. -/
def natural? (cs : List Char) : Option (Nat × List Char) :=
  let digits := cs.takeWhile Char.isDigit
  let rest := cs.dropWhile Char.isDigit
  let needless := digits.head? = some '0' ∧ digits.length ≠ 1
  let goesOn := rest.head?.any fun c ↦ c == '.' || c == 'e' || c == 'E'
  match Decimal.natural? digits with
  | none => none
  | some n => if needless ∨ goesOn ∨ greatest < n then none else some (n, rest)

/-- A plain value at the front of a text, and the text behind it. -/
def read? (cs : List Char) : Option (Scalar × List Char) :=
  match cs with
  | 'n' :: 'u' :: 'l' :: 'l' :: rest => some (null, rest)
  | 't' :: 'r' :: 'u' :: 'e' :: rest => some (bool true, rest)
  | 'f' :: 'a' :: 'l' :: 's' :: 'e' :: rest => some (bool false, rest)
  | '"' :: _ => (string? cs).map fun (s, rest) ↦ (string s, rest)
  | _ => (natural? cs).map fun (n, rest) ↦ (natural n, rest)

end Scalar

structure Options where
  emitTree : Bool
  stepLimit : Option Nat
  maxCallDepth : Option Nat
  randomSeed : Option Nat
  logLevel : Option String

namespace Options

/-- Nothing is shown, and nothing is limited but what always is. -/
def standard : Options := ⟨false, none, none, none, none⟩

/-- Calls may nest this deep where no other limit is given. -/
def standardDepth : Nat := 1000

def callDepth (o : Options) : Nat := o.maxCallDepth.getD standardDepth

end Options

/-- Mixes the bits of a word, so that near words give far ones. -/
def mixBits (x : UInt64) : UInt64 :=
  let x := (x ^^^ (x >>> 30)) * 0xBF58476D1CE4E5B9
  let x := (x ^^^ (x >>> 27)) * 0x94D049BB133111EB
  x ^^^ (x >>> 31)

/-- The numbers that a seed stands for. This is a stand-in for a generator in use, whose numbers are others:
what it has in common with one is that equal seeds give equal numbers. -/
def randomStream (seed : Nat) (i : Nat) : Nat :=
  (mixBits (seed.toUInt64 + (i + 1).toUInt64 * 0x9E3779B97F4A7C15)).toNat

namespace Options

/-- The limits of a run. Without a seed, `chance` takes its place. -/
def limits (o : Options) (chance : Nat) : Limits :=
  ⟨o.stepLimit, some o.callDepth, randomStream (o.randomSeed.getD chance)⟩

inductive Field
  | emitTree
  | stepLimit
  | maxCallDepth
  | randomSeed
  | logLevel
  deriving DecidableEq

namespace Field

def all : List Field := [emitTree, stepLimit, maxCallDepth, randomSeed, logLevel]

def name : Field → String
  | emitTree => "emitTree"
  | stepLimit => "stepLimit"
  | maxCallDepth => "maxCallDepth"
  | randomSeed => "randomSeed"
  | logLevel => "logLevel"

def find? (name : String) : Option Field := all.find? fun f ↦ f.name == name

end Field

/-- The options with a field changed. Only a value that fits the field is taken. -/
def put? (o : Options) : Field → Scalar → Option Options
  | .emitTree, .bool b => some { o with emitTree := b }
  | .stepLimit, .null => some { o with stepLimit := none }
  | .stepLimit, .natural n => some { o with stepLimit := some n }
  | .maxCallDepth, .null => some { o with maxCallDepth := none }
  | .maxCallDepth, .natural n => some { o with maxCallDepth := some n }
  | .randomSeed, .null => some { o with randomSeed := none }
  | .randomSeed, .natural n => some { o with randomSeed := some n }
  | .logLevel, .null => some { o with logLevel := none }
  | .logLevel, .string s => some { o with logLevel := some s }
  | _, _ => none

open Scalar (skipSpace)

/-- The members of an object from a name on, at most `n`, and the text behind its brace. -/
def members? : (n : Nat) → (seen : List Field) → Options → List Char → Option (Options × List Char)
  | 0, _, _, _ => none
  | n + 1, seen, o, cs => do
    let (name, cs) ← Scalar.string? cs
    let field ← Field.find? name
    if field ∈ seen then none
    let ':' :: cs := skipSpace cs | none
    let (value, cs) ← Scalar.read? (skipSpace cs)
    let o ← o.put? field value
    match skipSpace cs with
    | '}' :: cs => some (o, cs)
    | ',' :: cs => members? n (field :: seen) o (skipSpace cs)
    | _ => none

/-- The items of an array for some fields, the first in front, and the text behind its bracket. -/
def items? : List Field → Options → List Char → Option (Options × List Char)
  | [], _, _ => none
  | field :: later, o, cs => do
    let (value, cs) ← Scalar.read? cs
    let o ← o.put? field value
    match skipSpace cs with
    | ']' :: cs => some (o, cs)
    | ',' :: cs => items? later o (skipSpace cs)
    | _ => none

def body? : List Char → Option (Options × List Char)
  | '{' :: cs =>
    match skipSpace cs with
    | '}' :: cs => some (standard, cs)
    | cs => members? Field.all.length [] standard cs
  | '[' :: cs =>
    match skipSpace cs with
    | ']' :: cs => some (standard, cs)
    | cs => items? Field.all standard cs
  | _ => none

/-- The options that a configuration gives; none if it is not one. -/
def ofConfig? (text : String) : Option Options := do
  let (o, rest) ← body? (skipSpace text.toList)
  if skipSpace rest = [] then some o else none

end Options

end SmallScript
