import SmallScript.Options.Config
import SmallScript.Text.Literal

namespace SmallScript.CommandLine

inductive Flag
  | config
  | emitTree
  | graph
  | stepLimit
  | maxCallDepth
  | seed
  | plain
  deriving DecidableEq

inductive Flag.Need
  | never
  | ifValue
  | always
  deriving DecidableEq

namespace Flag

def all : List Flag := [config, emitTree, graph, stepLimit, maxCallDepth, seed, plain]

def name : Flag → String
  | config => "config"
  | emitTree => "emit-tree"
  | graph => "cfg"
  | stepLimit => "step-limit"
  | maxCallDepth => "max-call-depth"
  | seed => "seed"
  | plain => "plain"

def find? (name : List Char) : Option Flag := all.find? fun f ↦ f.name.toList == name

def need : Flag → Need
  | emitTree | plain => .never
  | graph => .ifValue
  | config | stepLimit | maxCallDepth | seed => .always

end Flag

inductive Word
  | separator
  | flag (f : Flag) (value : Option String)
  | file (path : String)

/-- A word with a dash in front is no value, unless it is nothing else. -/
def isValue (word : String) : Bool := word == "-" || word.toList.head? != some '-'

/-- A word as flag, file or separator; none if no flag has its name. -/
def Word.ofString? (word : String) : Option Word :=
  match word.toList with
  | ['-', '-'] => some .separator
  | '-' :: '-' :: cs => do
    let f ← Flag.find? (cs.takeWhile (· != '='))
    match cs.dropWhile (· != '=') with
    | _ :: value => return .flag f (some (.ofList value))
    | [] => return .flag f none
  | ['-'] => some (.file word)
  | ['-', 'c'] => some (.flag .config none)
  | '-' :: 'c' :: '=' :: value | '-' :: 'c' :: value => some (.flag .config (some (.ofList value)))
  | '-' :: _ => none
  | _ => some (.file word)

structure Arguments where
  file : Option String
  flags : List (Flag × String)

namespace Arguments

def empty : Arguments := ⟨none, []⟩

def putFile? (a : Arguments) (path : String) : Option Arguments :=
  if a.file.isSome then none else some { a with file := some path }

def putFlag? (a : Arguments) (f : Flag) (value : String) : Option Arguments :=
  if (a.flags.lookup f).isSome then none else some { a with flags := (f, value) :: a.flags }

/-- A number of 64 bits, with or without a plus in front. -/
def number? (value : String) : Option Nat :=
  let digits := match value.toList with
    | '+' :: ds => ds
    | ds => ds
  (Decimal.natural? digits).filter (· < UInt64.size)

def value? (a : Arguments) (f : Flag) : Option String := a.flags.lookup f

def has (a : Arguments) (f : Flag) : Bool := (a.value? f).isSome

def isSound (a : Arguments) : Bool :=
  [Flag.stepLimit, .maxCallDepth, .seed].all fun f ↦
    (a.value? f).all fun value ↦ (number? value).isSome

/-- The options with those of the flags in front of them. A tree is shown if either asks for it. -/
def apply (a : Arguments) (o : Options) : Options :=
  let number (f : Flag) (other : Option Nat) : Option Nat := ((a.value? f).bind number?).or other
  { o with
    emitTree := a.has .emitTree || o.emitTree
    stepLimit := number .stepLimit o.stepLimit
    maxCallDepth := number .maxCallDepth o.maxCallDepth
    randomSeed := number .seed o.randomSeed }

end Arguments

/-- How far words are read. A value may be due for a flag; behind a separator there are files only. -/
structure Reading where
  arguments : Arguments
  due : Option Flag
  onlyFiles : Bool

namespace Reading

def start : Reading := ⟨.empty, none, false⟩

def putFile? (r : Reading) (path : String) : Option Reading := do
  return { r with arguments := ← r.arguments.putFile? path }

def putFlag? (r : Reading) (f : Flag) (value : String) : Option Reading := do
  return { r with arguments := ← r.arguments.putFlag? f value, due := none }

/-- Does without a value that is due, unless the flag needs one. -/
def settle? (r : Reading) : Option Reading :=
  match r.due with
  | none => some r
  | some f => if f.need = .ifValue then r.putFlag? f "" else none

def word? (r : Reading) (word : String) : Option Reading := do
  if r.onlyFiles then return ← r.putFile? word
  match ← Word.ofString? word with
  | .separator => return { r with onlyFiles := true }
  | .file path => r.putFile? path
  | .flag f (some value) => if f.need = .never then none else r.putFlag? f value
  | .flag f none => if f.need = .never then r.putFlag? f "" else some { r with due := some f }

def next? (r : Reading) (word : String) : Option Reading :=
  match r.due with
  | none => r.word? word
  | some f => if isValue word then r.putFlag? f word else r.settle?.bind (·.word? word)

end Reading

/-- The arguments of a command line; none if it cannot be understood. -/
def Arguments.ofWords? (words : List String) : Option Arguments := do
  let r ← (← words.foldlM Reading.next? .start).settle?
  if r.arguments.isSound then some r.arguments else none

end SmallScript.CommandLine
