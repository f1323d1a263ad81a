import SmallScript.CommandLine.Arguments
import SmallScript.Options.Config
import SmallScript.Prompt.Basic
import SmallScript.Text.Lines

namespace SmallScript.CommandLine

/-- How the program ends. `broken` stands for a fault that is not the user's. -/
inductive Exit
  | success
  | failure
  | reported
  | faulted
  | broken
  deriving DecidableEq

def Exit.code : Exit → Nat
  | success => 0
  | failure => 1
  | reported => 2
  | faulted => 3
  | broken => 70

structure Result where
  exit : Exit
  transcript : Transcript

abbrev Files := String → Option String

/-- A configuration under this name is used unless another one is asked for. -/
def standardConfig : String := "mica.json"

def misuse : Result := ⟨.reported, .error "the arguments are not understood"⟩

def badConfiguration : Result := ⟨.failure, ⟨"", "failed to load configuration\n"⟩⟩

def unreadable (path : String) : Result := ⟨.failure, ⟨"", s!"failed to read '{path}'\n"⟩⟩

/-- The paths that may be read: that of a configuration, and that of the program. -/
def Arguments.paths (a : Arguments) : List String :=
  (a.value? .config).getD standardConfig :: a.file.toList

/-- The options that hold. None are given if a configuration is asked for and absent, or wrong. -/
def Arguments.options? (a : Arguments) (files : Files) : Option Options :=
  a.apply <$> match a.value? .config with
    | some path => (files path).bind Options.ofConfig?
    | none => (files standardConfig).elim (some .standard) Options.ofConfig?

/-- Shows the graph of a function, or of the statements outside functions where no name is given. -/
def showGraph (function text : String) : Result :=
  let name := if function = "" then none else some function
  match (Compilation.first text).program.dot? name with
  | some dot => ⟨.success, .text dot⟩
  | none => ⟨.failure, .error s!"no function named '{function}'"⟩

/-- Runs a text that has a name. Its last value is not shown. The number `n` bounds the run. -/
def runText (o : Options) (chance n : Nat) (name text : String) (input : List String) : Result :=
  let c := Compilation.first text
  let refusal (rs : List Report) : Transcript := .reports name c.tree.lines rs
  if c.reports.isEmpty then
    let run := c.evaluate (o.limits chance) n .empty ⟨input, #[]⟩
    let shown :=
      (if o.emitTree then .text c.program.text else .silent) ++ .lines run.console.output.toList
    match run.outcome with
    | .refused rs => ⟨.reported, shown ++ refusal rs⟩
    | .finished _ => ⟨.success, shown⟩
    | .failed f => ⟨if f.isInternal then .broken else .faulted, shown ++ .fault f⟩
    | .stuck => ⟨.broken, shown ++ .error "the run got stuck"⟩
    | .unfinished => ⟨.broken, shown ++ .error "the run was given up"⟩
  else ⟨.reported, refusal c.reports⟩

def inputLines (stream : String) : List String :=
  (rawLines stream.toList).map fun line ↦ .ofList (withoutBreaks line)

def promptLines (stream : String) : List String :=
  (rawLines stream.toList).map fun line ↦ .ofList (withoutEnd line)

def runFile (a : Arguments) (o : Options) (files : Files) (chance n : Nat) (path stream : String) :
    Result :=
  match files path, a.value? .graph with
  | none, _ => unreadable path
  | some text, some function => showGraph function text
  | some text, none => runText o chance n path text (inputLines stream)

/-- Whether the file of the arguments, when run, may read from the standard input. -/
def Arguments.mayRead (a : Arguments) (files : Files) : Bool :=
  !a.has .graph && ((a.file.bind files).elim false fun text ↦
    (scan text).any (·.token.text == Builtin.input.function.name))

def run (words : List String) (files : Files) (stream : String) (chance n : Nat) : Option Result :=
  match Arguments.ofWords? words with
  | none => misuse
  | some a =>
    match a.options? files, a.file with
    | none, _ => badConfiguration
    | some o, some path => runFile a o files chance n path stream
    | some o, none => do
      let entries := Prompt.Entry.ofLines Prompt.isComplete "" (promptLines stream)
      let (_, shown) ← (Prompt.start o chance).enterAll n entries
      return ⟨.success, shown⟩

end SmallScript.CommandLine
