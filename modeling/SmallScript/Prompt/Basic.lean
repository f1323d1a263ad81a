import SmallScript.Session.Basic
import SmallScript.Text.Lines
import SmallScript.Transcript
import SmallScript.Tree.ReadSource

namespace SmallScript

namespace Prompt

inductive Command
  | quit
  | toggleTree
  | graph (function : Option String)
  | reset
  | unknown (word : String)
  deriving DecidableEq

/-- The command of a line: its first word, and an argument behind it. -/
def Command.ofLine (line : String) : Command :=
  let cs := trim line.toList
  let word := String.ofList (cs.takeWhile (!isBlank ·))
  let argument := trim (cs.dropWhile (!isBlank ·))
  match word with
  | "#quit" => quit
  | "#emitTree" => toggleTree
  | "#cfg" => graph (if argument = [] then none else some (.ofList argument))
  | "#reset" => reset
  | _ => unknown word

/-- Whether a line has the mark of a command in front. -/
def isCommand (line : String) : Bool := (line.toList.dropWhile isBlank).head? == some '#'

def isBlankText (text : String) : Bool := text.toList.all isBlank

def isComplete (text : String) : Bool := (Tree.ofText text).reports.isEmpty

inductive Entry
  | command (c : Command)
  | submission (text : String)
  deriving DecidableEq

namespace Entry

/-- What a line leads to after the lines that still wait: an entry, if one is ready, and the lines that
wait then. Commands are only known, and blank lines only dropped, while none waits. -/
def accept (complete : String → Bool) (waiting line : String) : Option Entry × String :=
  if waiting = "" ∧ isCommand line then (some (.command (.ofLine line)), "")
  else if waiting = "" ∧ isBlankText line then (none, "")
  else
    let text := waiting ++ line ++ "\n"
    if isBlankText line || complete text then (some (.submission text), "") else (none, text)

theorem snd_eq_empty_of_accept {complete : String → Bool} {waiting line rest : String} {e : Entry}
    (h : accept complete waiting line = (some e, rest)) : rest = "" := by
  unfold accept at h
  split at h
  · exact (Prod.ext_iff.mp h).2.symm
  · split at h
    · cases h
    · simp only at h
      split at h
      · exact (Prod.ext_iff.mp h).2.symm
      · cases h

/-- A line after others is text, whatever it looks like. -/
theorem accept_of_ne_empty (complete : String → Bool) {waiting : String} (h : waiting ≠ "")
    (line : String) :
    accept complete waiting line =
      if isBlankText line || complete (waiting ++ line ++ "\n") then
        (some (.submission (waiting ++ line ++ "\n")), "")
      else (none, waiting ++ line ++ "\n") := by
  simp only [accept, h, false_and, if_false]

def leftover (waiting : String) : Option Entry :=
  if isBlankText waiting then none else some (.submission waiting)

/-- The entries of some lines, up to the first one that quits. -/
def ofLines (complete : String → Bool) : (waiting : String) → List String → List Entry
  | waiting, [] => (leftover waiting).toList
  | waiting, line :: later =>
    match accept complete waiting line with
    | (some (.command .quit), _) => []
    | (entry, waiting) => entry.toList ++ ofLines complete waiting later

end Entry

end Prompt

/-- `chance` stands in where the options have no seed. -/
structure Prompt where
  options : Options
  session : Session
  chance : Nat

namespace Prompt

/-- The prompt keeps the standard input to itself, and a run that asks for a line waits forever. The one
line of the session stands for any line: what takes it has asked for one. -/
def start (options : Options) (chance : Nat) : Prompt := ⟨options, .start [""], chance⟩

def textName : String := "<stdin>"

def obey (p : Prompt) : Command → Prompt × Transcript
  | .quit => (p, .silent)
  | .toggleTree =>
    let on := !p.options.emitTree
    ({ p with options := { p.options with emitTree := on } },
      .line (if on then "Emitting lowered tree on." else "Emitting lowered tree off."))
  | .graph function =>
    match p.session.clean with
    | none => (p, .error "nothing has been evaluated yet")
    | some c =>
      match c.program.dot? function with
      | some dot => (p, .text dot)
      | none =>
        let name := function.getD ""
        (p, .error s!"no function named '{name}'")
  | .reset => ({ p with session := p.session.reset }, .line "Session cleared.")
  | .unknown word => (p, .error s!"unknown command '{word}'")

/-- Compiles and runs a text on top of the current one. The number `n` bounds the run. None if the run does
not end, within the bound or because it asks for a line; what it printed until then is left out. -/
def submit (p : Prompt) (n : Nat) (text : String) : Option (Prompt × Transcript) :=
  let (c, session) := p.session.compile p.session.current text
  let refusal (rs : List Report) : Transcript := .reports textName c.tree.lines rs
  if c.reports.isEmpty then
    let (outcome, session) := session.evaluate (p.options.limits p.chance) n c
    let (printed, session) := session.takeOutput
    let shown := (if p.options.emitTree then .text c.program.text else .silent) ++ .lines printed
    let after (result : Transcript) : Option (Prompt × Transcript) :=
      if session.console.input.isEmpty then none
      else some ({ p with session, chance := p.chance + 1 }, shown ++ result)
    match outcome with
    | .refused rs => after (refusal rs)
    | .finished value => after (value.elim .silent fun v ↦ .line v.text)
    | .failed f => after (.fault f)
    | .stuck => after (.error "the run got stuck")
    | .unfinished => none
  else some ({ p with session }, refusal c.reports)

def enter (p : Prompt) (n : Nat) : Entry → Option (Prompt × Transcript)
  | .command c => p.obey c
  | .submission text => p.submit n text

def enterAll (p : Prompt) (n : Nat) : List Entry → Option (Prompt × Transcript)
  | [] => some (p, .silent)
  | entry :: later => do
    let (p, shown) ← p.enter n entry
    let (p, more) ← p.enterAll n later
    return (p, shown ++ more)

end Prompt

end SmallScript
