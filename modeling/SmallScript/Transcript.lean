import SmallScript.Report.Basic
import SmallScript.Run.Arithmetic

namespace SmallScript

structure Transcript where
  output : String
  errors : String
  deriving DecidableEq

namespace Transcript

def silent : Transcript := ⟨"", ""⟩

instance : Append Transcript := ⟨fun a b ↦ ⟨a.output ++ b.output, a.errors ++ b.errors⟩⟩

def text (s : String) : Transcript := ⟨s, ""⟩

def line (s : String) : Transcript := text (s ++ "\n")

def lines (ls : List String) : Transcript := text (String.join (ls.map (· ++ "\n")))

def error (message : String) : Transcript := ⟨"", s!"error: {message}\n"⟩

/-- What failed. A fault that code with known names and types cannot have is not the user's. -/
def fault (f : Fault) : Transcript :=
  error (if f.isInternal then f.message else "runtime error: " ++ f.message)

/-- The reports on a text with a name, then their number. -/
def reports (name : String) (lines : LineMap) (rs : List Report) : Transcript :=
  let each (r : Report) : String := s!"{name}{r.place lines}: {r.line}\n"
  let plural := if rs.length = 1 then "" else "s"
  ⟨"", String.join (rs.map each) ++ s!"Found {rs.length} error{plural}.\n"⟩

theorem output_append (a b : Transcript) : (a ++ b).output = a.output ++ b.output := rfl

theorem errors_append (a b : Transcript) : (a ++ b).errors = a.errors ++ b.errors := rfl

end Transcript

end SmallScript
