import SmallScript.CommandLine.Basic

namespace SmallScript.CommandLine

/-- More statements and calls than any run gets through. -/
def runBound : Nat := 1 <<< 60

def readText (path : String) : IO (Option String) := do
  try
    return some (← IO.FS.readFile path)
  catch _ => return none

def write (t : Transcript) : IO Unit := do
  let out ← IO.getStdout
  out.putStr t.output
  out.flush
  (← IO.getStderr).putStr t.errors

partial def waitForever : IO Unit := do
  IO.sleep 1000
  waitForever

/-- Shows what comes of each entry as soon as its last line is read. -/
partial def promptLoop (stdin : IO.FS.Stream) (p : Prompt) (waiting : String) : IO Unit := do
  let line ← stdin.getLine
  if line.isEmpty then
    for entry in Prompt.Entry.leftover waiting do
      let some (_, shown) := p.enter runBound entry | waitForever
      write shown
  else
    let line := String.ofList (withoutEnd line.toList)
    match Prompt.Entry.accept Prompt.isComplete waiting line with
    | (none, waiting) => promptLoop stdin p waiting
    | (some (.command .quit), _) => return
    | (some entry, waiting) =>
      let some (p, shown) := p.enter runBound entry | waitForever
      write shown
      promptLoop stdin p waiting

def finish (r : Result) : IO UInt32 := do
  write r.transcript
  return r.exit.code.toUInt32

end SmallScript.CommandLine

open SmallScript CommandLine in
/-- Runs the words of the command line; the exit code tells how that went. -/
def main (words : List String) : IO UInt32 := do
  let some a := Arguments.ofWords? words | finish misuse
  let texts ← a.paths.mapM fun path ↦ return (path, ← readText path)
  let files (path : String) : Option String := (texts.lookup path).join
  let some o := a.options? files | finish badConfiguration
  let chance ← IO.rand 0 (UInt64.size - 1)
  match a.file with
  | some path =>
    let stream ← if a.mayRead files then (← IO.getStdin).readToEnd else pure ""
    finish (runFile a o files chance runBound path stream)
  | none =>
    promptLoop (← IO.getStdin) (.start o chance) ""
    return 0
