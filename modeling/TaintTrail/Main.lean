import TaintTrail.CommandLine

/-!
# The program

Reads the files that the arguments name, analyses, and writes what was found.
-/

open TaintTrail

/-- The contents of a file, if it can be read as text. -/
def contentsOf? (path : String) : IO (Option String) :=
  try
    return some (← IO.FS.readFile path)
  catch _ => return none

/-- Writes what was found, and returns the exit code. -/
def present (o : CommandLine.Options) (r : Report) (milliseconds : Nat) : IO UInt32 :=
  try
    for (path, contents) in o.outputs r do
      IO.FS.writeFile path contents
    IO.print (o.printed r milliseconds)
    return 0
  catch e =>
    IO.eprintln e
    return 1

def main (arguments : List String) : IO UInt32 := do
  match CommandLine.parse arguments with
  | .error .help =>
    IO.print CommandLine.help
    return 0
  | .error stop =>
    IO.eprintln stop.message
    return 2
  | .ok o =>
    let contents ← o.inputs.mapM fun path => return (path, ← contentsOf? path)
    let start ← IO.monoMsNow
    match o.analyze fun path => (contents.lookup path).join with
    | .error failure =>
      IO.eprintln failure.message
      return 1
    | .ok r => present o r ((← IO.monoMsNow) - start)
