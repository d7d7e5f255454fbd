import TileKernel.CommandLine.Run

/-!
# The compiler's command line

Reads the arguments, performs the effects the command decides on in order, and exits with its
status. A file that cannot be written ends the command with a failure report.
-/

/-- Runs the compiler on the command line's arguments. -/
def main (args : List String) : IO UInt32 := do
  let outcome := TileKernel.CommandLine.run args
  for effect in outcome.effects do
    match effect with
    | .out text => IO.print text
    | .err text => IO.eprint text
    | .write path text =>
      try IO.FS.writeFile path text
      catch e =>
        IO.eprint (TileKernel.CommandLine.report s!"failed to write {path}" (some (toString e)))
        return 1
  return outcome.status.toUInt32
