import LoopBounds.CommandLine.Execute

/-!
# The program

Connects the command line with real files and with the standard streams.
-/

namespace LoopBounds.CommandLine

def failureReason : IO.Error → String
  | .noFileOrDirectory .. => noSuchFile
  | .inappropriateType .. => isDirectory
  | e => toString e

/-- An access to a file, with a failure as a value. -/
def accessFile {α : Type} (action : IO α) : IO (Except String α) := do
  match ← action.toBaseIO with
  | .ok a => return .ok a
  | .error e => return .error (failureReason e)

def realFiles : Host IO where
  create path := accessFile (IO.FS.writeFile path "")
  read path := accessFile (IO.FS.readBinFile path)

end LoopBounds.CommandLine

def main (args : List String) : IO UInt32 := do
  let (options, outcome) ←
    LoopBounds.CommandLine.execute LoopBounds.CommandLine.realFiles args
  match options.bind LoopBounds.CommandLine.Options.output with
  | some path => if outcome.status = 0 then IO.FS.writeFile path outcome.output
  | none => IO.print outcome.output
  for line in outcome.messages do
    IO.eprintln line
  return outcome.status.toUInt32
