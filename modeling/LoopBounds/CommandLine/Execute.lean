import LoopBounds.CommandLine.Options
import LoopBounds.Listing.Resolve
import LoopBounds.Report.Text

/-!
# What the command line does

The output file is made first, then the program is read, and then the text that was
asked for is produced in one piece. Whatever goes wrong ends the run with a message and
without output.

Files are reached through a `Host`, so the same steps run on real files and on files
kept in memory.
-/

namespace LoopBounds.CommandLine

/-- Access to files. A failure gives its reason. -/
structure Host (m : Type → Type) where
  /-- Makes an empty file, in place of one that is there. -/
  create : String → m (Except String Unit)
  read : String → m (Except String ByteArray)

/-- The end of a run: its exit status, the text for the output and the lines for the
user. -/
structure Outcome where
  status : UInt8
  output : String
  messages : List String
  deriving DecidableEq, Repr

def noSuchFile : String := "No such file or directory (os error 2)"

def isDirectory : String := "Is a directory (os error 21)"

def Outcome.failure (e : Error) : Outcome := ⟨1, "", ["Error: " ++ e.message]⟩

/-- The arguments are not in order. -/
def Outcome.misuse : Outcome := ⟨2, "", []⟩

def Outcome.noInput : Outcome := ⟨1, "", ["fatal error: no input files"]⟩

/-- A function as one text block of the output. -/
def printed (f : Func) : String := f.text ++ "\n"

def hoistWarning (f : Func) : String :=
  "warning: no range code generated for '@" ++ f.name ++ "'"

/-- The reports on one function that the options ask for. Without a choice it is the
induction report. -/
def reports (o : Options) (f : Func) : String :=
  let a := Analysis.ofFunc f
  (if o.induction || !o.range then Report.induction f a else "")
    ++ (if o.range then Report.ranges f a else "")

/-- What the options ask for, on the functions of a program. -/
def produce (o : Options) (program : List Func) : Outcome :=
  if o.ir then ⟨0, String.join (program.map printed), []⟩
  else if o.hoist then
    let results := program.map fun f => (f, f.hoistBounds)
    ⟨0, String.join (results.map fun r => printed r.2.1),
      (results.filter fun r => !r.2.2).map fun r => hoistWarning r.1⟩
  else ⟨0, String.join (program.map (reports o)), []⟩

/-- The program that a file holds. -/
def decode (bytes : ByteArray) : Except Error (List Func) :=
  match String.fromUTF8? bytes with
  | some text => Func.parse text
  | none => .error (.system "stream did not contain valid UTF-8")

def produceFrom (o : Options) (bytes : ByteArray) : Outcome :=
  match decode bytes with
  | .ok program => produce o program
  | .error e => .failure e

variable {m : Type → Type} [Monad m] (host : Host m)

def prepareOutput (o : Options) : m (Except String Unit) :=
  match o.output with
  | some path => host.create path
  | none => pure (.ok ())

def executeWith (o : Options) : m Outcome := do
  match ← prepareOutput host o, o.input with
  | .error reason, _ => return .failure (.system reason)
  | .ok (), none => return .noInput
  | .ok (), some path =>
      match ← host.read path with
      | .error reason => return .failure (.system reason)
      | .ok bytes => return produceFrom o bytes

/-- Runs with the given arguments; tells the options, too, when they are in order. -/
def execute (args : List String) : m (Option Options × Outcome) :=
  match Options.read? args with
  | none => pure (none, .misuse)
  | some o => do return (some o, ← executeWith host o)

end LoopBounds.CommandLine
