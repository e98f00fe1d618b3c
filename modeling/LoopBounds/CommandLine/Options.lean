/-!
# Options of the command line

The arguments are read one after the other. Short options may stand together behind one
dash, and the value of an option is the rest of its argument or else the next argument.
Everything after a double dash is plain. An option that is given twice, other than the
verbosity, is refused, and so is a second input.
-/

namespace LoopBounds.CommandLine

structure Options where
  /-- Print the program. -/
  ir : Bool := false
  induction : Bool := false
  range : Bool := false
  hoist : Bool := false
  verbosity : Nat := 0
  output : Option String := none
  input : Option String := none
  deriving DecidableEq, Repr

namespace Options

def setOutput? (o : Options) (path : String) : Option Options :=
  if o.output = none then some { o with output := some path } else none

def setInput? (o : Options) (path : String) : Option Options :=
  if o.input = none then some { o with input := some path } else none

/-- Sets the option with a long name, once. -/
def setFlag? (o : Options) (name : String) : Option Options :=
  match name with
  | "ir" => if o.ir then none else some { o with ir := true }
  | "induction" => if o.induction then none else some { o with induction := true }
  | "range" => if o.range then none else some { o with range := true }
  | "hoist" => if o.hoist then none else some { o with hoist := true }
  | _ => none

end Options

/-- How the next argument is taken. -/
inductive Expect where
  /-- As an option or as the input. -/
  | any
  /-- As the path of the output. -/
  | output
  /-- As the input, whatever it looks like. -/
  | plain
  deriving DecidableEq, Repr

structure Scan where
  options : Options
  expect : Expect
  deriving DecidableEq, Repr

/-- A value that may stand behind an equality sign. -/
def attached : List Char → String
  | '=' :: value => String.ofList value
  | value => String.ofList value

/-- Reads the short options of one argument. -/
def shortOptions? (o : Options) : List Char → Option Scan
  | [] => some ⟨o, .any⟩
  | 'v' :: rest => shortOptions? { o with verbosity := o.verbosity + 1 } rest
  | ['o'] => some ⟨o, .output⟩
  | 'o' :: value => (o.setOutput? (attached value)).map (Scan.mk · .any)
  | _ => none

/-- Reads one more argument. -/
def Scan.step? (s : Scan) (arg : String) : Option Scan :=
  match s.expect, arg.toList with
  | .plain, _ => (s.options.setInput? arg).map (Scan.mk · .plain)
  | .any, ['-', '-'] => some ⟨s.options, .plain⟩
  | .any, '-' :: '-' :: name =>
      (s.options.setFlag? (String.ofList name)).map (Scan.mk · .any)
  | .any, '-' :: c :: cluster => shortOptions? s.options (c :: cluster)
  | .any, _ => (s.options.setInput? arg).map (Scan.mk · .any)
  | .output, '-' :: _ :: _ => none
  | .output, _ => (s.options.setOutput? arg).map (Scan.mk · .any)

def Options.read? (args : List String) : Option Options :=
  match args.foldlM Scan.step? ⟨{}, .any⟩ with
  | some ⟨o, expect⟩ => if expect = .output then none else some o
  | none => none

end LoopBounds.CommandLine
