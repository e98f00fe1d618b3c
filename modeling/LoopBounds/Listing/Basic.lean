import LoopBounds.Func.Basic

/-!
# Programs as written

A listing is what a program text says before its names are looked up: operands and
labels are still names, and integer literals are still digits. Types are fixed by the
instructions and are not kept.
-/

namespace LoopBounds.Listing

/-- An operand: the name of a value, without its mark, or an integer literal. -/
inductive Operand where
  | value (name : String)
  | literal (digits : String)
  deriving DecidableEq, Repr

/-- One instruction; those with a value say which name they define. -/
inductive Line where
  | phi (name : String) (sources : List (Operand × String))
  | arith (name : String) (op : ArithOp) (left right : Operand)
  | neg (name : String) (operand : Operand)
  | compare (name : String) (op : Comparison) (left right : Operand)
  | jump (target : String)
  | branch (condition : Operand) (ifTrue ifFalse : String)
  | ret (value : Option Operand)
  deriving DecidableEq, Repr

def Line.defines? : Line → Option String
  | .phi name _ | .arith name .. | .neg name _ | .compare name .. => some name
  | _ => none

def Line.operands : Line → List Operand
  | .phi _ sources => sources.map Prod.fst
  | .arith _ _ x y | .compare _ _ x y => [x, y]
  | .neg _ x => [x]
  | .jump _ => []
  | .branch c _ _ => [c]
  | .ret value => value.toList

def Operand.literal? : Operand → Option String
  | .literal digits => some digits
  | .value _ => none

/-- The integer literals of a line, in the order written. -/
def Line.literals (l : Line) : List String := l.operands.filterMap Operand.literal?

/-- A labelled block; its last line is a terminator. -/
structure Section where
  label : String
  lines : List Line
  deriving DecidableEq, Repr

structure Definition where
  returns : ResultType
  name : String
  params : List String
  sections : List Section
  deriving DecidableEq, Repr

def Definition.lines (d : Definition) : List Line := d.sections.flatMap Section.lines

def Definition.labels (d : Definition) : List String := d.sections.map Section.label

end LoopBounds.Listing
