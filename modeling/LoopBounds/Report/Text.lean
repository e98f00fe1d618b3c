import LoopBounds.Descriptor.Text
import LoopBounds.Func.Text
import LoopBounds.Range.Hoist
import LoopBounds.Report.Indent

/-!
# Reports on a function

Both reports go through the loops from the outside to the inside. The induction report
gives the trip count of each loop and the descriptors of the values it defines; the
range report gives the ranges of these values at two places, the header and the body.
-/

namespace LoopBounds

/-- A place in a loop where ranges are reported. -/
inductive Place where
  | header
  | body
  deriving DecidableEq, Repr

def Place.text : Place → String
  | .header => "header"
  | .body => "body"

namespace Analysis

variable (a : Analysis) (f : Func)

/-- The instruction that stands for a place of a loop. -/
def placeContext? (l : LoopId) : Place → Option InstrId
  | .header => f.terminator? (a.forest.get l).header
  | .body => a.bodyContext? f l

/-- The ranges of `x` that are reported for a loop. -/
def rangeRows (l : LoopId) (x : InstrId) : List (Place × ValueRange) :=
  [Place.header, Place.body].filterMap fun place => do
    let context ← a.placeContext? f l place
    return (place, ← a.range? f context x)

end Analysis

namespace Report

variable (f : Func) (a : Analysis)

/-- The width of one level in a printed report. -/
def width : Nat := 2

def valueText (x : InstrId) : String := "%" ++ f.nameOf x

def functionLine : String := "@" ++ f.name ++ ":\n"

def loopLine (l : LoopId) : String :=
  "    " ++ l.text ++ " (header " ++ f.labelText (a.forest.get l).header ++ ", level "
    ++ toString (a.forest.level l) ++ ")\n"

def tripLine (l : LoopId) : String :=
  let count := match a.tripCount? f l with
    | some d => d.textWith f.operandText
    | none => "unknown"
  "        trip count: " ++ count ++ "\n"

def descriptorLine (row : InstrId × Descriptor) : String :=
  "        " ++ valueText f row.1 ++ " = " ++ row.2.textWith f.operandText ++ "\n"

def inductionLoop (l : LoopId) : String :=
  loopLine f a l ++ tripLine f a l
    ++ String.join ((a.loopValues f l).map (descriptorLine f))

def rangeLine (row : Place × ValueRange) : String :=
  let bounds := row.2.bounds
  "            " ++ row.1.text ++ ": [" ++ bounds.lower.textWith (valueText f) ++ ", "
    ++ bounds.upper.textWith (valueText f) ++ "]"
    ++ (if row.2.needsFiniteTest then " (needs finite test)" else "") ++ "\n"

def rangeValue (l : LoopId) (x : InstrId) : String :=
  "        " ++ valueText f x ++ "\n"
    ++ String.join ((a.rangeRows f l x).map (rangeLine f))

def rangeLoop (l : LoopId) : String :=
  loopLine f a l
    ++ String.join ((a.loopValues f l).map fun row => rangeValue f a l row.1)

/-- A report whose part on each loop is written by `part`. -/
def overLoops (part : LoopId → String) : String :=
  reindent (functionLine f ++ String.join (a.forest.outerToInner.map part)) width

/-- What every value of a loop is, and how often each loop runs. -/
def induction : String := overLoops f a (inductionLoop f a)

/-- Between which bounds every value of a loop lies. -/
def ranges : String := overLoops f a (rangeLoop f a)

end Report

end LoopBounds
