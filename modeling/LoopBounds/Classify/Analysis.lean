import LoopBounds.Classify.TripCount

/-!
# The analysis of a function

An analysis holds the loops of a function and the descriptors of the values of each
loop. It speaks of the function as it was when the loops were found and the values
classified; a function that has grown since may still be asked about.
-/

namespace LoopBounds

structure Analysis where
  forest : LoopForest
  /-- The descriptors by loop; empty before the values are classified. -/
  classes : Array Classes
  deriving DecidableEq, Repr

namespace Analysis

/-- The loops of a function, with nothing classified yet. -/
def prepare (f : Func) : Analysis := ⟨f.flow.loopForest, #[]⟩

/-- Classifies the values of all loops found before. -/
def run (a : Analysis) (f : Func) : Analysis :=
  { a with
    classes := (a.forest.ids.map fun l =>
      (LoopView.mk f a.forest l).classesWithTripCount).toArray }

def ofFunc (f : Func) : Analysis := (prepare f).run f

variable (a : Analysis)

def classesOf (l : LoopId) : Classes := a.classes[l.index]?.getD []

def stored? (l : LoopId) (x : InstrId) : Option Descriptor := (a.classesOf l).lookup x

/-- The descriptor of a value in a loop. A value from outside the loop is invariant,
whether or not the loop uses it. -/
def lookup (f : Func) (l : LoopId) (x : InstrId) : Option Descriptor :=
  match a.stored? l x with
  | some d => some d
  | none =>
      if (f.constant? x).isSome || x ∈ f.params || !a.forest.contains l (f.home x) then
        some (f.fetch x)
      else none

def tripCount? (f : Func) (l : LoopId) : Option Descriptor := do
  a.stored? l (← f.terminator? (a.forest.get l).header)

/-- A value that the loop itself defines and that is described by `d`. -/
def isLoopValue (f : Func) (l : LoopId) (x : InstrId) (d : Descriptor) : Bool :=
  d.tripKind?.isNone && a.forest.contains l (f.home x) && (f.constant? x).isNone
    && x ∉ f.params

/-- The classified values that a loop defines, in the order of their positions. -/
def loopValues (f : Func) (l : LoopId) : List (InstrId × Descriptor) :=
  f.instrIds.filterMap fun x =>
    match a.stored? l x with
    | some d => if a.isLoopValue f l x d then some (x, d) else none
    | none => none

end Analysis

end LoopBounds
