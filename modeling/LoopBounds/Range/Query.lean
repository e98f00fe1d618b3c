import LoopBounds.Classify.Analysis

/-!
# Ranges of values

A range is asked for at an instruction, the context. The innermost loop around the
context decides which descriptor of the value counts, and whether the context lies in
the header or in the body of that loop decides how far the iteration number goes there.
-/

namespace LoopBounds

/-- The bounds of a value. With `needsFiniteTest` they hold only if the loop is known to
end before its variable leaves the word range. -/
structure ValueRange where
  bounds : Interval
  needsFiniteTest : Bool
  deriving DecidableEq, Repr

/-- A question about one value, put in terms of one loop. -/
structure Query where
  descriptor : Descriptor
  trip : Option Descriptor
  inBody : Bool
  deriving DecidableEq, Repr

namespace Query

variable (q : Query)

/-- The trip count holds only once the loop is entered. -/
def needsTaken : Bool := (q.trip.bind Descriptor.tripKind?).any TripKind.needsTaken

/-- The bounds rest on a trip count that holds only if the loop ends in time. -/
def needsFinite : Bool :=
  q.descriptor.needsTripCount
    && (q.trip.bind Descriptor.tripKind?).any TripKind.needsFinite

def range : ValueRange := ⟨q.descriptor.bounds q.trip q.inBody, q.needsFinite⟩

end Query

namespace Analysis

variable (a : Analysis) (f : Func)

/-- The innermost loop around an instruction, and whether that is in the loop's body. -/
def contextLoop? (context : InstrId) : Option (LoopId × Bool) :=
  let b := f.home context
  match a.forest.innermost? b with
  | some l => some (l, (a.forest.get l).header ≠ b)
  | none => none

def query? (context x : InstrId) : Option Query := do
  let (l, inBody) ← a.contextLoop? f context
  return ⟨← a.lookup f l x, a.tripCount? f l, inBody⟩

/-- The range of `x` at `context`. -/
def range? (context x : InstrId) : Option ValueRange := (a.query? f context x).map Query.range

end Analysis

end LoopBounds
