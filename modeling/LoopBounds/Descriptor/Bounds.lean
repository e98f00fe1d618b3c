import LoopBounds.Descriptor.Basic
import LoopBounds.Interval

/-!
# Bounds of a descriptor

A descriptor is bounded from its parts: operations by the operations of intervals, the
sequences that repeat given values by the hull of these. A linear sequence is bounded
from its stride, its start and the number of iterations.

The bounds of a trip count only read the descriptor of the count itself, in which no
linear sequence stands. They are therefore worked out first, with every linear sequence
unknown, and the bounds of any other descriptor use them.
-/

namespace LoopBounds

/-- Bounds of the iteration number, from bounds of the count. In the body the number
stays below the count. At the header the test is made once more, and there the count is
an upper bound only if it holds whether or not the loop is entered. -/
def TripKind.bounds (kind : TripKind) (inBody : Bool) (count : Interval) : Interval :=
  ⟨.constant 0,
    if inBody then count.upper.sub (.constant 1)
    else if kind.needsTaken then .unknown
    else count.upper⟩

namespace Descriptor

/-- The bounds of a descriptor, from the bounds of fetched values and of linear
sequences; the latter are given their parts and the bounds of these. -/
def boundsWith (inBody : Bool) (fetched : InstrId → Interval)
    (linearBounds : Descriptor → Descriptor → Interval → Interval → Interval) :
    Descriptor → Interval
  | constant v => .constant v
  | fetch x => fetched x
  | unary op b =>
      match op with
      | .neg => (b.boundsWith inBody fetched linearBounds).neg
      | _ => .unknown
  | binary op a b =>
      let x := a.boundsWith inBody fetched linearBounds
      let y := b.boundsWith inBody fetched linearBounds
      match op with
      | .add => x.add y
      | .sub => x.sub y
      | .neg => y.neg
      | .mul => x.mul y
      | .div => x.div y
      | _ => .unknown
  | linear a b =>
      linearBounds a b (a.boundsWith inBody fetched linearBounds)
        (b.boundsWith inBody fetched linearBounds)
  | periodic a b | wrapAround a b =>
      (a.boundsWith inBody fetched linearBounds).hull
        (b.boundsWith inBody fetched linearBounds)
  | tripCount kind count | guardedCount kind count _ =>
      kind.bounds inBody (count.boundsWith inBody fetched linearBounds)

/-- The bounds of a fetched value. In the body of a loop that runs `x` times, `x` is at
least one. -/
def fetchBounds (trip : Option Descriptor) (inBody : Bool) (x : InstrId) : Interval :=
  let itself := Affine.ofInstr x 1 0
  if inBody && (trip.bind count?).bind asFetch? = some x then ⟨.constant 1, itself⟩
  else .exactly itself

/-- The bounds of a descriptor in which every linear sequence is unknown. -/
def countBounds (trip : Option Descriptor) (inBody : Bool) (d : Descriptor) : Interval :=
  d.boundsWith inBody (fetchBounds trip inBody) fun _ _ _ _ => .unknown

/-- The constants between which the values of the descriptor lie, when there are such
without any knowledge of the number of iterations. -/
def constantBounds? : Descriptor → Option (Int32 × Int32)
  | constant v => some (v, v)
  | d =>
      let bounds := d.countBounds none true
      match bounds.lower.constant?, bounds.upper.constant? with
      | some lo, some hi => if lo.toInt ≤ hi.toInt then some (lo, hi) else none
      | _, _ => none

/-- The constant that the descriptor always is. -/
def always? (d : Descriptor) : Option Int32 :=
  match d.constantBounds? with
  | some (lo, hi) => if lo = hi then some hi else none
  | none => none

def atLeast? (d : Descriptor) : Option Int32 := d.constantBounds?.map Prod.fst

def atMost? (d : Descriptor) : Option Int32 := d.constantBounds?.map Prod.snd

def invariantConstant? (d : Descriptor) : Option Int32 :=
  if d.isInvariant then d.always? else none

/-- `stride * i + start`, for iteration numbers between the bounds `trip`. -/
def linearFormula (trip stride start : Interval) : Interval := (stride.mul trip).add start

/-- The bounds of `stride * i + start`. When the number of iterations is `hi - lo`, a
sequence that goes up from `lo` by one has an upper bound in which `lo` cancels, and one
that goes down from `hi` by one a lower bound in which `hi` cancels. -/
def linearBounds (trip : Option Descriptor) (inBody : Bool) (stride start : Descriptor)
    (strideBounds startBounds : Interval) : Interval :=
  match trip with
  | none => .unknown
  | some t =>
      let general :=
        linearFormula (t.countBounds trip inBody) strideBounds startBounds
      match t.tripKind?, t.count? with
      | some kind, some (binary .sub hi lo) =>
          if stride.always? = some 1 ∧ lo = start then
            let cancelled := kind.bounds inBody (hi.countBounds trip inBody)
            ⟨general.lower, cancelled.upper⟩
          else if stride.always? = some (-1) ∧ hi = start then
            let cancelled := kind.bounds inBody ((unary .neg lo).countBounds trip inBody)
            ⟨(Affine.constant 0).sub cancelled.upper, general.upper⟩
          else general
      | _, _ => general

/-- The bounds of a descriptor in the body or at the header of a loop with the given
trip count. -/
def bounds (trip : Option Descriptor) (inBody : Bool) (d : Descriptor) : Interval :=
  d.boundsWith inBody (fetchBounds trip inBody) (linearBounds trip inBody)

end Descriptor

end LoopBounds
