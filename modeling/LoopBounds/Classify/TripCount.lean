import LoopBounds.Classify.Cycle

/-!
# Trip counts

The number of iterations is derived from the test that ends the header, when one side of
it stays in the loop and the other leaves. The test must compare a linear sequence of
constant stride `s` and start `l` with an invariant `u`. While `l + i * s <= u` holds,
the loop runs `(u + s - l) / s` times; a strict test is first turned into this form.

Such a count is right only if the loop is entered at all and if the sequence passes the
limit before it leaves the word range. Either of these may be certain from constants; if
it is not, the kind of the count says so.
-/

namespace LoopBounds

namespace Descriptor

/-- The test `lower cmp upper` holds whatever the operands are. -/
def surelyHolds (lower upper : Descriptor) (cmp : Comparison) : Bool :=
  let check (x y : Option Int32) : Bool :=
    match x, y with
    | some x, some y => cmp.holds x.toInt y.toInt
    | _, _ => false
  match cmp with
  | .lt | .le => check lower.atMost? upper.atLeast?
  | .gt | .ge => check lower.atLeast? upper.atMost?
  | _ => false

/-- A sequence of stride `stride` that goes on while it compares with `upper` by `cmp`
surely stays in the word range until it stops. -/
def surelyFinite (upper : Descriptor) (stride : Int) (cmp : Comparison) : Bool :=
  let most (limit : Int) : Bool := upper.atMost?.any fun v => v.toInt ≤ limit
  let least (limit : Int) : Bool := upper.atLeast?.any fun v => limit ≤ v.toInt
  match cmp with
  | .lt => stride = 1 || most (Int32.maxValue.toInt - stride + 1)
  | .le => most (Int32.maxValue.toInt - stride)
  | .gt => stride = -1 || least (Int32.minValue.toInt - stride - 1)
  | .ge => least (Int32.minValue.toInt - stride)
  | _ => false

/-- The limit of a strict test as the limit of the test that is not strict. -/
def inclusiveLimit (upper : Descriptor) : Comparison → Descriptor
  | .lt => combine .sub (some upper) (constant 1)
  | .gt => combine .add (some upper) (constant 1)
  | _ => upper

/-- The number of iterations of a loop that goes on while `lower + i * stride` compares
with `upper` by `cmp`, once it is entered. A strict test with a step of one needs no
rounding: there the stride added and the one taken off cancel. -/
def iterations (lower upper stride : Descriptor) (step : Int) (cmp : Comparison) :
    Descriptor :=
  let cancels := (cmp = .lt ∨ cmp = .gt) ∧ step.natAbs = 1
  let limit :=
    if cancels then upper else combine .add (some (inclusiveLimit upper cmp)) stride
  combine .div (some (combine .sub (some limit) lower)) stride

def testOperation : Comparison → Operation
  | .lt => .lt
  | .le => .le
  | .gt => .gt
  | _ => .ge

/-- The trip count of a loop that goes on while `lower + i * stride` compares with
`upper` by `cmp`. -/
def tripCountOf (lower upper stride : Descriptor) (step : Int) (cmp : Comparison) :
    Descriptor :=
  guardedCount
    ⟨!surelyHolds lower upper cmp, !surelyFinite upper step cmp⟩
    (iterations lower upper stride step cmp)
    (combine (testOperation cmp) (some lower) upper)

/-- A sequence that goes up by one and starts no higher than a limit differs from it
exactly while it is less, and likewise downwards. -/
def orderedTest (lower upper : Descriptor) (step : Int) (cmp : Comparison) : Comparison :=
  if cmp = .ne then
    if step = 1 ∧ surelyHolds lower upper .le then .lt
    else if step = -1 ∧ surelyHolds lower upper .ge then .gt
    else cmp
  else cmp

def movesTowards (step : Int) : Comparison → Bool
  | .lt | .le => 0 < step
  | .gt | .ge => step < 0
  | _ => false

/-- The trip count of a loop that goes on while a linear sequence compares with the
invariant `upper` by `cmp`. -/
def linearTripCount? (stride lower upper : Descriptor) (cmp : Comparison) :
    Option Descriptor := do
  let step := (← stride.always?).toInt
  let cmp := orderedTest lower upper step cmp
  if movesTowards step cmp then return tripCountOf lower upper stride step cmp else none

/-- The trip count of a loop that goes on while `a cmp b` holds. -/
def conditionTripCount? (a b : Descriptor) (cmp : Comparison) : Option Descriptor :=
  match a, b with
  | linear stride lower, b =>
      if b.isInvariant then linearTripCount? stride lower b cmp else none
  | a, linear stride lower =>
      if a.isInvariant && cmp ≠ .eq then linearTripCount? stride lower a cmp.swap
      else none
  | _, _ => none

end Descriptor

namespace LoopView

variable (v : LoopView)

/-- The comparison that must hold for the loop to go on, with its operands, when the
header ends in a test with one side in the loop. -/
def control? (known : Classes) (x : InstrId) :
    Option (Descriptor × Descriptor × Comparison) :=
  match v.func.instr x with
  | .branch c t e =>
      match v.func.instr c with
      | .compare op l r => do
          let a ← v.lookup known l
          let b ← v.lookup known r
          match v.contains t, v.contains e with
          | true, false => return (a, b, op)
          | false, true => return (a, b, op.inverse)
          | _, _ => none
      | _ => none
  | _ => none

def tripCount? (known : Classes) (control : InstrId) : Option Descriptor := do
  let (a, b, cmp) ← v.control? known control
  Descriptor.conditionTripCount? a b cmp

/-- The descriptors of the values of the loop, and under the terminator of its header the
trip count. -/
def classesWithTripCount : Classes :=
  let known := v.classes
  match v.func.terminator? v.header with
  | none => known
  | some control =>
      match v.tripCount? known control with
      | some trip => (control, trip) :: known
      | none => known

end LoopView

end LoopBounds
