import LoopBounds.Range.Query

/-!
# Code for bounds

A bound can be computed by a program when it needs only constants, fetched values, sums,
differences, negations and comparisons. `emit` appends the instructions to a block;
`canEmit` tells beforehand whether it will succeed. When it fails half way, the
instructions written so far stay.

A linear sequence needs the number of iterations, so the code for the trip count is written
wherever a linear sequence stands, in the trip count itself as well.
-/

namespace LoopBounds

/-- Which end of an interval. -/
inductive Side where
  | lower
  | upper
  deriving DecidableEq, Repr

def Side.flip : Side → Side
  | .lower => .upper
  | .upper => .lower

def Interval.side (x : Interval) : Side → Affine
  | .lower => x.lower
  | .upper => x.upper

/-- The comparison that an operation of a taken test stands for. -/
def Operation.comparison? : Operation → Option Comparison
  | .lt => some .lt
  | .le => some .le
  | .gt => some .gt
  | .ge => some .ge
  | _ => none

/-- A piece of code under construction: it may fail, and what it has written to the
function stays written. -/
abbrev Emit := OptionT (StateM Func)

namespace Emit

def constant (v : Int32) : Emit InstrId := modifyGet (Func.addConstant · v)

/-- Appends an instruction to block `b`. -/
def append (b : BlockId) (i : Instr) : Emit InstrId :=
  modifyGet fun f => (f.nextId, f.addInstr b none i)

def arith (b : BlockId) (op : ArithOp) (x y : InstrId) : Emit InstrId :=
  append b (.arith op x y)

end Emit

namespace Descriptor

/-- Whether there is code for one end of the bounds, given whether there is some for a
linear sequence. -/
def canEmitWith (inBody : Bool) (linearOk : Descriptor → Side → Bool → Bool) :
    Descriptor → Side → Bool
  | constant _, _ | fetch _, _ => true
  | unary op b, s =>
      match op with
      | .neg => b.canEmitWith inBody linearOk s.flip
      | _ => false
  | binary op a b, s =>
      match op with
      | .add | .lt | .le | .gt | .ge =>
          a.canEmitWith inBody linearOk s && b.canEmitWith inBody linearOk s
      | .sub => a.canEmitWith inBody linearOk s && b.canEmitWith inBody linearOk s.flip
      | .neg => b.canEmitWith inBody linearOk s.flip
      | .mul | .div => false
  | linear stride start, s => linearOk stride s (start.canEmitWith inBody linearOk s)
  | periodic .., _ | wrapAround .., _ => false
  | tripCount kind count, s | guardedCount kind count _, s =>
      match s with
      | .lower => true
      | .upper =>
          (inBody || !kind.needsTaken) && count.canEmitWith inBody linearOk .upper

/-- The end of the trip count's bounds that the end `s` of a linear sequence needs, for a
stride of one or minus one. -/
def tripSide? (stride : Descriptor) (s : Side) : Option Side :=
  if stride.always? = some 1 then some s
  else if stride.always? = some (-1) then some s.flip
  else none

/-- Whether there is code for one end of a linear sequence, given whether there is some for
the ends of the trip count and for the start. -/
def canEmitLinear (tripOk : Side → Bool) (stride : Descriptor) (s : Side) (startOk : Bool) :
    Bool :=
  match tripSide? stride s with
  | some ts => tripOk ts && startOk
  | none => false

/-- Whether there is code for one end of the bounds of a trip count that may be worked out
inside itself, where linear sequences stand in it, until there are `n` of it. -/
def canEmitCount (inBody : Bool) (t : Descriptor) : Nat → Side → Bool
  | 0, _ => false
  | n + 1, s => t.canEmitWith inBody (canEmitLinear (canEmitCount inBody t n)) s

/-- Whether there is code for one end of the bounds of the trip count. It has two ends, so a
third one inside the others would be worked out for itself, without ever coming to a result. -/
def canEmitTrip (trip : Option Descriptor) (inBody : Bool) (s : Side) : Bool :=
  match trip with
  | some t => t.canEmitCount inBody 2 s
  | none => false

/-- Whether there is code for one end of the bounds. -/
def canEmit (trip : Option Descriptor) (inBody : Bool) (d : Descriptor) (s : Side) : Bool :=
  d.canEmitWith inBody (canEmitLinear (canEmitTrip trip inBody)) s

/-- Writes code for one end of the bounds, given how to write it for a linear sequence
from its stride and the code for its start. -/
def emitWith (inBody : Bool) (target : BlockId)
    (emitLinear : Descriptor → Side → Emit InstrId → Emit InstrId) :
    Descriptor → Side → Emit InstrId
  | constant v, _ => Emit.constant v
  | fetch x, _ => pure x
  | unary op b, s =>
      match op with
      | .neg => do
          let y ← b.emitWith inBody target emitLinear s.flip
          Emit.append target (.neg y)
      | _ => failure
  | binary op a b, s =>
      match op with
      | .add => do
          let x ← a.emitWith inBody target emitLinear s
          let y ← b.emitWith inBody target emitLinear s
          Emit.arith target .add x y
      | .sub => do
          let x ← a.emitWith inBody target emitLinear s
          let y ← b.emitWith inBody target emitLinear s.flip
          Emit.arith target .sub x y
      | .neg => do
          let y ← b.emitWith inBody target emitLinear s.flip
          Emit.append target (.neg y)
      | .mul | .div => failure
      | op => do
          let x ← a.emitWith inBody target emitLinear s
          let y ← b.emitWith inBody target emitLinear s
          match op.comparison? with
          | some cmp => Emit.append target (.compare cmp x y)
          | none => failure
  | linear stride start, s =>
      emitLinear stride s (start.emitWith inBody target emitLinear s)
  | periodic .., _ | wrapAround .., _ => failure
  | tripCount kind count, s | guardedCount kind count _, s =>
      match s with
      | .lower => Emit.constant 0
      | .upper =>
          if inBody then do
            let n ← count.emitWith inBody target emitLinear .upper
            let one ← Emit.constant 1
            Emit.arith target .sub n one
          else if kind.needsTaken then failure
          else count.emitWith inBody target emitLinear .upper

/-- Writes code for one end of a linear sequence: the start and the iteration number
added, or subtracted when the sequence goes down. -/
def emitLinear (target : BlockId) (emitTrip : Side → Emit InstrId) (stride : Descriptor)
    (s : Side) (emitStart : Emit InstrId) : Emit InstrId :=
  match tripSide? stride s with
  | some ts => do
      let i ← emitTrip ts
      let x ← emitStart
      if ts = s then Emit.arith target .add i x else Emit.arith target .sub x i
  | none => failure

/-- Writes code for one end of the bounds of a trip count that may be worked out inside
itself until there are `n` of it. -/
def emitCount (inBody : Bool) (target : BlockId) (t : Descriptor) : Nat → Side → Emit InstrId
  | 0, _ => failure
  | n + 1, s => t.emitWith inBody target (emitLinear target (emitCount inBody target t n)) s

/-- Writes code for one end of the bounds of the trip count. -/
def emitTrip (trip : Option Descriptor) (inBody : Bool) (target : BlockId) (s : Side) :
    Emit InstrId :=
  match trip with
  | some t => t.emitCount inBody target 2 s
  | none => failure

/-- Appends code for one end of the bounds to block `target`. -/
def emit (trip : Option Descriptor) (inBody : Bool) (target : BlockId) (d : Descriptor)
    (s : Side) : Emit InstrId :=
  d.emitWith inBody target (emitLinear target (emitTrip trip inBody target)) s

end Descriptor

/-- The run-time tests that must guard generated bounds. -/
structure GuardTests where
  needsFinite : Bool
  needsTaken : Bool
  deriving DecidableEq, Repr

/-- The instructions that compute the bounds of a value. The lower one is missing for an
invariant, whose upper bound is its value. -/
structure BoundCode where
  lower : Option InstrId
  upper : InstrId
  deriving DecidableEq, Repr

namespace Query

variable (q : Query)

/-- There is code for the bounds; an invariant needs only the upper one. -/
def canEmitBounds : Bool :=
  (q.descriptor.isInvariant || q.descriptor.canEmit q.trip q.inBody .lower)
    && q.descriptor.canEmit q.trip q.inBody .upper

/-- The taken test of a trip count can be written. It needs no trip count itself. -/
def canEmitTaken (trip : Descriptor) (inBody : Bool) : Bool :=
  match trip.taken? with
  | some taken => taken.canEmit none inBody .upper
  | none => false

/-- Which tests must guard the bounds, if there is code for them and for these tests. -/
def tests? : Option GuardTests := do
  let trip ← q.trip
  if q.needsTaken && !canEmitTaken trip q.inBody then none
  if q.canEmitBounds then return ⟨q.needsFinite, q.needsTaken⟩ else none

/-- Appends code for the bounds to block `target`. -/
def emitBounds (target : BlockId) : Emit BoundCode := do
  let lower ←
    if q.descriptor.isInvariant then pure none
    else some <$> q.descriptor.emit q.trip q.inBody target .lower
  return ⟨lower, ← q.descriptor.emit q.trip q.inBody target .upper⟩

end Query

namespace Analysis

variable (a : Analysis) (f : Func)

/-- Whether code for the bounds of `x` at `context` can be generated, and which tests
must guard it. -/
def tests? (context x : InstrId) : Option GuardTests :=
  (a.query? f context x).bind Query.tests?

/-- Appends code for the bounds of `x` at `context` to block `target`, if there is any. -/
def generateBounds (context x : InstrId) (target : BlockId) : Option BoundCode × Func :=
  match a.query? f context x with
  | some q => if q.tests?.isSome then (q.emitBounds target).run.run f else (none, f)
  | none => (none, f)

/-- The test that tells whether the loop around `context` is entered, and whether that is
in the loop's body. -/
def takenTest? (context : InstrId) : Option (Descriptor × Bool) := do
  let (l, inBody) ← a.contextLoop? f context
  return (← (← a.tripCount? f l).taken?, inBody)

/-- Appends to block `target` the test that tells whether the loop around `context` is
entered, if there is code for it. -/
def generateTaken (context : InstrId) (target : BlockId) : Option InstrId × Func :=
  match a.takenTest? f context with
  | some (taken, inBody) =>
      if taken.canEmit none inBody .upper then
        (taken.emit none inBody target .upper).run.run f
      else (none, f)
  | none => (none, f)

end Analysis

end LoopBounds
