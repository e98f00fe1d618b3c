import LoopBounds.Classify.Components
import LoopBounds.Classify.View
import LoopBounds.Descriptor.Transfer

/-!
# Classification of the values of a loop

The values of a loop are classified component by component, dependencies first. A value
on no cycle gets its descriptor from those of its operands. A cycle through a phi of the
header is tried as a recurrence: starting from the phi, every member gets a provisional
meaning, namely what has been added to the phi on the way, or a sequence of values that
the phis pass on. If the value that comes back to the phi is an invariant step, the
members are linear; if it is a periodic sequence, they are periodic and each member is
the sequence started at another place. A phi alone on its cycle takes its outside value
once and the value carried round the loop from then on.
-/

namespace LoopBounds

namespace Descriptor

/-- The sequence `d` with `last` put at its end. -/
def appendLast (last : Descriptor) : Descriptor → Descriptor
  | periodic a b => periodic a (appendLast last b)
  | d => periodic d last

/-- The periodic sequence started at its second member. -/
def rotate : Descriptor → Descriptor
  | periodic a b => appendLast a b
  | d => d

end Descriptor

namespace LoopView

variable (v : LoopView)

/-- The descriptor that all inputs of `x` from position `start` on have in common. -/
def common (meaning : InstrId → Option Descriptor) (x : InstrId) (start : Nat) :
    Option Descriptor :=
  match (v.inputs x).drop start with
  | [] => none
  | first :: rest =>
      match meaning first with
      | none => none
      | some d => if rest.all fun y => meaning y = some d then some d else none

/-- The descriptor of a value, from those of its operands. -/
def classifyTrivial (known : Classes) (x : InstrId) : Option Descriptor :=
  match v.func.instr x with
  | .phi _ => v.common (v.lookup known) x 0
  | .arith op l r => do
      if op = .rem then none
      let a ← v.lookup known l
      let b ← v.lookup known r
      match op with
      | .add => a.sum? false b
      | .sub => a.sum? true b
      | .mul => a.mul? b
      | .div => a.div? b
      | .shl => a.shl? (← b.always?).toInt
      | .rem => none
  | .neg y => do (← v.lookup known y).neg?
  | _ => none

def addTrivial (known : Classes) (x : InstrId) : Classes :=
  match v.classifyTrivial known x with
  | some d => (x, d) :: known
  | none => known

def invariant? (known : Classes) (x : InstrId) : Option Descriptor :=
  (v.lookup known x).filter Descriptor.isInvariant

def start? (known : Classes) (p : InstrId) : Option Descriptor := do
  v.lookup known (← (v.inputs p).head?)

/-- The meaning of another phi `x` on the cycle of `entry`: the common meaning of its
inputs, or else the sequence that starts with its own outside value and goes on with
what the cycle brings. -/
def phiMeaning (known cycle : Classes) (entry x : InstrId) : Option Descriptor :=
  match v.common (fun y => cycle.lookup y) x 0 with
  | some d => some d
  | none =>
      match v.inputs x with
      | [outside, carried] =>
          if v.func.home x = v.header then do
            let first ← v.invariant? known outside
            if carried = entry then return .periodic first (← v.start? known entry)
            else
              let rest ← v.common (fun y => cycle.lookup y) x 1
              if rest.isPeriodic then return .periodic first rest else none
          else none
      | _ => none

/-- The meaning of `x + y` or `x - y` when the right operand is an invariant and the left
one is the phi `entry` or an invariant step from it: one more step. -/
def stepMeaning (known cycle : Classes) (entry : InstrId) (minus : Bool)
    (x y : InstrId) : Option Descriptor := do
  let b ← v.invariant? known y
  if x = entry then return if minus then .combine .neg none b else b
  else
    let a ← (cycle.lookup x).filter Descriptor.isInvariant
    return .combine (Descriptor.sumOp minus) (some a) b

/-- The meaning of `z = x - y` when `y` is the phi `entry`, which takes `z` back: the
values of the phi alternate. -/
def reflectMeaning (known : Classes) (entry z x y : InstrId) : Option Descriptor :=
  match v.inputs entry with
  | [outside, carried] =>
      if y = entry ∧ carried = z then do
        let a ← v.invariant? known x
        let initial ← v.lookup known outside
        return .periodic (.combine .sub (some a) initial) initial
      else none
  | _ => none

/-- The provisional meaning of a member `z` of the cycle of `entry`. -/
def meaning (known cycle : Classes) (entry z : InstrId) : Option Descriptor :=
  match v.func.instr z with
  | .phi _ => v.phiMeaning known cycle entry z
  | .arith .add x y =>
      v.stepMeaning known cycle entry false x y
        <|> v.stepMeaning known cycle entry false y x
  | .arith .sub x y =>
      v.stepMeaning known cycle entry true x y <|> v.reflectMeaning known entry z x y
  | _ => none

/-- The provisional meanings of all members of a cycle, if every one has a meaning. -/
def meanings (known : Classes) (entry : InstrId) :
    Classes → List InstrId → Option Classes
  | cycle, [] => some cycle
  | cycle, z :: rest => do
      let d ← v.meaning known cycle entry z
      meanings known entry ((z, d) :: cycle) rest

/-- Gives the sequence `d` to the last member, the sequence started one place later to
the one before it, and so on. -/
def spread (known : Classes) (d : Descriptor) : List InstrId → Classes
  | [] => known
  | x :: rest => spread ((x, d) :: known) d.rotate rest

/-- Classifies a phi of the header that is alone on its cycle. -/
def classifyAlone (known : Classes) (p : InstrId) (initial : Descriptor) : Classes :=
  match v.common (v.lookup known) p 1 with
  | some update => (p, .wrapAround initial update) :: known
  | none => known

/-- Classifies the cycle of the phi `p` and the other members in the order in which they
follow from `p`. -/
def classifyRound (known : Classes) (p : InstrId) (others : List InstrId)
    (initial : Descriptor) : Classes :=
  let back := (v.meanings known p [] others).bind fun cycle =>
    v.common (fun y => cycle.lookup y) p 1
  match back with
  | none => known
  | some d =>
      if d.isInvariant then
        others.foldl v.addTrivial ((p, .linear d initial) :: known)
      else if d.isPeriodic then spread known d (others.reverse ++ [p])
      else known

/-- Classifies a cycle, given with its first entry phi `p` in front. -/
def classifyCycle (known : Classes) (p : InstrId) (others : List InstrId) : Classes :=
  match (v.start? known p).filter Descriptor.isInvariant with
  | none => known
  | some initial =>
      match others with
      | [] => v.classifyAlone known p initial
      | _ => v.classifyRound known p others initial

/-- Turns a component so that its first entry phi comes first. -/
def fromEntry (component : List InstrId) : List InstrId :=
  component.dropWhile (!v.isEntryPhi ·) ++ component.takeWhile (!v.isEntryPhi ·)

def classifyComponent (known : Classes) (component : List InstrId) : Classes :=
  match component.any v.isEntryPhi, component with
  | false, [x] => v.addTrivial known x
  | false, _ => known
  | true, component =>
      match v.fromEntry component with
      | [] => known
      | p :: others => v.classifyCycle known p others

def components : List (List InstrId) := Components.components v.deps v.members

def classes : Classes := v.components.foldl v.classifyComponent []

end LoopView

end LoopBounds
