import LoopBounds.Instr

/-!
# Descriptors

A descriptor says what a value is in iteration `i` of a loop, where the first iteration
has number zero. It is an invariant of the loop, built by operations from constants and
values fetched from outside the loop, or one of three kinds of sequence, or the number of
iterations of the loop.
-/

namespace LoopBounds

/-- Operations of an invariant. The comparisons only stand in taken tests. -/
inductive Operation where
  | add
  | sub
  | neg
  | mul
  | div
  | lt
  | le
  | gt
  | ge
  deriving DecidableEq, Repr

/-- What a trip count relies on. With `needsTaken` it holds only once the loop is
entered; with `needsFinite` only if the loop's variable never leaves the word range. -/
structure TripKind where
  needsTaken : Bool
  needsFinite : Bool
  deriving DecidableEq, Repr

inductive Descriptor where
  /-- The same constant in every iteration. -/
  | constant (value : Int32)
  /-- A value from outside the loop. -/
  | fetch (instr : InstrId)
  /-- An operation without a left operand; only negation has a value then. -/
  | unary (op : Operation) (operand : Descriptor)
  | binary (op : Operation) (left right : Descriptor)
  /-- `stride * i + start`. -/
  | linear (stride start : Descriptor)
  /-- `first`, then the members of `rest`, and again from the beginning. -/
  | periodic (first rest : Descriptor)
  /-- `first` in the first iteration, from then on `rest` as of one iteration before. -/
  | wrapAround (first rest : Descriptor)
  /-- The number of iterations. -/
  | tripCount (kind : TripKind) (count : Descriptor)
  /-- The number of iterations, and the test that tells whether the loop is entered. -/
  | guardedCount (kind : TripKind) (count taken : Descriptor)
  deriving DecidableEq, Repr

namespace Descriptor

def isInvariant : Descriptor → Bool
  | constant _ | fetch _ | unary .. | binary .. => true
  | _ => false

def isLinear : Descriptor → Bool
  | linear .. => true
  | _ => false

def isPeriodic : Descriptor → Bool
  | periodic .. => true
  | _ => false

def asConstant? : Descriptor → Option Int32
  | constant v => some v
  | _ => none

def asFetch? : Descriptor → Option InstrId
  | fetch x => some x
  | _ => none

def parts? : Descriptor → Option (Descriptor × Descriptor)
  | linear a b | periodic a b | wrapAround a b => some (a, b)
  | _ => none

def withParts? (d a b : Descriptor) : Option Descriptor :=
  match d with
  | linear .. => some (linear a b)
  | periodic .. => some (periodic a b)
  | wrapAround .. => some (wrapAround a b)
  | _ => none

def tripKind? : Descriptor → Option TripKind
  | tripCount kind _ | guardedCount kind _ _ => some kind
  | _ => none

/-- The number of iterations that a trip count states. -/
def count? : Descriptor → Option Descriptor
  | tripCount _ count | guardedCount _ count _ => some count
  | _ => none

/-- The test that tells whether the loop is entered. -/
def taken? : Descriptor → Option Descriptor
  | guardedCount _ _ taken => some taken
  | _ => none

/-- An operation whose left operand may be missing. -/
def operation (op : Operation) : Option Descriptor → Descriptor → Descriptor
  | none, b => unary op b
  | some a, b => binary op a b

/-- Linear sequences are the ones whose bounds depend on the number of iterations. -/
def needsTripCount : Descriptor → Bool
  | linear .. => true
  | wrapAround _ rest => rest.needsTripCount
  | _ => false

end Descriptor

end LoopBounds
