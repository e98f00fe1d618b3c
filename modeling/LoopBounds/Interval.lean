import LoopBounds.Affine

/-!
# Intervals

An interval is a lower and an upper affine bound; each of them may be unknown. The
operations bound the results on all pairs of members: a difference takes the opposite
end of what is subtracted, and a product or quotient takes its ends by the signs of the
operands, or from the four corners when both intervals are constant.
-/

namespace LoopBounds

structure Interval where
  lower : Affine
  upper : Affine
  deriving DecidableEq, Repr

namespace Interval

def unknown : Interval := ⟨.unknown, .unknown⟩

def exactly (v : Affine) : Interval := ⟨v, v⟩

def constant (b : Int32) : Interval := exactly (.constant b)

def add (x y : Interval) : Interval := ⟨x.lower.add y.lower, x.upper.add y.upper⟩

def sub (x y : Interval) : Interval := ⟨x.lower.sub y.upper, x.upper.sub y.lower⟩

def neg (x : Interval) : Interval := (constant 0).sub x

/-- The least interval around both, where the ends can be compared. -/
def hull (x y : Interval) : Interval := ⟨x.lower.min y.lower, x.upper.max y.upper⟩

/-- The constant that the interval consists of. -/
def single? (x : Interval) : Option Int32 :=
  match x.lower.constant?, x.upper.constant? with
  | some a, some b => if a = b then some a else none
  | _, _ => none

def nonneg (x : Interval) : Bool :=
  match x.lower.constant? with
  | some c => 0 ≤ c.toInt
  | none => false

def nonpos (x : Interval) : Bool :=
  match x.upper.constant? with
  | some c => c.toInt ≤ 0
  | none => false

/-- The interval times a constant, which turns it round when negative. -/
def scale (x : Interval) (c : Int32) : Interval :=
  let c' := Affine.constant c
  if 0 ≤ c.toInt then ⟨x.lower.mul c', x.upper.mul c'⟩
  else ⟨x.upper.mul c', x.lower.mul c'⟩

/-- The least and greatest of the results on the four pairs of ends, when all of them
are constants. -/
def corners (op : Affine → Affine → Affine) (x y : Interval) : Interval :=
  match (op x.lower y.lower).constant?, (op x.lower y.upper).constant?,
      (op x.upper y.lower).constant?, (op x.upper y.upper).constant? with
  | some a, some b, some c, some d =>
      ⟨.constant (Affine.lesser (Affine.lesser (Affine.lesser a b) c) d),
        .constant (Affine.greater (Affine.greater (Affine.greater a b) c) d)⟩
  | _, _, _, _ => unknown

def mul (x y : Interval) : Interval :=
  match x.single?, y.single? with
  | some c, _ => y.scale c
  | none, some c => x.scale c
  | none, none =>
      if x.nonneg && y.nonneg then ⟨x.lower.mul y.lower, x.upper.mul y.upper⟩
      else if x.nonneg && y.nonpos then ⟨x.upper.mul y.lower, x.lower.mul y.upper⟩
      else if x.nonpos && y.nonneg then ⟨x.lower.mul y.upper, x.upper.mul y.lower⟩
      else if x.nonpos && y.nonpos then ⟨x.upper.mul y.upper, x.lower.mul y.lower⟩
      else corners .mul x y

/-- Zero lies between the ends, which are constants. -/
def hasZero (x : Interval) : Bool :=
  match x.lower.constant?, x.upper.constant? with
  | some a, some b => a.toInt ≤ 0 && 0 ≤ b.toInt
  | _, _ => false

def div (x y : Interval) : Interval :=
  if y.hasZero then unknown
  else if x.nonneg && y.nonneg then ⟨x.lower.div y.upper, x.upper.div y.lower⟩
  else if x.nonneg && y.nonpos then ⟨x.upper.div y.upper, x.lower.div y.lower⟩
  else if x.nonpos && y.nonneg then ⟨x.lower.div y.lower, x.upper.div y.upper⟩
  else if x.nonpos && y.nonpos then ⟨x.upper.div y.lower, x.lower.div y.upper⟩
  else corners .div x y

end Interval

end LoopBounds
