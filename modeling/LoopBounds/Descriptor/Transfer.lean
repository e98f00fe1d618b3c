import LoopBounds.Descriptor.Simplify

/-!
# Arithmetic on descriptors

An operation on two values of a loop is carried over to their descriptors wherever the
result is again a descriptor. An invariant operand acts on the members of a sequence one
by one; of a linear sequence a sum shifts the start only, while a product also scales the
stride. Two linear sequences have a linear sum.
-/

namespace LoopBounds.Descriptor

def neg? : Descriptor → Option Descriptor
  | linear a b => do return linear (← neg? a) (← neg? b)
  | periodic a b => do return periodic (← neg? a) (← neg? b)
  | wrapAround a b => do return wrapAround (← neg? a) (← neg? b)
  | tripCount .. | guardedCount .. => none
  | d => some (combine .neg none d)

def sumOp (minus : Bool) : Operation := if minus then .sub else .add

/-- `c + d` or `c - d` for an invariant `c`. -/
def shiftFrom (minus : Bool) (c : Descriptor) : Descriptor → Option Descriptor
  | linear a b => do
      return linear (← if minus then neg? a else some a) (← shiftFrom minus c b)
  | periodic a b => do return periodic (← shiftFrom minus c a) (← shiftFrom minus c b)
  | wrapAround a b => do
      return wrapAround (← shiftFrom minus c a) (← shiftFrom minus c b)
  | tripCount .. | guardedCount .. => none
  | d => some (combine (sumOp minus) (some c) d)

/-- `d + c` or `d - c` for an invariant `c`. -/
def shiftBy (minus : Bool) (c : Descriptor) : Descriptor → Option Descriptor
  | linear a b => do return linear a (← shiftBy minus c b)
  | periodic a b => do return periodic (← shiftBy minus c a) (← shiftBy minus c b)
  | wrapAround a b => do return wrapAround (← shiftBy minus c a) (← shiftBy minus c b)
  | tripCount .. | guardedCount .. => none
  | d => some (combine (sumOp minus) (some d) c)

def sum? (minus : Bool) (x y : Descriptor) : Option Descriptor :=
  if x.isInvariant then shiftFrom minus x y
  else if y.isInvariant then shiftBy minus y x
  else
    match x, y with
    | linear a b, linear c d => do return linear (← sum? minus a c) (← sum? minus b d)
    | _, _ => none

/-- `c * d` for an invariant `c`. -/
def scaleFrom (c : Descriptor) : Descriptor → Option Descriptor
  | linear a b => do return linear (← scaleFrom c a) (← scaleFrom c b)
  | periodic a b => do return periodic (← scaleFrom c a) (← scaleFrom c b)
  | wrapAround a b => do return wrapAround (← scaleFrom c a) (← scaleFrom c b)
  | tripCount .. | guardedCount .. => none
  | d => some (combine .mul (some c) d)

/-- `d * c` for an invariant `c`. -/
def scaleBy (c : Descriptor) : Descriptor → Option Descriptor
  | linear a b => do return linear (← scaleBy c a) (← scaleBy c b)
  | periodic a b => do return periodic (← scaleBy c a) (← scaleBy c b)
  | wrapAround a b => do return wrapAround (← scaleBy c a) (← scaleBy c b)
  | tripCount .. | guardedCount .. => none
  | d => some (combine .mul (some d) c)

/-- `x * y`, where one factor is invariant. -/
def mul? (x y : Descriptor) : Option Descriptor :=
  if x.isInvariant then scaleFrom x y
  else if y.isInvariant then scaleBy y x
  else none

def div? (x y : Descriptor) : Option Descriptor :=
  if x.isInvariant && y.isInvariant then some (combine .div (some x) y) else none

/-- `x` shifted to the left by `k` bits, for a `k` with which the factor `2 ^ k` is a
positive word. -/
def shl? (x : Descriptor) (k : Int) : Option Descriptor :=
  if 0 ≤ k ∧ k < 31 then mul? x (constant (Int32.ofNat (1 <<< k.toNat))) else none

end LoopBounds.Descriptor
