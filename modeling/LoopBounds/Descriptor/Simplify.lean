import LoopBounds.Descriptor.Bounds

/-!
# Simplified operations

`combine` builds the invariant `a op b` and leaves out operations without effect, so
that descriptors stay small:
`0 + b`, `0 * b`, `1 * b`, `-1 * b`, `a + 0`, `a - 0`, `a * 0`, `-0`, `a * 1`, `a / 1`,
`a * -1`, `a / -1`, `a + -b`, `a - -b`, `-(-b)` and `-(a - b)`.
An operand counts as `0`, `1` or `-1` when it always has that value, however it is
written.
-/

namespace LoopBounds.Descriptor

def negated? : Descriptor → Option Descriptor
  | unary .neg b | binary .neg _ b => some b
  | _ => none

/-- The sum of `a` and `b`, or with `minus` their difference. A negated right operand
turns one into the other. -/
def combineSum (minus : Bool) (a : Option Descriptor) (b : Descriptor) : Descriptor :=
  let op := if minus then .sub else .add
  if !minus && a.bind always? = some 0 then b
  else
    match b.always? with
    | some c => if c = 0 then a.getD (unary op b) else operation op a b
    | none =>
        match b with
        | unary .neg inner | binary .neg _ inner => combineSum (!minus) a inner
        | b => operation op a b

/-- The negation of `b`. A left operand, if there is one, has no part in it. -/
def combineNeg (a : Option Descriptor) (b : Descriptor) : Descriptor :=
  match b with
  | binary .sub x y => combineSum true (some y) x
  | b =>
      match b.always?, b.negated? with
      | some c, _ => if c = 0 then b else operation .neg a b
      | none, some inner => inner
      | none, none => operation .neg a b

def combineMul (a : Option Descriptor) (b : Descriptor) : Descriptor :=
  let left := a.bind always?
  if left = some 0 then a.getD b
  else if left = some 1 then b
  else if left = some (-1) then combineNeg none b
  else
    let right := b.always?
    if right = some 0 then b
    else if right = some 1 then a.getD (unary .mul b)
    else if right = some (-1) then combineNeg none (a.getD b)
    else operation .mul a b

def combineDiv (a : Option Descriptor) (b : Descriptor) : Descriptor :=
  let right := b.always?
  if right = some 1 then a.getD (unary .div b)
  else if right = some (-1) then combineNeg none (a.getD b)
  else operation .div a b

/-- The invariant `a op b`, simplified. Comparisons are never simplified. -/
def combine (op : Operation) (a : Option Descriptor) (b : Descriptor) : Descriptor :=
  match op with
  | .add => combineSum false a b
  | .sub => combineSum true a b
  | .neg => combineNeg a b
  | .mul => combineMul a b
  | .div => combineDiv a b
  | op => operation op a b

end LoopBounds.Descriptor
