import LoopBounds.Instr
import LoopBounds.Word

/-!
# Affine bounds

A bound is either unknown or `scale * anchor + offset`, where the anchor is an
instruction; without an anchor it is the constant `offset`. The operations are exact: a
known result denotes the sum, difference, product, quotient, minimum or maximum of what
the operands denote, and a coefficient that would leave the 32-bit range makes the
result unknown.
-/

namespace LoopBounds

structure Affine where
  known : Bool
  anchor : Option InstrId
  scale : Int32
  offset : Int32
  deriving DecidableEq, Repr

namespace Affine

def unknown : Affine := ⟨false, none, 0, 0⟩

def constant (b : Int32) : Affine := ⟨true, none, 0, b⟩

/-- The bound `a * x + b`; its anchor vanishes with its scale. -/
def ofInstr (x : InstrId) (a b : Int32) : Affine :=
  ⟨true, if a = 0 then none else some x, a, b⟩

/-- The bound `a * x + b` on an anchor that may be missing. -/
def anchored (x : Option InstrId) (a b : Int32) : Affine :=
  match x with
  | some x => ofInstr x a b
  | none => constant b

/-- The bound with coefficients that may have left the range. -/
def anchored? (x : Option InstrId) (a b : Option Int32) : Affine :=
  match a, b with
  | some a, some b => anchored x a b
  | _, _ => unknown

def isConstant (v : Affine) : Bool := v.known && v.scale = 0

def constant? (v : Affine) : Option Int32 := if v.isConstant then some v.offset else none

def add (v w : Affine) : Affine :=
  if v.known && w.known then
    let b := Word.add? v.offset w.offset
    if v.scale = 0 then anchored? w.anchor (some w.scale) b
    else if w.scale = 0 then anchored? v.anchor (some v.scale) b
    else if v.anchor = w.anchor then anchored? v.anchor (Word.add? v.scale w.scale) b
    else unknown
  else unknown

def sub (v w : Affine) : Affine :=
  if v.known && w.known then
    let b := Word.sub? v.offset w.offset
    if v.scale = 0 then anchored? w.anchor (Word.neg? w.scale) b
    else if w.scale = 0 then anchored? v.anchor (some v.scale) b
    else if v.anchor = w.anchor then anchored? v.anchor (Word.sub? v.scale w.scale) b
    else unknown
  else unknown

/-- The bound `v` times the constant `c`. -/
def times (v : Affine) (c : Int32) : Affine :=
  anchored? v.anchor (Word.mul? v.scale c) (Word.mul? v.offset c)

/-- A product with at most one factor that is not constant. -/
def mul (v w : Affine) : Affine :=
  if v.known && w.known then
    if v.scale = 0 then w.times v.offset
    else if w.scale = 0 then v.times w.offset
    else unknown
  else unknown

/-- Division does not distribute over addition, so only constants have a quotient. -/
def div (v w : Affine) : Affine :=
  match v.constant?, w.constant? with
  | some a, some b =>
      match Word.div? a b with
      | some q => constant q
      | none => unknown
  | _, _ => unknown

/-- Bounds on the same anchor with the same scale, with offset chosen by `pick`. -/
def pickOffset (pick : Int32 → Int32 → Int32) (v w : Affine) : Affine :=
  if v.known && w.known then
    if v.anchor = w.anchor ∧ v.scale = w.scale then
      anchored v.anchor v.scale (pick v.offset w.offset)
    else unknown
  else unknown

def lesser (a b : Int32) : Int32 := if a.toInt ≤ b.toInt then a else b

def greater (a b : Int32) : Int32 := if a.toInt ≤ b.toInt then b else a

/-- The smaller of two bounds that differ by a constant. -/
def min (v w : Affine) : Affine := pickOffset lesser v w

/-- The larger of two bounds that differ by a constant. -/
def max (v w : Affine) : Affine := pickOffset greater v w

def textWith (name : InstrId → String) (v : Affine) : String :=
  if v.known then
    match v.anchor with
    | none => toString v.offset.toInt
    | some x =>
        toString v.scale.toInt ++ " * " ++ name x ++ " + " ++ toString v.offset.toInt
  else "?"

def text (v : Affine) : String := v.textWith InstrId.text

end Affine

end LoopBounds
