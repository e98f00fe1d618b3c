import LoopBounds.Descriptor.Simplify
import Mathlib.Tactic.SplitIfs

/-!
# Properties of the parts of a descriptor

Simplification only takes operations apart and puts new sums, differences, products and
negations together. A property that an operation has just when its operands have it is
therefore kept by every simplified operation. For a quotient this needs the property of
the quotient itself, since what a division needs is more than that of its operands.
-/

namespace LoopBounds.Descriptor

/-- An operation other than a division has the property just when its operands have it. -/
structure Hereditary (P : Descriptor → Prop) : Prop where
  unary {op b} : P (unary op b) ↔ P b
  binary {op a b} : op ≠ .div → (P (binary op a b) ↔ P a ∧ P b)

namespace Hereditary

variable {P : Descriptor → Prop} (hP : Hereditary P) {a b : Descriptor} (ha : P a)

include hP

theorem operation {op : Operation} (hop : op ≠ .div) (ha : P a) (hb : P b) :
    P (operation op (some a) b) := (hP.binary hop).mpr ⟨ha, hb⟩

theorem of_negated? {inner : Descriptor} (hb : P b) (h : b.negated? = some inner) :
    P inner := by
  unfold negated? at h
  split at h
  · cases h
    exact hP.unary.mp hb
  · cases h
    exact ((hP.binary (by decide)).mp hb).2
  · cases h

include ha

/-- A sum is an operand, the operation, or what is left once a negation is taken in. -/
theorem sum_cases (minus : Bool) (hb : P b) {e : Descriptor} (he : P e) :
    P (if !minus && a.always? = some 0 then b
      else match b.always? with
        | some c => if c = 0 then a
            else Descriptor.operation (if minus then .sub else .add) (some a) b
        | none => e) := by
  split
  · exact hb
  · split
    · split
      · exact ha
      · exact hP.operation (by cases minus <;> decide) ha hb
    · exact he

theorem combineSum (minus : Bool) (hb : P b) : P (combineSum minus (some a) b) := by
  have hop {b : Descriptor} (hb : P b) (minus : Bool) :
      P (Descriptor.operation (if minus then .sub else .add) (some a) b) :=
    hP.operation (by cases minus <;> decide) ha hb
  -- The recursion goes down negations only; every other right operand stays whole.
  induction b generalizing minus with
  | unary op inner ih =>
    unfold Descriptor.combineSum
    apply hP.sum_cases ha minus hb
    split
    · rename_i heq
      cases heq
      exact ih _ (hP.unary.mp hb)
    · rename_i heq
      cases heq
    · exact hop hb minus
  | binary op x inner _ ih =>
    unfold Descriptor.combineSum
    apply hP.sum_cases ha minus hb
    split
    · rename_i heq
      cases heq
    · rename_i heq
      cases heq
      exact ih _ ((hP.binary (by decide)).mp hb).2
    · exact hop hb minus
  | _ =>
    unfold Descriptor.combineSum
    exact hP.sum_cases ha minus hb (hop hb minus)

omit ha in
theorem combineNeg_of {a : Option Descriptor} (ha : ∀ x ∈ a, P x) (hb : P b) :
    P (Descriptor.combineNeg a b) := by
  have hop : P (Descriptor.operation .neg a b) := by
    cases a with
    | none => exact hP.unary.mpr hb
    | some a => exact hP.operation (by decide) (ha a rfl) hb
  unfold Descriptor.combineNeg
  split
  · obtain ⟨hx, hy⟩ := (hP.binary (by decide)).mp hb
    exact hP.combineSum hy true hx
  · split
    · split_ifs
      · exact hb
      · exact hop
    · exact hP.of_negated? hb ‹_›
    · exact hop

omit ha in
theorem combineNeg (hb : P b) : P (combineNeg none b) := hP.combineNeg_of (by simp) hb

theorem combineMul (hb : P b) : P (combineMul (some a) b) := by
  unfold Descriptor.combineMul
  dsimp only [Option.getD_some]
  split_ifs
  · exact ha
  · exact hb
  · exact hP.combineNeg hb
  · exact hb
  · exact ha
  · exact hP.combineNeg ha
  · exact hP.operation (by decide) ha hb

theorem combineDiv (hdiv : P (Descriptor.binary .div a b)) : P (combineDiv (some a) b) := by
  unfold Descriptor.combineDiv
  dsimp only [Option.getD_some]
  split_ifs
  · exact ha
  · exact hP.combineNeg ha
  · exact hdiv

end Hereditary

end LoopBounds.Descriptor
