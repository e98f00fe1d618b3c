/-!
# Checked arithmetic on 32-bit words

Constants of a program are 32-bit words in two's complement. Bounds are computed
exactly or not at all: each operation here takes the exact integer result and keeps
it only if it is a word again. A result that leaves the range is `none`, never a
wrapped value.
-/

namespace LoopBounds.Word

/-- The word of value `z`, when `z` lies in the 32-bit range. -/
def narrow? (z : Int) : Option Int32 :=
  if Int32.minValue.toInt ≤ z ∧ z ≤ Int32.maxValue.toInt then some (Int32.ofInt z) else none

def add? (x y : Int32) : Option Int32 := narrow? (x.toInt + y.toInt)

def sub? (x y : Int32) : Option Int32 := narrow? (x.toInt - y.toInt)

def mul? (x y : Int32) : Option Int32 := narrow? (x.toInt * y.toInt)

def neg? (x : Int32) : Option Int32 := narrow? (-x.toInt)

/-- Division towards zero. There is no quotient by zero, and the quotient of the least
word by `-1` is no word. -/
def div? (x y : Int32) : Option Int32 :=
  if y = 0 then none else narrow? (x.toInt.tdiv y.toInt)

theorem narrow?_eq_some_iff {z : Int} {w : Int32} : narrow? z = some w ↔ w.toInt = z := by
  unfold narrow?
  constructor
  · intro h
    split at h
    · rename_i hz
      rw [Int32.toInt_minValue, Int32.toInt_maxValue] at hz
      cases h
      exact Int32.toInt_ofInt_of_le hz.1 (by omega)
    · cases h
  · intro h
    have hz : Int32.minValue.toInt ≤ z ∧ z ≤ Int32.maxValue.toInt :=
      h ▸ ⟨w.minValue_le_toInt, w.toInt_le⟩
    rw [if_pos hz, ← h, Int32.ofInt_toInt]

theorem narrow?_eq_none_iff {z : Int} :
    narrow? z = none ↔ z < Int32.minValue.toInt ∨ Int32.maxValue.toInt < z := by
  unfold narrow?
  split <;> simp only [reduceCtorEq, true_iff, false_iff] <;> omega

@[simp] theorem narrow?_toInt (w : Int32) : narrow? w.toInt = some w :=
  narrow?_eq_some_iff.mpr rfl

end LoopBounds.Word
