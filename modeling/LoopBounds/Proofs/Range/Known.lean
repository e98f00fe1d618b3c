import LoopBounds.Proofs.Range.Affine

/-!
# Known bounds

An operation on bounds gives a known one exactly if both operands are known, the result can be
expressed with one anchor, and both of its coefficients are words. Nothing else makes a bound
unknown.
-/

namespace LoopBounds

/-- The integer is the value of a word. -/
def IsWord (z : ℤ) : Prop := -2 ^ 31 ≤ z ∧ z < 2 ^ 31

theorem isWord_toInt (w : Int32) : IsWord w.toInt := ⟨w.le_toInt, w.toInt_lt⟩

theorem Word.isSome_narrow?_iff {z : ℤ} : (Word.narrow? z).isSome = true ↔ IsWord z := by
  rw [Option.isSome_iff_exists]
  constructor
  · rintro ⟨w, hw⟩
    exact Word.narrow?_eq_some_iff.mp hw ▸ isWord_toInt w
  · intro hz
    exact ⟨.ofInt z, Word.narrow?_eq_some_iff.mpr (Int32.toInt_ofInt_of_le hz.1 hz.2)⟩

theorem Word.isSome_div?_iff {x y : Int32} :
    (Word.div? x y).isSome = true ↔ y ≠ 0 ∧ IsWord (x.toInt.tdiv y.toInt) := by
  unfold Word.div?
  split_ifs with hy
  · simp [hy]
  · rw [isSome_narrow?_iff]
    exact (and_iff_right hy).symm

namespace Affine

theorem known_anchored (x : Option InstrId) (a b : Int32) : (anchored x a b).known = true := by
  cases x <;> rfl

theorem known_anchored?_iff {x : Option InstrId} {a b : Option Int32} :
    (anchored? x a b).known = true ↔ a.isSome = true ∧ b.isSome = true := by
  cases a <;> cases b <;> simp [anchored?, known_anchored, unknown]

theorem known_narrowed_iff {x : Option InstrId} {a b : ℤ} :
    (anchored? x (Word.narrow? a) (Word.narrow? b)).known = true ↔ IsWord a ∧ IsWord b := by
  rw [known_anchored?_iff, Word.isSome_narrow?_iff, Word.isSome_narrow?_iff]

variable {v w u : Affine}

theorem known_guarded_iff : (if v.known && w.known then u else unknown).known = true ↔
    v.known = true ∧ w.known = true ∧ u.known = true := by
  cases hv : v.known <;> cases hw : w.known <;> simp [unknown]

theorem known_add_iff : (v.add w).known = true ↔ v.known = true ∧ w.known = true ∧
    (v.scale = 0 ∨ w.scale = 0 ∨ v.anchor = w.anchor) ∧
    IsWord (v.scale.toInt + w.scale.toInt) ∧ IsWord (v.offset.toInt + w.offset.toInt) := by
  rw [add, known_guarded_iff]
  refine and_congr_right fun _ => and_congr_right fun _ => ?_
  have hword (c : Int32) : some c = Word.narrow? c.toInt := (Word.narrow?_toInt c).symm
  dsimp only
  split_ifs with hv hw hanchor
  · rw [hword, Word.add?, known_narrowed_iff]
    simp [hv]
  · rw [hword, Word.add?, known_narrowed_iff]
    simp [hw]
  · rw [Word.add?, Word.add?, known_narrowed_iff]
    simp [hanchor]
  · simp [hv, hw, hanchor, unknown]

theorem known_sub_iff : (v.sub w).known = true ↔ v.known = true ∧ w.known = true ∧
    (v.scale = 0 ∨ w.scale = 0 ∨ v.anchor = w.anchor) ∧
    IsWord (v.scale.toInt - w.scale.toInt) ∧ IsWord (v.offset.toInt - w.offset.toInt) := by
  rw [sub, known_guarded_iff]
  refine and_congr_right fun _ => and_congr_right fun _ => ?_
  have hword (c : Int32) : some c = Word.narrow? c.toInt := (Word.narrow?_toInt c).symm
  dsimp only
  split_ifs with hv hw hanchor
  · rw [Word.neg?, Word.sub?, known_narrowed_iff]
    simp [hv]
  · rw [hword, Word.sub?, known_narrowed_iff]
    simp [hw]
  · rw [Word.sub?, Word.sub?, known_narrowed_iff]
    simp [hanchor]
  · simp [hv, hw, hanchor, unknown]

/-- At most one factor has a scale, which the other one multiplies. -/
theorem known_mul_iff : (v.mul w).known = true ↔ v.known = true ∧ w.known = true ∧
    (v.scale = 0 ∨ w.scale = 0) ∧
    IsWord (v.scale.toInt * w.offset.toInt + w.scale.toInt * v.offset.toInt) ∧
    IsWord (v.offset.toInt * w.offset.toInt) := by
  rw [mul, known_guarded_iff]
  refine and_congr_right fun _ => and_congr_right fun _ => ?_
  split_ifs with hv hw
  · rw [times, Word.mul?, Word.mul?, known_narrowed_iff, mul_comm w.offset.toInt]
    simp [hv]
  · rw [times, Word.mul?, Word.mul?, known_narrowed_iff]
    simp [hw]
  · simp [hv, hw, unknown]

theorem known_div_iff : (v.div w).known = true ↔ v.known = true ∧ w.known = true ∧
    (v.scale = 0 ∧ w.scale = 0 ∧ w.offset ≠ 0) ∧
    IsWord (v.offset.toInt.tdiv w.offset.toInt) := by
  constructor
  · intro h
    unfold div at h
    split at h
    · rename_i a b ha hb
      obtain ⟨hv, hv₀, rfl⟩ := constant?_eq_some_iff.mp ha
      obtain ⟨hw, hw₀, rfl⟩ := constant?_eq_some_iff.mp hb
      split at h
      · rename_i q hq
        obtain ⟨hne, hword⟩ := Word.isSome_div?_iff.mp (Option.isSome_of_eq_some hq)
        exact ⟨hv, hw, ⟨hv₀, hw₀, hne⟩, hword⟩
      · cases h
    · cases h
  · rintro ⟨hv, hw, ⟨hv₀, hw₀, hne⟩, hword⟩
    have ha : v.constant? = some v.offset := constant?_eq_some_iff.mpr ⟨hv, hv₀, rfl⟩
    have hb : w.constant? = some w.offset := constant?_eq_some_iff.mpr ⟨hw, hw₀, rfl⟩
    obtain ⟨q, hq⟩ := Option.isSome_iff_exists.mp (Word.isSome_div?_iff.mpr ⟨hne, hword⟩)
    rw [div, ha, hb]
    simp only [hq]
    rfl

theorem known_pickOffset_iff (pick : Int32 → Int32 → Int32) :
    (pickOffset pick v w).known = true ↔ v.known = true ∧ w.known = true ∧
      v.anchor = w.anchor ∧ v.scale = w.scale := by
  rw [pickOffset, known_guarded_iff]
  refine and_congr_right fun _ => and_congr_right fun _ => ?_
  split_ifs with h
  · exact iff_of_true (known_anchored _ _ _) h
  · exact iff_of_false Bool.false_ne_true h

end Affine

end LoopBounds
