import LoopBounds.Proofs.Descriptor.Fold
import LoopBounds.Proofs.Descriptor.Hereditary

/-!
# Evaluation without division by zero

An invariant evaluates to its value when it divides by zero nowhere. Simplified operations
evaluate where their operands do, and a descriptor that always is a constant evaluates to
it for all fetched values: a quotient has known bounds only if its divisor is a constant
other than zero.
-/

namespace LoopBounds

variable {R : Type} [Arithmetic R] {ρ : InstrId → R}

theorem ofWord_ne_zero {c : Int32} (h : c ≠ 0) : ofWord R c ≠ 0 := fun hc =>
  h (Arithmetic.cast_injective (R := R) c 0 (hc.trans ofWord_zero.symm))

namespace Affine

variable {v w : Affine}

theorem exists_divisor_of_known (h : (v.div w).known = true) :
    ∃ c, w.constant? = some c ∧ c ≠ 0 := by
  unfold div at h
  split at h
  · rename_i a b _ hb
    refine ⟨b, hb, ?_⟩
    rintro rfl
    simp [Word.div?, unknown] at h
  · cases h

end Affine

namespace Interval

variable {v w : Affine}

/-- A quotient of two bounds is known only if the divisor is a constant other than zero. -/
theorem exists_divisor_of_known (h : ((exactly v).div (exactly w)).upper.known = true) :
    ∃ c, w.constant? = some c ∧ c ≠ 0 := by
  unfold div at h
  split_ifs at h
  · cases h
  any_goals exact Affine.exists_divisor_of_known h
  cases hc : (v.div w).constant? with
  | none => simp [corners, exactly, hc, unknown, Affine.unknown] at h
  | some c => exact Affine.exists_divisor_of_known (Affine.constant?_eq_some_iff.mp hc).1

end Interval

namespace Descriptor

variable {a b d : Descriptor}

/-- No division by zero occurs when the descriptor is evaluated. -/
def Defined (ρ : InstrId → R) : Descriptor → Prop
  | unary _ b => Defined ρ b
  | binary op a b => Defined ρ a ∧ Defined ρ b ∧ (op = .div → value ρ b ≠ 0)
  | _ => True

/-- The descriptor evaluates to `r`. -/
def Evaluates (ρ : InstrId → R) (d : Descriptor) (r : R) : Prop := Defined ρ d ∧ value ρ d = r

theorem hereditary_defined : Hereditary (Defined ρ) where
  unary := Iff.rfl
  binary hop := and_congr_right fun _ => and_iff_left fun h => absurd h hop

theorem IsTerm.defined_of_known (h : IsTerm d) (ρ : InstrId → R) {inBody : Bool}
    (hk : (d.countBounds none inBody).upper.known = true) : Defined ρ d := by
  induction h with
  | constant _ => trivial
  | fetch _ => trivial
  | @neg b hb ih =>
    apply ih
    obtain ⟨u, hu, -⟩ := hb.exists_countBounds ρ inBody
    have hneg : ((unary .neg b).countBounds none inBody).upper = (Affine.constant 0).sub u := by
      rw [countBounds] at hu ⊢
      rw [boundsWith, hu]
      rfl
    rw [hneg] at hk
    obtain ⟨_, _, -, hr, -⟩ :=
      Affine.read?_sub (ρ := ρ) (Affine.read?_eq_some_iff.mpr ⟨hk, rfl⟩)
    rw [hu]
    exact (Affine.read?_eq_some_iff.mp hr).1
  | @binary op a b hop ha hb iha ihb =>
    obtain ⟨u, hu, -⟩ := ha.exists_countBounds ρ inBody
    obtain ⟨w, hw, hreadw⟩ := hb.exists_countBounds ρ inBody
    have hboth {f : R → R → R} {r : R} (h : Affine.Both ρ f u w r) :
        Defined ρ a ∧ Defined ρ b := by
      obtain ⟨_, _, hx, hy, -⟩ := h
      refine ⟨iha ?_, ihb ?_⟩
      · rw [hu]
        exact (Affine.read?_eq_some_iff.mp hx).1
      · rw [hw]
        exact (Affine.read?_eq_some_iff.mp hy).1
    rw [countBounds] at hu hw hk
    simp only [List.mem_cons, List.not_mem_nil, or_false] at hop
    rcases hop with rfl | rfl | rfl | rfl
    all_goals simp only [boundsWith, hu, hw] at hk
    · have := hboth (Affine.read?_add (ρ := ρ) (Affine.read?_eq_some_iff.mpr ⟨hk, rfl⟩))
      exact ⟨this.1, this.2, by simp⟩
    · have := hboth (Affine.read?_sub (ρ := ρ) (Affine.read?_eq_some_iff.mpr ⟨hk, rfl⟩))
      exact ⟨this.1, this.2, by simp⟩
    · obtain ⟨t, ht, hread⟩ := Interval.exists_mul_exactly ρ u w
      rw [ht] at hk
      have := hboth (hread _ (Affine.read?_eq_some_iff.mpr ⟨hk, rfl⟩))
      exact ⟨this.1, this.2, by simp⟩
    · obtain ⟨c, hc, hne⟩ := Interval.exists_divisor_of_known hk
      obtain ⟨t, ht, hread⟩ := Interval.exists_div_exactly ρ u w
      rw [ht] at hk
      have := hboth (hread _ (Affine.read?_eq_some_iff.mpr ⟨hk, rfl⟩))
      refine ⟨this.1, this.2, fun _ => ?_⟩
      rw [← hreadw _ (Affine.read?_of_constant? hc)]
      exact ofWord_ne_zero hne

/-- What always is a constant evaluates to it. -/
theorem IsTerm.evaluates_of_always? (h : IsTerm d) (ρ : InstrId → R) {c : Int32}
    (hc : d.always? = some c) : Evaluates ρ d (ofWord R c) := by
  refine ⟨?_, h.value_of_always? ρ hc⟩
  have hb := constantBounds?_of_always? hc
  unfold constantBounds? at hb
  split at hb
  · trivial
  · dsimp only at hb
    split at hb
    · rename_i hhi
      exact h.defined_of_known ρ (Affine.constant?_eq_some_iff.mp hhi).1
    · cases hb

end Descriptor

end LoopBounds
