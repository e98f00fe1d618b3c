import LoopBounds.Interval
import LoopBounds.Proofs.Range.Affine
import Mathlib.Algebra.Order.Ring.Int

/-!
# Intervals of integers

An interval contains an integer when each of its known ends bounds it. The operations on
intervals are sound: the result contains the sum, difference, product or quotient of what
the operands contain. Where an end of a quotient is known, the divisor is not zero.
-/

namespace LoopBounds

namespace Affine

variable {ρ : InstrId → ℤ} {v w : Affine} {r : ℤ}

@[simp] theorem ofWord_int (c : Int32) : ofWord ℤ c = c.toInt := rfl

theorem read?_constant_int {c : Int32} (h : v.constant? = some c) :
    v.read? ρ = some c.toInt := read?_of_constant? h

theorem read?_pickOffset {pick : Int32 → Int32 → Int32} {g : ℤ → ℤ → ℤ}
    (hpick : ∀ a b, (pick a b).toInt = g a.toInt b.toInt)
    (hadd : ∀ c a b, c + g a b = g (c + a) (c + b))
    (h : (pickOffset pick v w).read? ρ = some r) : Both ρ g v w r := by
  unfold pickOffset at h
  split_ifs at h with hk heq
  · obtain ⟨hanchor, hscale⟩ := heq
    apply both_of_known hk
    rw [read?_anchored, Option.some.injEq] at h
    rw [← h]
    simp only [read, ofWord_int, hpick, ← hanchor, ← hscale, hadd]
  · cases h
  · cases h

theorem read?_min (h : (v.min w).read? ρ = some r) : Both ρ Min.min v w r :=
  read?_pickOffset toInt_lesser (fun _ _ _ => by omega) h

theorem read?_max (h : (v.max w).read? ρ = some r) : Both ρ Max.max v w r :=
  read?_pickOffset toInt_greater (fun _ _ _ => by omega) h

theorem read?_div_int (h : (v.div w).read? ρ = some r) :
    ∃ a b, v.constant? = some a ∧ w.constant? = some b ∧ b.toInt ≠ 0 ∧
      r = a.toInt.tdiv b.toInt := by
  unfold div at h
  split at h
  · rename_i a b ha hb
    split at h
    · rename_i q hq
      rw [read?_constant, Option.some.injEq] at h
      have hne : b ≠ 0 := by
        rintro rfl
        cases hq
      exact ⟨a, b, ha, hb, fun hz => hne (Int32.toInt_inj.mp hz), h ▸ ofWord_div? hq⟩
    · cases h
  · cases h

theorem eq_tdiv_of_read?_div {a b : Int32} (h : (v.div w).read? ρ = some r)
    (ha : v.constant? = some a) (hb : w.constant? = some b) : r = a.toInt.tdiv b.toInt := by
  obtain ⟨a', b', ha', hb', -, rfl⟩ := read?_div_int h
  rw [Option.some.inj (ha.symm.trans ha'), Option.some.inj (hb.symm.trans hb')]

end Affine

section Quotients

variable {a b c z w : ℤ}

/-- Of nonnegative numbers, the quotient grows with the dividend and falls with the
divisor. -/
theorem tdiv_le_tdiv_of_le (ha : 0 ≤ a) (haz : a ≤ z) (hw : 0 < w) (hwb : w ≤ b) :
    a.tdiv b ≤ z.tdiv w := by
  refine le_trans ?_ (Int.tdiv_le_tdiv hw haz)
  lift a to ℕ using ha
  lift w to ℕ using hw.le
  lift b to ℕ using hw.le.trans hwb
  rw [← Int.ofNat_tdiv, ← Int.ofNat_tdiv]
  exact_mod_cast Nat.div_le_div_left (by exact_mod_cast hwb) (by exact_mod_cast hw)

theorem tdiv_le_tdiv_of_neg_divisor (ha : 0 ≤ a) (haz : a ≤ z) (hw : w < 0) (hbw : b ≤ w) :
    z.tdiv w ≤ a.tdiv b := by
  have := tdiv_le_tdiv_of_le ha haz (neg_pos.mpr hw) (neg_le_neg hbw)
  rwa [Int.tdiv_neg, Int.tdiv_neg, neg_le_neg_iff] at this

theorem tdiv_le_tdiv_of_nonpos (ha : a ≤ 0) (hza : z ≤ a) (hw : 0 < w) (hwb : w ≤ b) :
    z.tdiv w ≤ a.tdiv b := by
  have := tdiv_le_tdiv_of_le (neg_nonneg.mpr ha) (neg_le_neg hza) hw hwb
  rwa [Int.neg_tdiv, Int.neg_tdiv, neg_le_neg_iff] at this

theorem tdiv_le_tdiv_of_nonpos_of_neg (ha : a ≤ 0) (hza : z ≤ a) (hw : w < 0) (hbw : b ≤ w) :
    a.tdiv b ≤ z.tdiv w := by
  have := tdiv_le_tdiv_of_le (neg_nonneg.mpr ha) (neg_le_neg hza) (neg_pos.mpr hw)
    (neg_le_neg hbw)
  rwa [Int.neg_tdiv_neg, Int.neg_tdiv_neg] at this

theorem tdiv_between_left (hb : b ≠ 0) (haz : a ≤ z) (hzc : z ≤ c) :
    min (a.tdiv b) (c.tdiv b) ≤ z.tdiv b ∧ z.tdiv b ≤ max (a.tdiv b) (c.tdiv b) := by
  rcases lt_or_gt_of_ne hb with hb | hb
  · have ha := Int.tdiv_le_tdiv (neg_pos.mpr hb) haz
    have hc := Int.tdiv_le_tdiv (neg_pos.mpr hb) hzc
    simp only [Int.tdiv_neg] at ha hc
    omega
  · have ha := Int.tdiv_le_tdiv hb haz
    have hc := Int.tdiv_le_tdiv hb hzc
    omega

theorem tdiv_between_right (hbc : 0 < b ∨ c < 0) (hbw : b ≤ w) (hwc : w ≤ c) :
    min (z.tdiv b) (z.tdiv c) ≤ z.tdiv w ∧ z.tdiv w ≤ max (z.tdiv b) (z.tdiv c) := by
  rcases hbc with hb | hc
  · have hw := hb.trans_le hbw
    rcases le_total 0 z with hz | hz
    · have hlo := tdiv_le_tdiv_of_le hz le_rfl hw hwc
      have hhi := tdiv_le_tdiv_of_le hz le_rfl hb hbw
      omega
    · have hlo := tdiv_le_tdiv_of_nonpos hz le_rfl hb hbw
      have hhi := tdiv_le_tdiv_of_nonpos hz le_rfl hw hwc
      omega
  · have hw := hwc.trans_lt hc
    rcases le_total 0 z with hz | hz
    · have hlo := tdiv_le_tdiv_of_neg_divisor hz le_rfl hc hwc
      have hhi := tdiv_le_tdiv_of_neg_divisor hz le_rfl hw hbw
      omega
    · have hlo := tdiv_le_tdiv_of_nonpos_of_neg hz le_rfl hw hbw
      have hhi := tdiv_le_tdiv_of_nonpos_of_neg hz le_rfl hc hwc
      omega

theorem mul_between (haz : a ≤ z) (hzc : z ≤ c) :
    min (a * b) (c * b) ≤ z * b ∧ z * b ≤ max (a * b) (c * b) := by
  rcases le_total 0 b with hb | hb
  · have ha := mul_le_mul_of_nonneg_right haz hb
    have hc := mul_le_mul_of_nonneg_right hzc hb
    omega
  · have ha := mul_le_mul_of_nonpos_right haz hb
    have hc := mul_le_mul_of_nonpos_right hzc hb
    omega

end Quotients

namespace Interval

/-- The known ends of the interval bound `z`. -/
structure Contains (x : Interval) (ρ : InstrId → ℤ) (z : ℤ) : Prop where
  lower : ∀ r, x.lower.read? ρ = some r → r ≤ z
  upper : ∀ r, x.upper.read? ρ = some r → z ≤ r

variable {ρ : InstrId → ℤ} {x y : Interval} {z w : ℤ}

theorem contains_unknown : unknown.Contains ρ z :=
  ⟨fun r h => (by cases h), fun r h => (by cases h)⟩

theorem contains_exactly {v : Affine} (h : ∀ r, v.read? ρ = some r → r = z) :
    (exactly v).Contains ρ z :=
  ⟨fun r hr => (h r hr).le, fun r hr => (h r hr).ge⟩

theorem contains_constant (c : Int32) : (constant c).Contains ρ c.toInt :=
  contains_exactly fun r hr => by
    rw [Affine.read?_constant, Option.some.injEq] at hr
    exact hr.symm

theorem Contains.le_of_constant? {c : Int32} (hx : x.Contains ρ z)
    (h : x.lower.constant? = some c) : c.toInt ≤ z := hx.lower _ (Affine.read?_constant_int h)

theorem Contains.of_constant?_le {c : Int32} (hx : x.Contains ρ z)
    (h : x.upper.constant? = some c) : z ≤ c.toInt := hx.upper _ (Affine.read?_constant_int h)

theorem nonneg_iff : x.nonneg = true ↔ ∃ c, x.lower.constant? = some c ∧ 0 ≤ c.toInt := by
  unfold nonneg
  split <;> simp_all

theorem nonpos_iff : x.nonpos = true ↔ ∃ c, x.upper.constant? = some c ∧ c.toInt ≤ 0 := by
  unfold nonpos
  split <;> simp_all

/-- What an interval contains has its sign, as has the end nearer to zero. -/
theorem Contains.of_nonneg (hx : x.Contains ρ z) (h : x.nonneg = true) :
    0 ≤ z ∧ ∀ r, x.lower.read? ρ = some r → 0 ≤ r := by
  obtain ⟨c, hc, hpos⟩ := nonneg_iff.mp h
  refine ⟨hpos.trans (hx.le_of_constant? hc), ?_⟩
  intro r hr
  rw [Affine.read?_constant_int hc, Option.some.injEq] at hr
  exact hr ▸ hpos

theorem Contains.of_nonpos (hx : x.Contains ρ z) (h : x.nonpos = true) :
    z ≤ 0 ∧ ∀ r, x.upper.read? ρ = some r → r ≤ 0 := by
  obtain ⟨c, hc, hneg⟩ := nonpos_iff.mp h
  refine ⟨(hx.of_constant?_le hc).trans hneg, fun r hr => ?_⟩
  rw [Affine.read?_constant_int hc, Option.some.injEq] at hr
  exact hr ▸ hneg

/-- The ends of an interval that an operation gives need only bound the result where both
of their operands are known. -/
theorem contains_ends {op : Affine → Affine → Affine} {g : ℤ → ℤ → ℤ} {a b c d : Affine} {t : ℤ}
    (hop : ∀ {v w r}, (op v w).read? ρ = some r → Affine.Both ρ g v w r)
    (hlo : ∀ u v, a.read? ρ = some u → b.read? ρ = some v → g u v ≤ t)
    (hhi : ∀ u v, c.read? ρ = some u → d.read? ρ = some v → t ≤ g u v) :
    Contains ⟨op a b, op c d⟩ ρ t := by
  constructor
  · intro r hr
    obtain ⟨u, v, hu, hv, rfl⟩ := hop hr
    exact hlo u v hu hv
  · intro r hr
    obtain ⟨u, v, hu, hv, rfl⟩ := hop hr
    exact hhi u v hu hv

theorem contains_add (hx : x.Contains ρ z) (hy : y.Contains ρ w) :
    (x.add y).Contains ρ (z + w) := by
  apply contains_ends Affine.read?_add
  · intro u v hu hv
    exact add_le_add (hx.lower u hu) (hy.lower v hv)
  · intro u v hu hv
    exact add_le_add (hx.upper u hu) (hy.upper v hv)

theorem contains_sub (hx : x.Contains ρ z) (hy : y.Contains ρ w) :
    (x.sub y).Contains ρ (z - w) := by
  apply contains_ends Affine.read?_sub
  · intro u v hu hv
    exact sub_le_sub (hx.lower u hu) (hy.upper v hv)
  · intro u v hu hv
    exact sub_le_sub (hx.upper u hu) (hy.lower v hv)

theorem contains_neg (hx : x.Contains ρ z) : x.neg.Contains ρ (-z) := by
  have := contains_sub (contains_constant (ρ := ρ) 0) hx
  rwa [Int32.toInt_zero, zero_sub] at this

theorem contains_hull (h : x.Contains ρ z ∨ y.Contains ρ z) : (x.hull y).Contains ρ z := by
  constructor
  · intro r hr
    obtain ⟨a, b, ha, hb, rfl⟩ := Affine.read?_min hr
    exact min_le_iff.mpr (h.imp (fun h => h.lower a ha) fun h => h.lower b hb)
  · intro r hr
    obtain ⟨a, b, ha, hb, rfl⟩ := Affine.read?_max hr
    exact le_max_iff.mpr (h.imp (fun h => h.upper a ha) fun h => h.upper b hb)

theorem contains_scale (hx : x.Contains ρ z) (c : Int32) :
    (x.scale c).Contains ρ (z * c.toInt) := by
  have hread {v : ℤ} (hv : (Affine.constant c).read? ρ = some v) : v = c.toInt := by
    rw [Affine.read?_constant, Option.some.injEq] at hv
    exact hv.symm
  unfold scale
  split_ifs with hc
  · apply contains_ends Affine.read?_mul
    · intro u v hu hv
      obtain rfl := hread hv
      exact mul_le_mul_of_nonneg_right (hx.lower u hu) hc
    · intro u v hu hv
      obtain rfl := hread hv
      exact mul_le_mul_of_nonneg_right (hx.upper u hu) hc
  · have hc : c.toInt ≤ 0 := (not_le.mp hc).le
    apply contains_ends Affine.read?_mul
    · intro u v hu hv
      obtain rfl := hread hv
      exact mul_le_mul_of_nonpos_right (hx.upper u hu) hc
    · intro u v hu hv
      obtain rfl := hread hv
      exact mul_le_mul_of_nonpos_right (hx.lower u hu) hc

theorem contains_corners {op : Affine → Affine → Affine} {t : ℤ}
    (h : ∀ a b c d, (op x.lower y.lower).read? ρ = some a →
      (op x.lower y.upper).read? ρ = some b → (op x.upper y.lower).read? ρ = some c →
      (op x.upper y.upper).read? ρ = some d →
      min (min (min a b) c) d ≤ t ∧ t ≤ max (max (max a b) c) d) :
    (corners op x y).Contains ρ t := by
  unfold corners
  split
  · rename_i a b c d ha hb hc hd
    obtain ⟨hlo, hhi⟩ := h _ _ _ _ (Affine.read?_constant_int ha) (Affine.read?_constant_int hb)
      (Affine.read?_constant_int hc) (Affine.read?_constant_int hd)
    constructor
    · intro r hr
      rw [Affine.read?_constant, Option.some.injEq, Affine.ofWord_int] at hr
      rw [← hr, Affine.toInt_lesser, Affine.toInt_lesser, Affine.toInt_lesser]
      exact hlo
    · intro r hr
      rw [Affine.read?_constant, Option.some.injEq, Affine.ofWord_int] at hr
      rw [← hr, Affine.toInt_greater, Affine.toInt_greater, Affine.toInt_greater]
      exact hhi
  · exact contains_unknown

theorem read?_of_single? {c : Int32} (h : x.single? = some c) :
    x.lower.constant? = some c ∧ x.upper.constant? = some c := by
  unfold single? at h
  split at h
  · rename_i a b ha hb
    split_ifs at h with hab
    rw [← Option.some.inj h]
    exact ⟨ha, hab ▸ hb⟩
  · cases h

theorem Contains.eq_of_single? (hx : x.Contains ρ z) {c : Int32} (h : x.single? = some c) :
    z = c.toInt := by
  obtain ⟨hlo, hhi⟩ := read?_of_single? h
  exact le_antisymm (hx.of_constant?_le hhi) (hx.le_of_constant? hlo)

theorem contains_corners_mul (hx : x.Contains ρ z) (hy : y.Contains ρ w) :
    (corners .mul x y).Contains ρ (z * w) := by
  apply contains_corners
  intro a b c d ha hb hc hd
  obtain ⟨x₁, y₁, hx₁, hy₁, rfl⟩ := Affine.read?_mul ha
  obtain ⟨x₂, y₂, hx₂, hy₂, rfl⟩ := Affine.read?_mul hd
  obtain rfl := (Affine.read?_mul hb).eq hx₁ hy₂
  obtain rfl := (Affine.read?_mul hc).eq hx₂ hy₁
  have hleft (b : ℤ) := mul_between (b := b) (hx.lower x₁ hx₁) (hx.upper x₂ hx₂)
  have hright := mul_between (b := z) (hy.lower y₁ hy₁) (hy.upper y₂ hy₂)
  rw [mul_comm w, mul_comm y₁, mul_comm y₂] at hright
  have h₁ := hleft y₁
  have h₂ := hleft y₂
  dsimp only
  omega

theorem contains_mul (hx : x.Contains ρ z) (hy : y.Contains ρ w) :
    (x.mul y).Contains ρ (z * w) := by
  unfold mul
  split
  · rename_i c hc
    rw [hx.eq_of_single? hc, mul_comm]
    exact contains_scale hy c
  · rename_i c _ hc
    rw [hy.eq_of_single? hc]
    exact contains_scale hx c
  split_ifs with hpp hpn hnp hnn
  · rw [Bool.and_eq_true] at hpp
    obtain ⟨hz, -⟩ := hx.of_nonneg hpp.1
    obtain ⟨hw, hlw⟩ := hy.of_nonneg hpp.2
    apply contains_ends Affine.read?_mul
    · intro u v hu hv
      exact mul_le_mul (hx.lower u hu) (hy.lower v hv) (hlw v hv) hz
    · intro u v hu hv
      exact mul_le_mul (hx.upper u hu) (hy.upper v hv) hw (hz.trans (hx.upper u hu))
  · rw [Bool.and_eq_true] at hpn
    obtain ⟨hz, hlz⟩ := hx.of_nonneg hpn.1
    obtain ⟨hw, -⟩ := hy.of_nonpos hpn.2
    apply contains_ends Affine.read?_mul
    · intro u v hu hv
      exact (mul_le_mul_of_nonneg_left (hy.lower v hv) (hz.trans (hx.upper u hu))).trans
        (mul_le_mul_of_nonpos_right (hx.upper u hu) hw)
    · intro u v hu hv
      exact (mul_le_mul_of_nonpos_right (hx.lower u hu) hw).trans
        (mul_le_mul_of_nonneg_left (hy.upper v hv) (hlz u hu))
  · rw [Bool.and_eq_true] at hnp
    obtain ⟨hz, -⟩ := hx.of_nonpos hnp.1
    obtain ⟨hw, hlw⟩ := hy.of_nonneg hnp.2
    apply contains_ends Affine.read?_mul
    · intro u v hu hv
      exact (mul_le_mul_of_nonneg_right (hx.lower u hu) (hw.trans (hy.upper v hv))).trans
        (mul_le_mul_of_nonpos_left (hy.upper v hv) hz)
    · intro u v hu hv
      exact (mul_le_mul_of_nonpos_left (hy.lower v hv) hz).trans
        (mul_le_mul_of_nonneg_right (hx.upper u hu) (hlw v hv))
  · rw [Bool.and_eq_true] at hnn
    obtain ⟨hz, -⟩ := hx.of_nonpos hnn.1
    obtain ⟨hw, hlw⟩ := hy.of_nonpos hnn.2
    apply contains_ends Affine.read?_mul
    · intro u v hu hv
      exact (mul_le_mul_of_nonpos_right (hx.upper u hu) (hlw v hv)).trans
        (mul_le_mul_of_nonpos_left (hy.upper v hv) hz)
    · intro u v hu hv
      exact (mul_le_mul_of_nonpos_left (hy.lower v hv) hz).trans
        (mul_le_mul_of_nonpos_right (hx.lower u hu) ((hy.lower v hv).trans hw))
  · exact contains_corners_mul hx hy

theorem not_hasZero {a b : Int32} (h : ¬y.hasZero = true) (ha : y.lower.constant? = some a)
    (hb : y.upper.constant? = some b) : 0 < a.toInt ∨ b.toInt < 0 := by
  simp only [hasZero, ha, hb, Bool.and_eq_true, decide_eq_true_eq] at h
  omega

/-- The ends of a nonnegative divisor that are known, apart from zero, bound it within the
positive numbers. -/
theorem Contains.pos_of_nonneg (hy : y.Contains ρ w) (hzero : ¬y.hasZero = true)
    (h : y.nonneg = true) {v : Int32} :
    (y.lower.constant? = some v → v.toInt ≠ 0 → 0 < v.toInt ∧ v.toInt ≤ w) ∧
      (y.upper.constant? = some v → 0 < w ∧ w ≤ v.toInt) := by
  obtain ⟨c, hc, hpos⟩ := nonneg_iff.mp h
  have hcw := hy.le_of_constant? hc
  constructor
  · intro hv hne
    obtain rfl := Option.some.inj (hc.symm.trans hv)
    omega
  · intro hv
    have hwv := hy.of_constant?_le hv
    have := not_hasZero hzero hc hv
    omega

theorem Contains.neg_of_nonpos (hy : y.Contains ρ w) (hzero : ¬y.hasZero = true)
    (h : y.nonpos = true) {v : Int32} :
    (y.upper.constant? = some v → v.toInt ≠ 0 → v.toInt < 0 ∧ w ≤ v.toInt) ∧
      (y.lower.constant? = some v → w < 0 ∧ v.toInt ≤ w) := by
  obtain ⟨c, hc, hneg⟩ := nonpos_iff.mp h
  have hwc := hy.of_constant?_le hc
  constructor
  · intro hv hne
    obtain rfl := Option.some.inj (hc.symm.trans hv)
    omega
  · intro hv
    have hvw := hy.le_of_constant? hv
    have := not_hasZero hzero hv hc
    omega

theorem contains_quotients {a b c d : Affine} {t : ℤ}
    (hlo : ∀ u v : Int32, a.constant? = some u → b.constant? = some v → v.toInt ≠ 0 →
      u.toInt.tdiv v.toInt ≤ t)
    (hhi : ∀ u v : Int32, c.constant? = some u → d.constant? = some v → v.toInt ≠ 0 →
      t ≤ u.toInt.tdiv v.toInt) :
    Contains ⟨a.div b, c.div d⟩ ρ t := by
  constructor
  · intro r hr
    obtain ⟨u, v, hu, hv, hne, rfl⟩ := Affine.read?_div_int hr
    exact hlo u v hu hv hne
  · intro r hr
    obtain ⟨u, v, hu, hv, hne, rfl⟩ := Affine.read?_div_int hr
    exact hhi u v hu hv hne

theorem contains_corners_div (hx : x.Contains ρ z) (hy : y.Contains ρ w)
    (hzero : ¬y.hasZero = true) : (corners .div x y).Contains ρ (z.tdiv w) := by
  apply contains_corners
  intro a b c d ha hb hc hd
  obtain ⟨x₁, y₁, hx₁, hy₁, hne₁, rfl⟩ := Affine.read?_div_int ha
  obtain ⟨x₂, y₂, hx₂, hy₂, hne₂, rfl⟩ := Affine.read?_div_int hd
  obtain rfl := Affine.eq_tdiv_of_read?_div hb hx₁ hy₂
  obtain rfl := Affine.eq_tdiv_of_read?_div hc hx₂ hy₁
  have h₁ := tdiv_between_left hne₁ (hx.le_of_constant? hx₁) (hx.of_constant?_le hx₂)
  have h₂ := tdiv_between_left hne₂ (hx.le_of_constant? hx₁) (hx.of_constant?_le hx₂)
  have hright := tdiv_between_right (z := z) (not_hasZero hzero hy₁ hy₂)
    (hy.le_of_constant? hy₁) (hy.of_constant?_le hy₂)
  omega

theorem contains_div (hx : x.Contains ρ z) (hy : y.Contains ρ w) :
    (x.div y).Contains ρ (z.tdiv w) := by
  unfold div
  split_ifs with hzero hpp hpn hnp hnn
  · exact contains_unknown
  · rw [Bool.and_eq_true] at hpp
    obtain ⟨hz, hlz⟩ := hx.of_nonneg hpp.1
    apply contains_quotients
    · intro u v hu hv _
      obtain ⟨hw, hwv⟩ := (hy.pos_of_nonneg hzero hpp.2).2 hv
      exact tdiv_le_tdiv_of_le (hlz _ (Affine.read?_constant_int hu)) (hx.le_of_constant? hu)
        hw hwv
    · intro u v hu hv hne
      obtain ⟨hv, hvw⟩ := (hy.pos_of_nonneg hzero hpp.2).1 hv hne
      exact tdiv_le_tdiv_of_le hz (hx.of_constant?_le hu) hv hvw
  · rw [Bool.and_eq_true] at hpn
    obtain ⟨hz, hlz⟩ := hx.of_nonneg hpn.1
    apply contains_quotients
    · intro u v hu hv hne
      obtain ⟨hv, hwv⟩ := (hy.neg_of_nonpos hzero hpn.2).1 hv hne
      exact tdiv_le_tdiv_of_neg_divisor hz (hx.of_constant?_le hu) hv hwv
    · intro u v hu hv _
      obtain ⟨hw, hvw⟩ := (hy.neg_of_nonpos hzero hpn.2).2 hv
      exact tdiv_le_tdiv_of_neg_divisor (hlz _ (Affine.read?_constant_int hu))
        (hx.le_of_constant? hu) hw hvw
  · rw [Bool.and_eq_true] at hnp
    obtain ⟨hz, hlz⟩ := hx.of_nonpos hnp.1
    apply contains_quotients
    · intro u v hu hv hne
      obtain ⟨hv, hvw⟩ := (hy.pos_of_nonneg hzero hnp.2).1 hv hne
      exact tdiv_le_tdiv_of_nonpos hz (hx.le_of_constant? hu) hv hvw
    · intro u v hu hv _
      obtain ⟨hw, hwv⟩ := (hy.pos_of_nonneg hzero hnp.2).2 hv
      exact tdiv_le_tdiv_of_nonpos (hlz _ (Affine.read?_constant_int hu))
        (hx.of_constant?_le hu) hw hwv
  · rw [Bool.and_eq_true] at hnn
    obtain ⟨hz, hlz⟩ := hx.of_nonpos hnn.1
    apply contains_quotients
    · intro u v hu hv _
      obtain ⟨hw, hvw⟩ := (hy.neg_of_nonpos hzero hnn.2).2 hv
      exact tdiv_le_tdiv_of_nonpos_of_neg (hlz _ (Affine.read?_constant_int hu))
        (hx.of_constant?_le hu) hw hvw
    · intro u v hu hv hne
      obtain ⟨hv, hwv⟩ := (hy.neg_of_nonpos hzero hnn.2).1 hv hne
      exact tdiv_le_tdiv_of_nonpos_of_neg hz (hx.le_of_constant? hu) hv hwv
  · exact contains_corners_div hx hy hzero

end Interval

end LoopBounds
