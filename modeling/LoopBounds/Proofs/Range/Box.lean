import LoopBounds.Descriptor.Bounds
import LoopBounds.Proofs.Range.Interval
import Mathlib.Order.Bounds.Basic
import Mathlib.Order.Interval.Set.Defs

/-!
# Products and quotients on a box

Two intervals with constant ends span a box. The ends of their product are the least and the
greatest product on the box, and likewise for their quotient if the divisor is never zero. Each
end is the result at one corner, whichever rule of signs gives it, and it is unknown only if the
result at some corner is no word.
-/

namespace LoopBounds

namespace Affine

/-- The constant `z`, if it is a word. -/
def ofInt? (z : ℤ) : Affine :=
  match Word.narrow? z with
  | some c => constant c
  | none => unknown

theorem ofInt?_of_some {z : ℤ} {c : Int32} (h : Word.narrow? z = some c) :
    ofInt? z = constant c := by
  rw [ofInt?, h]

theorem ofInt?_of_none {z : ℤ} (h : Word.narrow? z = none) : ofInt? z = unknown := by
  rw [ofInt?, h]

theorem constant?_ofInt? (z : ℤ) : (ofInt? z).constant? = Word.narrow? z := by
  unfold ofInt?
  cases Word.narrow? z <;> rfl

theorem anchored_zero (x : Option InstrId) (b : Int32) : anchored x 0 b = constant b := by
  cases x <;> rfl

variable {v w : Affine} {a b : Int32}

theorem mul_of_constant? (hv : v.constant? = some a) (hw : w.constant? = some b) :
    v.mul w = ofInt? (a.toInt * b.toInt) := by
  obtain ⟨hknown, hv', rfl⟩ := constant?_eq_some_iff.mp hv
  obtain ⟨hknown', hw', rfl⟩ := constant?_eq_some_iff.mp hw
  have hboth : (v.known && w.known) = true := by rw [hknown, hknown', Bool.and_self]
  have hzero : Word.mul? 0 v.offset = some 0 := by
    rw [Word.mul?, Int32.toInt_zero, zero_mul]
    exact Word.narrow?_toInt 0
  unfold mul
  rw [hboth, if_pos rfl, if_pos hv', times, hw', hzero, Word.mul?, mul_comm]
  unfold ofInt? anchored?
  cases Word.narrow? (v.offset.toInt * w.offset.toInt) with
  | none => rfl
  | some c => exact anchored_zero w.anchor c

theorem div_of_constant? (hv : v.constant? = some a) (hw : w.constant? = some b)
    (hb : b.toInt ≠ 0) : v.div w = ofInt? (a.toInt.tdiv b.toInt) := by
  have hne : b ≠ 0 := by
    rintro rfl
    exact hb rfl
  rw [div, hv, hw]
  dsimp only
  rw [Word.div?, if_neg hne]
  unfold ofInt?
  cases Word.narrow? (a.toInt.tdiv b.toInt) <;> rfl

theorem lesser_of {P : Int32 → Prop} (ha : P a) (hb : P b) : P (lesser a b) := by
  unfold lesser
  split_ifs
  · exact ha
  · exact hb

theorem greater_of {P : Int32 → Prop} (ha : P a) (hb : P b) : P (greater a b) := by
  unfold greater
  split_ifs
  · exact hb
  · exact ha

end Affine

namespace Interval

open LoopBounds.Affine

structure Between (x : Interval) (lo hi : Int32) : Prop where
  lower : x.lower.constant? = some lo
  upper : x.upper.constant? = some hi
  le : lo.toInt ≤ hi.toInt

/-- The bound is the result at a corner of the box, as far as that is a word. -/
def AtCorner (g : ℤ → ℤ → ℤ) (l₁ u₁ l₂ u₂ : Int32) (v : Affine) : Prop :=
  ∃ p q : Int32, (p = l₁ ∨ p = u₁) ∧ (q = l₂ ∨ q = u₂) ∧ v = ofInt? (g p.toInt q.toInt)

/-- The result at some corner of the box is no word. -/
def CornerLeaves (g : ℤ → ℤ → ℤ) (l₁ u₁ l₂ u₂ : Int32) : Prop :=
  ∃ p q : Int32, (p = l₁ ∨ p = u₁) ∧ (q = l₂ ∨ q = u₂) ∧ Word.narrow? (g p.toInt q.toInt) = none

def results (g : ℤ → ℤ → ℤ) (l₁ u₁ l₂ u₂ : Int32) : Set ℤ :=
  {z | ∃ p q, l₁.toInt ≤ p ∧ p ≤ u₁.toInt ∧ l₂.toInt ≤ q ∧ q ≤ u₂.toInt ∧ g p q = z}

/-- Each end is the constant that is the least or the greatest result on the box, or it is
unknown, and then the result at some corner is no word. -/
structure Tight (r : Interval) (g : ℤ → ℤ → ℤ) (l₁ u₁ l₂ u₂ : Int32) : Prop where
  lower : (∃ c, r.lower = .constant c ∧ IsLeast (results g l₁ u₁ l₂ u₂) c.toInt) ∨
    r.lower = .unknown ∧ CornerLeaves g l₁ u₁ l₂ u₂
  upper : (∃ c, r.upper = .constant c ∧ IsGreatest (results g l₁ u₁ l₂ u₂) c.toInt) ∨
    r.upper = .unknown ∧ CornerLeaves g l₁ u₁ l₂ u₂

variable {x y r : Interval} {g : ℤ → ℤ → ℤ} {op : Affine → Affine → Affine}
variable {l₁ u₁ l₂ u₂ c : Int32} {v w : Affine}

theorem Between.contains (hx : x.Between l₁ u₁) {z : ℤ} (hl : l₁.toInt ≤ z) (hu : z ≤ u₁.toInt)
    (ρ : InstrId → ℤ) : x.Contains ρ z := by
  constructor
  · intro t ht
    rw [read?_constant_int hx.lower, Option.some.injEq] at ht
    omega
  · intro t ht
    rw [read?_constant_int hx.upper, Option.some.injEq] at ht
    omega

theorem AtCorner.cases (hl₁ : l₁.toInt ≤ u₁.toInt) (hl₂ : l₂.toInt ≤ u₂.toInt)
    (h : AtCorner g l₁ u₁ l₂ u₂ v) : (∃ c, v = .constant c ∧ c.toInt ∈ results g l₁ u₁ l₂ u₂) ∨
      v = .unknown ∧ CornerLeaves g l₁ u₁ l₂ u₂ := by
  obtain ⟨p, q, hp, hq, rfl⟩ := h
  cases hz : Word.narrow? (g p.toInt q.toInt) with
  | none => exact .inr ⟨ofInt?_of_none hz, p, q, hp, hq, hz⟩
  | some c =>
    refine .inl ⟨c, ofInt?_of_some hz, p.toInt, q.toInt, ?_⟩
    rw [Word.narrow?_eq_some_iff.mp hz]
    rcases hp with rfl | rfl <;> rcases hq with rfl | rfl <;> exact ⟨by omega, by omega, by omega,
      by omega, rfl⟩

theorem tight_of_atCorner (hl₁ : l₁.toInt ≤ u₁.toInt) (hl₂ : l₂.toInt ≤ u₂.toInt)
    (hlower : AtCorner g l₁ u₁ l₂ u₂ r.lower) (hupper : AtCorner g l₁ u₁ l₂ u₂ r.upper)
    (hsound : ∀ z ∈ results g l₁ u₁ l₂ u₂, r.Contains (fun _ => 0) z) :
    r.Tight g l₁ u₁ l₂ u₂ := by
  constructor
  · apply (hlower.cases hl₁ hl₂).imp_left
    rintro ⟨c, hc, hmem⟩
    refine ⟨c, hc, hmem, ?_⟩
    intro z hz
    exact (hsound z hz).lower _ (by rw [hc, read?_constant, ofWord_int])
  · apply (hupper.cases hl₁ hl₂).imp_left
    rintro ⟨c, hc, hmem⟩
    refine ⟨c, hc, hmem, ?_⟩
    intro z hz
    exact (hsound z hz).upper _ (by rw [hc, read?_constant, ofWord_int])

/-- On the ends of a box, `op` is the operation `g` as far as the result is a word. -/
def Narrows (op : Affine → Affine → Affine) (g : ℤ → ℤ → ℤ) (l₁ u₁ l₂ u₂ : Int32) : Prop :=
  ∀ p q : Int32, (p = l₁ ∨ p = u₁) → (q = l₂ ∨ q = u₂) → ∀ v w : Affine, v.constant? = some p →
    w.constant? = some q → op v w = ofInt? (g p.toInt q.toInt)

theorem Narrows.atCorner {p q : Int32} (hop : Narrows op g l₁ u₁ l₂ u₂) (hp : p = l₁ ∨ p = u₁)
    (hq : q = l₂ ∨ q = u₂) (hv : v.constant? = some p) (hw : w.constant? = some q) :
    AtCorner g l₁ u₁ l₂ u₂ (op v w) := ⟨p, q, hp, hq, hop p q hp hq v w hv hw⟩

/-- If the results at all corners are words, the least and the greatest of them are taken;
otherwise both ends are unknown. -/
theorem Narrows.corners_cases (hop : Narrows op g l₁ u₁ l₂ u₂) (hx : x.Between l₁ u₁)
    (hy : y.Between l₂ u₂) :
    (¬CornerLeaves g l₁ u₁ l₂ u₂ ∧ AtCorner g l₁ u₁ l₂ u₂ (corners op x y).lower ∧
      AtCorner g l₁ u₁ l₂ u₂ (corners op x y).upper) ∨
    (CornerLeaves g l₁ u₁ l₂ u₂ ∧ corners op x y = unknown) := by
  unfold corners
  rw [hop l₁ l₂ (.inl rfl) (.inl rfl) _ _ hx.lower hy.lower,
    hop l₁ u₂ (.inl rfl) (.inr rfl) _ _ hx.lower hy.upper,
    hop u₁ l₂ (.inr rfl) (.inl rfl) _ _ hx.upper hy.lower,
    hop u₁ u₂ (.inr rfl) (.inr rfl) _ _ hx.upper hy.upper]
  simp only [constant?_ofInt?]
  split
  · rename_i a b c d ha hb hc hd
    left
    constructor
    · rintro ⟨p, q, rfl | rfl, rfl | rfl, hnone⟩
      · rw [hnone] at ha
        cases ha
      · rw [hnone] at hb
        cases hb
      · rw [hnone] at hc
        cases hc
      · rw [hnone] at hd
        cases hd
    · have hcorner {p q e : Int32} (hp : p = l₁ ∨ p = u₁) (hq : q = l₂ ∨ q = u₂)
          (he : Word.narrow? (g p.toInt q.toInt) = some e) :
          AtCorner g l₁ u₁ l₂ u₂ (.constant e) := ⟨p, q, hp, hq, (ofInt?_of_some he).symm⟩
      have ha := hcorner (.inl rfl) (.inl rfl) ha
      have hb := hcorner (.inl rfl) (.inr rfl) hb
      have hc := hcorner (.inr rfl) (.inl rfl) hc
      have hd := hcorner (.inr rfl) (.inr rfl) hd
      let P (e : Int32) : Prop := AtCorner g l₁ u₁ l₂ u₂ (.constant e)
      exact ⟨lesser_of (P := P) (lesser_of (P := P) (lesser_of (P := P) ha hb) hc) hd,
        greater_of (P := P) (greater_of (P := P) (greater_of (P := P) ha hb) hc) hd⟩
  · rename_i hnone
    refine .inr ⟨?_, rfl⟩
    by_contra hstays
    have hword {p q : Int32} (hp : p = l₁ ∨ p = u₁) (hq : q = l₂ ∨ q = u₂) :
        ∃ e, Word.narrow? (g p.toInt q.toInt) = some e := by
      rw [← Option.ne_none_iff_exists']
      intro h
      exact hstays ⟨p, q, hp, hq, h⟩
    obtain ⟨a, ha⟩ := hword (.inl rfl) (.inl rfl)
    obtain ⟨b, hb⟩ := hword (.inl rfl) (.inr rfl)
    obtain ⟨c, hc⟩ := hword (.inr rfl) (.inl rfl)
    obtain ⟨d, hd⟩ := hword (.inr rfl) (.inr rfl)
    exact hnone a b c d ha hb hc hd

theorem Narrows.atCorner_corners (hop : Narrows op g l₁ u₁ l₂ u₂) (hx : x.Between l₁ u₁)
    (hy : y.Between l₂ u₂) : AtCorner g l₁ u₁ l₂ u₂ (corners op x y).lower ∧
      AtCorner g l₁ u₁ l₂ u₂ (corners op x y).upper := by
  rcases hop.corners_cases hx hy with ⟨-, h⟩ | ⟨⟨p, q, hp, hq, h⟩, hunknown⟩
  · exact h
  · have hcorner : AtCorner g l₁ u₁ l₂ u₂ .unknown := ⟨p, q, hp, hq, (ofInt?_of_none h).symm⟩
    rw [hunknown]
    exact ⟨hcorner, hcorner⟩

/-- Where the four corners are known, they give the only tight interval. -/
theorem Narrows.eq_corners (hop : Narrows op g l₁ u₁ l₂ u₂) (hx : x.Between l₁ u₁)
    (hy : y.Between l₂ u₂) (hr : r.Tight g l₁ u₁ l₂ u₂)
    (hcorners : (corners op x y).Tight g l₁ u₁ l₂ u₂) :
    corners op x y = unknown ∨ r = corners op x y := by
  rcases hop.corners_cases hx hy with ⟨hstays, -⟩ | ⟨-, hunknown⟩
  · right
    obtain ⟨a, ha, hleast⟩ := hr.lower.resolve_right fun h => hstays h.2
    obtain ⟨b, hb, hgreatest⟩ := hr.upper.resolve_right fun h => hstays h.2
    obtain ⟨a', ha', hleast'⟩ := hcorners.lower.resolve_right fun h => hstays h.2
    obtain ⟨b', hb', hgreatest'⟩ := hcorners.upper.resolve_right fun h => hstays h.2
    obtain rfl : a = a' := Int32.toInt_inj.mp (hleast.unique hleast')
    obtain rfl : b = b' := Int32.toInt_inj.mp (hgreatest.unique hgreatest')
    calc r = ⟨r.lower, r.upper⟩ := rfl
      _ = ⟨(corners op x y).lower, (corners op x y).upper⟩ := by rw [ha, hb, ha', hb']
      _ = corners op x y := rfl
  · exact .inl hunknown

section Product

variable (l₁ u₁ l₂ u₂) in
theorem narrows_mul : Narrows .mul (· * ·) l₁ u₁ l₂ u₂ :=
  fun _ _ _ _ _ _ hv hw => mul_of_constant? hv hw

variable (hx : x.Between l₁ u₁) (hy : y.Between l₂ u₂)

include hx hy

/-- A product takes its ends from corners, in the order that the signs ask for. -/
theorem Between.atCorner_mul : AtCorner (· * ·) l₁ u₁ l₂ u₂ (x.mul y).lower ∧
    AtCorner (· * ·) l₁ u₁ l₂ u₂ (x.mul y).upper := by
  have hop := narrows_mul l₁ u₁ l₂ u₂
  have hswap {v w : Affine} {p q : Int32} (hp : p = l₁ ∨ p = u₁) (hq : q = l₂ ∨ q = u₂)
      (hv : v.constant? = some p) (hw : w.constant? = some q) :
      AtCorner (· * ·) l₁ u₁ l₂ u₂ (w.mul v) := by
    refine ⟨p, q, hp, hq, ?_⟩
    rw [mul_of_constant? hw hv, mul_comm]
  unfold mul
  split
  · rename_i c hc
    obtain rfl : l₁ = c := Option.some.inj (hx.lower.symm.trans (read?_of_single? hc).1)
    have hconstant : (Affine.constant l₁).constant? = some l₁ := rfl
    unfold scale
    dsimp only
    split_ifs
    · exact ⟨hswap (.inl rfl) (.inl rfl) hconstant hy.lower,
        hswap (.inl rfl) (.inr rfl) hconstant hy.upper⟩
    · exact ⟨hswap (.inl rfl) (.inr rfl) hconstant hy.upper,
        hswap (.inl rfl) (.inl rfl) hconstant hy.lower⟩
  · rename_i c _ hc
    obtain rfl : l₂ = c := Option.some.inj (hy.lower.symm.trans (read?_of_single? hc).1)
    have hconstant : (Affine.constant l₂).constant? = some l₂ := rfl
    unfold scale
    dsimp only
    split_ifs
    · exact ⟨hop.atCorner (.inl rfl) (.inl rfl) hx.lower hconstant,
        hop.atCorner (.inr rfl) (.inl rfl) hx.upper hconstant⟩
    · exact ⟨hop.atCorner (.inr rfl) (.inl rfl) hx.upper hconstant,
        hop.atCorner (.inl rfl) (.inl rfl) hx.lower hconstant⟩
  · have hll := hop.atCorner (.inl rfl) (.inl rfl) hx.lower hy.lower
    have hlu := hop.atCorner (.inl rfl) (.inr rfl) hx.lower hy.upper
    have hul := hop.atCorner (.inr rfl) (.inl rfl) hx.upper hy.lower
    have huu := hop.atCorner (.inr rfl) (.inr rfl) hx.upper hy.upper
    split_ifs
    · exact ⟨hll, huu⟩
    · exact ⟨hul, hlu⟩
    · exact ⟨hlu, hul⟩
    · exact ⟨huu, hll⟩
    · exact hop.atCorner_corners hx hy

theorem Between.tight_mul : (x.mul y).Tight (· * ·) l₁ u₁ l₂ u₂ := by
  obtain ⟨hlower, hupper⟩ := hx.atCorner_mul hy
  apply tight_of_atCorner hx.le hy.le hlower hupper
  rintro _ ⟨p, q, hp, hp', hq, hq', rfl⟩
  exact contains_mul (hx.contains hp hp' _) (hy.contains hq hq' _)

theorem Between.mul_eq_corners : corners .mul x y = unknown ∨ x.mul y = corners .mul x y := by
  have hop := narrows_mul l₁ u₁ l₂ u₂
  obtain ⟨hlower, hupper⟩ := hop.atCorner_corners hx hy
  apply hop.eq_corners hx hy (hx.tight_mul hy)
  apply tight_of_atCorner hx.le hy.le hlower hupper
  rintro _ ⟨p, q, hp, hp', hq, hq', rfl⟩
  exact contains_corners_mul (hx.contains hp hp' _) (hy.contains hq hq' _)

end Product

section Quotient

theorem Between.hasZero_iff (hy : y.Between l₂ u₂) :
    y.hasZero = true ↔ l₂.toInt ≤ 0 ∧ 0 ≤ u₂.toInt := by
  simp [hasZero, hy.lower, hy.upper]

theorem Between.div_of_zero (hy : y.Between l₂ u₂) (hzero : l₂.toInt ≤ 0 ∧ 0 ≤ u₂.toInt)
    (x : Interval) : x.div y = unknown := by
  unfold div
  rw [if_pos (hy.hasZero_iff.mpr hzero)]

variable (hx : x.Between l₁ u₁) (hy : y.Between l₂ u₂)
variable (hzero : ¬(l₂.toInt ≤ 0 ∧ 0 ≤ u₂.toInt))

include hy hzero

variable (l₁ u₁) in
theorem Between.narrows_div : Narrows .div Int.tdiv l₁ u₁ l₂ u₂ := by
  have hle := hy.le
  intro p q _ hq v w hv hw
  apply div_of_constant? hv hw
  rcases hq with rfl | rfl <;> omega

include hx

theorem Between.atCorner_div : AtCorner Int.tdiv l₁ u₁ l₂ u₂ (x.div y).lower ∧
    AtCorner Int.tdiv l₁ u₁ l₂ u₂ (x.div y).upper := by
  have hop := hy.narrows_div l₁ u₁ hzero
  have hll := hop.atCorner (.inl rfl) (.inl rfl) hx.lower hy.lower
  have hlu := hop.atCorner (.inl rfl) (.inr rfl) hx.lower hy.upper
  have hul := hop.atCorner (.inr rfl) (.inl rfl) hx.upper hy.lower
  have huu := hop.atCorner (.inr rfl) (.inr rfl) hx.upper hy.upper
  unfold div
  rw [if_neg (hy.hasZero_iff.not.mpr hzero)]
  split_ifs
  · exact ⟨hlu, hul⟩
  · exact ⟨huu, hll⟩
  · exact ⟨hll, huu⟩
  · exact ⟨hul, hlu⟩
  · exact hop.atCorner_corners hx hy

theorem Between.tight_div : (x.div y).Tight Int.tdiv l₁ u₁ l₂ u₂ := by
  obtain ⟨hlower, hupper⟩ := hx.atCorner_div hy hzero
  apply tight_of_atCorner hx.le hy.le hlower hupper
  rintro _ ⟨p, q, hp, hp', hq, hq', rfl⟩
  exact contains_div (hx.contains hp hp' _) (hy.contains hq hq' _)

theorem Between.div_eq_corners : corners .div x y = unknown ∨ x.div y = corners .div x y := by
  have hop := hy.narrows_div l₁ u₁ hzero
  obtain ⟨hlower, hupper⟩ := hop.atCorner_corners hx hy
  apply hop.eq_corners hx hy (hx.tight_div hy hzero)
  apply tight_of_atCorner hx.le hy.le hlower hupper
  rintro _ ⟨p, q, hp, hp', hq, hq', rfl⟩
  exact contains_corners_div (hx.contains hp hp' _) (hy.contains hq hq' _)
    (hy.hasZero_iff.not.mpr hzero)

end Quotient

end Interval

namespace Descriptor

open LoopBounds.Interval

variable {a b : Descriptor} {trip : Option Descriptor} {inBody : Bool} {l₁ u₁ l₂ u₂ : Int32}

/-- The bounds of a product whose operands have constant bounds are its least and its greatest
value on the box, and so are those of a quotient, unless zero is a divisor; then there are none.
A bound is unknown only if the result at one of the four corners is no word. Where the four
corners are known, they are the bounds. -/
theorem tight_bounds_mul_div (ha : (a.bounds trip inBody).Between l₁ u₁)
    (hb : (b.bounds trip inBody).Between l₂ u₂) :
    (((binary .mul a b).bounds trip inBody).Tight (· * ·) l₁ u₁ l₂ u₂ ∧
      (corners .mul (a.bounds trip inBody) (b.bounds trip inBody) = .unknown ∨
        (binary .mul a b).bounds trip inBody =
          corners .mul (a.bounds trip inBody) (b.bounds trip inBody))) ∧
    (l₂.toInt ≤ 0 ∧ 0 ≤ u₂.toInt → (binary .div a b).bounds trip inBody = .unknown) ∧
    (¬(l₂.toInt ≤ 0 ∧ 0 ≤ u₂.toInt) →
      ((binary .div a b).bounds trip inBody).Tight Int.tdiv l₁ u₁ l₂ u₂ ∧
      (corners .div (a.bounds trip inBody) (b.bounds trip inBody) = .unknown ∨
        (binary .div a b).bounds trip inBody =
          corners .div (a.bounds trip inBody) (b.bounds trip inBody))) := by
  refine ⟨⟨ha.tight_mul hb, ha.mul_eq_corners hb⟩, ?_, ?_⟩
  · intro hzero
    exact hb.div_of_zero hzero (a.bounds trip inBody)
  · intro hzero
    exact ⟨ha.tight_div hb hzero, ha.div_eq_corners hb hzero⟩

/-- A sequence of `-7` and `8` by one of `-3` and `-2`. The product has the signs of neither rule,
and the quotient is rounded towards zero. -/
theorem tight_bounds_alternating :
    let a := periodic (constant (-7)) (constant 8)
    let b := periodic (constant (-3)) (constant (-2))
    (binary .mul a b).bounds none true = ⟨.constant (-24), .constant 21⟩ ∧
      IsLeast (results (· * ·) (-7) 8 (-3) (-2)) (-24) ∧
      (binary .div a b).bounds none true = ⟨.constant (-4), .constant 3⟩ ∧
      IsGreatest (results Int.tdiv (-7) 8 (-3) (-2)) 3 := by
  intro a b
  have ha : (a.bounds none true).Between (-7) 8 := ⟨by decide, by decide, by decide⟩
  have hb : (b.bounds none true).Between (-3) (-2) := ⟨by decide, by decide, by decide⟩
  obtain ⟨⟨hmul, -⟩, -, hdiv⟩ := tight_bounds_mul_div ha hb
  have hproduct : (binary .mul a b).bounds none true = ⟨.constant (-24), .constant 21⟩ := by
    decide +kernel
  have hquotient : (binary .div a b).bounds none true = ⟨.constant (-4), .constant 3⟩ := by
    decide +kernel
  refine ⟨hproduct, ?_, hquotient, ?_⟩
  · obtain ⟨c, hc, hleast⟩ := hmul.lower.resolve_right fun h => by
      rw [hproduct] at h
      cases h.1
    rw [hproduct] at hc
    cases hc
    exact hleast
  · obtain ⟨c, hc, hgreatest⟩ := (hdiv (by decide)).1.upper.resolve_right fun h => by
      rw [hquotient] at h
      cases h.1
    rw [hquotient] at hc
    cases hc
    exact hgreatest

end Descriptor

end LoopBounds
