import LoopBounds.Affine
import LoopBounds.Proofs.Run.Arithmetic

/-!
# Affine bounds in a ring

A known bound denotes `scale * anchor + offset` in every ring in which words are read. The
operations on bounds are exact there: a known result denotes the sum, difference, product
or quotient of what the operands denote, and both of these are known.
-/

namespace LoopBounds

namespace Affine

variable {R : Type} [Arithmetic R] (ρ : InstrId → R)

/-- What a bound denotes when it is known. -/
def read (v : Affine) : R :=
  (match v.anchor with
    | some x => ofWord R v.scale * ρ x
    | none => 0) + ofWord R v.offset

/-- What a bound denotes, if it is known. -/
def read? (v : Affine) : Option R := if v.known then some (v.read ρ) else none

variable {ρ} {v w : Affine} {r : R}

theorem read?_eq_some_iff : v.read? ρ = some r ↔ v.known = true ∧ v.read ρ = r := by
  unfold read?
  split <;> simp_all

@[simp] theorem read?_constant (b : Int32) : (constant b).read? ρ = some (ofWord R b) := by
  simp [read?, read, constant]

theorem read_of_scale_eq_zero (h : v.scale = 0) : v.read ρ = ofWord R v.offset := by
  unfold read
  split <;> simp [h]

theorem read?_ofInstr (x : InstrId) (a b : Int32) :
    (ofInstr x a b).read? ρ = some (ofWord R a * ρ x + ofWord R b) := by
  by_cases ha : a = 0
  · simp [read?, read, ofInstr, ha]
  · simp [read?, read, ofInstr, ha]

theorem read?_anchored (x : Option InstrId) (a b : Int32) :
    (anchored x a b).read? ρ = some (read ρ ⟨true, x, a, b⟩) := by
  cases x with
  | none => simp [anchored, read]
  | some x => rw [anchored, read?_ofInstr, read]

theorem read?_anchored?_eq_some {x : Option InstrId} {a b : Option Int32}
    (h : (anchored? x a b).read? ρ = some r) :
    ∃ a' b', a = some a' ∧ b = some b' ∧ r = read ρ ⟨true, x, a', b'⟩ := by
  unfold anchored? at h
  split at h
  · rw [read?_anchored] at h
    exact ⟨_, _, rfl, rfl, (Option.some.inj h).symm⟩
  · cases h

theorem constant?_eq_some_iff {c : Int32} :
    v.constant? = some c ↔ v.known = true ∧ v.scale = 0 ∧ v.offset = c := by
  unfold constant? isConstant
  split <;> simp_all

theorem read?_of_constant? {c : Int32} (h : v.constant? = some c) :
    v.read? ρ = some (ofWord R c) := by
  obtain ⟨hk, hs, rfl⟩ := constant?_eq_some_iff.mp h
  rw [read?_eq_some_iff]
  exact ⟨hk, read_of_scale_eq_zero hs⟩

/-- Both operands of an operation are known, and the result is `f` of what they denote. -/
def Both (ρ : InstrId → R) (f : R → R → R) (v w : Affine) (r : R) : Prop :=
  ∃ a b, v.read? ρ = some a ∧ w.read? ρ = some b ∧ r = f a b

theorem Both.eq {f : R → R → R} {a b : R} (h : Both ρ f v w r) (ha : v.read? ρ = some a)
    (hb : w.read? ρ = some b) : r = f a b := by
  obtain ⟨a', b', ha', hb', rfl⟩ := h
  rw [Option.some.inj (ha.symm.trans ha'), Option.some.inj (hb.symm.trans hb')]

theorem both_of_known {f : R → R → R} (h : (v.known && w.known) = true)
    (hr : r = f (v.read ρ) (w.read ρ)) : Both ρ f v w r := by
  rw [Bool.and_eq_true] at h
  exact ⟨_, _, read?_eq_some_iff.mpr ⟨h.1, rfl⟩, read?_eq_some_iff.mpr ⟨h.2, rfl⟩, hr⟩

theorem read?_add (h : (v.add w).read? ρ = some r) : Both ρ (· + ·) v w r := by
  unfold add at h
  split at h
  · rename_i hk
    apply both_of_known hk
    split_ifs at h with hv hw hanchor
    · obtain ⟨a, b, ha, hb, rfl⟩ := read?_anchored?_eq_some h
      cases ha
      rw [read_of_scale_eq_zero hv]
      simp only [read, ofWord_add? hb]
      ring
    · obtain ⟨a, b, ha, hb, rfl⟩ := read?_anchored?_eq_some h
      cases ha
      rw [read_of_scale_eq_zero hw]
      simp only [read, ofWord_add? hb]
      ring
    · obtain ⟨a, b, ha, hb, rfl⟩ := read?_anchored?_eq_some h
      simp only [read, hanchor, ofWord_add? hb, ofWord_add? ha]
      split <;> ring
    · cases h
  · cases h

theorem read?_sub (h : (v.sub w).read? ρ = some r) : Both ρ (· - ·) v w r := by
  unfold sub at h
  split at h
  · rename_i hk
    apply both_of_known hk
    split_ifs at h with hv hw hanchor
    · obtain ⟨a, b, ha, hb, rfl⟩ := read?_anchored?_eq_some h
      rw [read_of_scale_eq_zero hv]
      simp only [read, ofWord_sub? hb, ofWord_neg? ha]
      split <;> ring
    · obtain ⟨a, b, ha, hb, rfl⟩ := read?_anchored?_eq_some h
      cases ha
      rw [read_of_scale_eq_zero hw]
      simp only [read, ofWord_sub? hb]
      ring
    · obtain ⟨a, b, ha, hb, rfl⟩ := read?_anchored?_eq_some h
      simp only [read, hanchor, ofWord_sub? hb, ofWord_sub? ha]
      split <;> ring
    · cases h
  · cases h

theorem read?_times {c : Int32} (h : (v.times c).read? ρ = some r) :
    r = v.read ρ * ofWord R c := by
  obtain ⟨a, b, ha, hb, rfl⟩ := read?_anchored?_eq_some h
  simp only [read, ofWord_mul? hb, ofWord_mul? ha]
  split <;> ring

theorem read?_mul (h : (v.mul w).read? ρ = some r) : Both ρ (· * ·) v w r := by
  unfold mul at h
  split at h
  · rename_i hk
    apply both_of_known hk
    split_ifs at h with hv hw
    · rw [read?_times h, read_of_scale_eq_zero hv, mul_comm]
    · rw [read?_times h, read_of_scale_eq_zero hw]
    · cases h
  · cases h

theorem read?_div (h : (v.div w).read? ρ = some r) : Both ρ Arithmetic.quot v w r := by
  unfold div at h
  split at h
  · rename_i a b ha hb
    split at h
    · rename_i q hq
      rw [read?_constant, Option.some.injEq] at h
      exact ⟨_, _, read?_of_constant? ha, read?_of_constant? hb, h ▸ ofWord_div? hq⟩
    · cases h
  · cases h

section Pinned

def Pinned (v : Affine) (c : Int32) : Prop :=
  v.known = true ∧ (v.anchor = none ∨ v.scale = 0) ∧ v.offset = c

theorem pinned_of_constant? {c : Int32} (h : v.constant? = some c) : v.Pinned c := by
  obtain ⟨hk, hs, hc⟩ := constant?_eq_some_iff.mp h
  exact ⟨hk, .inr hs, hc⟩

theorem Pinned.read? {c : Int32} (h : v.Pinned c) : v.read? ρ = some (ofWord R c) := by
  obtain ⟨hk, hs, rfl⟩ := h
  refine read?_eq_some_iff.mpr ⟨hk, ?_⟩
  rcases hs with hs | hs
  · simp [read, hs]
  · exact read_of_scale_eq_zero hs

theorem Pinned.of_pickOffset {pick : Int32 → Int32 → Int32} {c : Int32}
    (h : (pickOffset pick v w).Pinned c) :
    v.Pinned v.offset ∧ w.Pinned w.offset ∧ c = pick v.offset w.offset := by
  unfold pickOffset at h
  split_ifs at h with hk heq
  · rw [Bool.and_eq_true] at hk
    obtain ⟨hanchor, hscale⟩ := heq
    cases hv : v.anchor with
    | none =>
      simp only [hv, anchored, Pinned, constant] at h
      exact ⟨⟨hk.1, .inl hv, rfl⟩, ⟨hk.2, .inl (hanchor ▸ hv), rfl⟩, h.2.2.symm⟩
    | some x =>
      simp only [hv, anchored, Pinned, ofInstr] at h
      have hzero : v.scale = 0 := by
        rcases h.2.1 with h | h
        · by_contra hne
          simp [hne] at h
        · exact h
      exact ⟨⟨hk.1, .inr hzero, rfl⟩, ⟨hk.2, .inr (hscale ▸ hzero), rfl⟩, h.2.2.symm⟩
  · exact absurd h.1 (by decide)
  · exact absurd h.1 (by decide)

theorem toInt_lesser (a b : Int32) : (lesser a b).toInt = Min.min a.toInt b.toInt := by
  unfold lesser
  split <;> omega

theorem toInt_greater (a b : Int32) : (greater a b).toInt = Max.max a.toInt b.toInt := by
  unfold greater
  split <;> omega

@[simp] theorem lesser_self (a : Int32) : lesser a a = a := ite_self a

@[simp] theorem greater_self (a : Int32) : greater a a = a := ite_self a

end Pinned

end Affine

end LoopBounds
