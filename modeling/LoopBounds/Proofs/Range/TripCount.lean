import LoopBounds.Proofs.Classify.Test
import LoopBounds.Proofs.Range.Bounds

/-!
# Trip counts of integers

A test that a linear sequence passes in every iteration so far bounds the number of the
iteration by the trip count that is derived from the test. The count is the number of
steps to the last member that passes, rounded towards zero.
-/

namespace LoopBounds

/-- The limit of a strict test as the limit of the test that is not strict. -/
def Comparison.inclusive (u : ℤ) : Comparison → ℤ
  | .lt => u - 1
  | .gt => u + 1
  | _ => u

namespace Descriptor

section Integers

variable {step l u : ℤ} {cmp : Comparison} {n : ℕ}

theorem movesTowards_cases (h : movesTowards step cmp = true) :
    (0 < step ∧ ∀ z, cmp.holds z u = true ↔ z ≤ cmp.inclusive u) ∨
      (step < 0 ∧ ∀ z, cmp.holds z u = true ↔ cmp.inclusive u ≤ z) := by
  cases cmp with
  | eq => cases h
  | ne => cases h
  | lt =>
    refine .inl ⟨of_decide_eq_true h, fun z => ?_⟩
    simp only [Comparison.holds, Comparison.inclusive, decide_eq_true_eq]
    omega
  | le =>
    refine .inl ⟨of_decide_eq_true h, fun z => ?_⟩
    simp only [Comparison.holds, Comparison.inclusive, decide_eq_true_eq]
  | gt =>
    refine .inr ⟨of_decide_eq_true h, fun z => ?_⟩
    simp only [Comparison.holds, Comparison.inclusive, decide_eq_true_eq]
    omega
  | ge =>
    refine .inr ⟨of_decide_eq_true h, fun z => ?_⟩
    simp only [Comparison.holds, Comparison.inclusive, decide_eq_true_eq]

theorem counted_of_le {kind : TripKind} {inBody : Bool} (hstep : 0 < step)
    (hbefore : ∀ k < n, step * (k : ℕ) + l ≤ u) (hnow : inBody = true → step * n + l ≤ u)
    (htaken : kind.needsTaken = false → l ≤ u) :
    Counted kind inBody n ((u + step - l).tdiv step) := by
  constructor
  · intro hin
    apply Int.lt_of_add_one_le
    apply Int.le_tdiv_of_mul_le hstep
    linarith [hnow hin]
  · intro _ hkind
    apply Int.le_tdiv_of_mul_le hstep
    cases n with
    | zero =>
      push_cast
      linarith [htaken hkind]
    | succ n =>
      push_cast
      linarith [hbefore n n.lt_succ_self]

/-- The iterations that pass a test are counted by the steps to its limit. -/
theorem counted_of_holds {kind : TripKind} {inBody : Bool} (hmoves : movesTowards step cmp = true)
    (hbefore : ∀ k < n, cmp.holds (step * (k : ℕ) + l) u = true)
    (hnow : inBody = true → cmp.holds (step * n + l) u = true)
    (htaken : kind.needsTaken = false → cmp.holds l u = true) :
    Counted kind inBody n ((cmp.inclusive u + step - l).tdiv step) := by
  rcases movesTowards_cases (u := u) hmoves with ⟨hstep, hiff⟩ | ⟨hstep, hiff⟩
  · simp only [hiff] at hbefore hnow htaken
    exact counted_of_le hstep hbefore hnow htaken
  · simp only [hiff] at hbefore hnow htaken
    -- A falling sequence is the negative of a rising one.
    have hneg : -(cmp.inclusive u + step - l) = -cmp.inclusive u + -step - -l := by ring
    rw [← Int.neg_tdiv_neg, hneg]
    apply counted_of_le (neg_pos.mpr hstep)
    · intro k hk
      linarith [hbefore k hk]
    · intro hin
      linarith [hnow hin]
    · intro hkind
      linarith [htaken hkind]

/-- A sequence that rises by one from below a limit stays below it as long as it does not
meet it. -/
theorem lt_of_forall_ne {m : ℕ} (hle : l ≤ u) (h : ∀ k < m, (k : ℤ) + l ≠ u) :
    ∀ k < m, (k : ℤ) + l < u := by
  intro k
  induction k with
  | zero =>
    intro hk
    have := h 0 hk
    omega
  | succ k ih =>
    intro hk
    have hne := h (k + 1) hk
    have hlt := ih (Nat.lt_of_succ_lt hk)
    omega

end Integers

section Terms

variable {ρ : InstrId → ℤ} {d stride lower upper : Descriptor} {cmp : Comparison} {c : Int32}
variable (hlower : IsTerm lower) (hupper : IsTerm upper)

theorem IsTerm.value_of_atLeast? {R : Type} [Arithmetic R] {ρ : InstrId → R} (h : IsTerm d)
    (hc : d.atLeast? = some c) : value ρ d = ofWord R c := by
  obtain ⟨⟨lo, hi⟩, hb, rfl⟩ := Option.map_eq_some_iff.mp hc
  exact (h.eq_of_constantBounds? ρ hb).2

theorem IsTerm.value_of_atMost? {R : Type} [Arithmetic R] {ρ : InstrId → R} (h : IsTerm d)
    (hc : d.atMost? = some c) : value ρ d = ofWord R c := by
  obtain ⟨⟨lo, hi⟩, hb, rfl⟩ := Option.map_eq_some_iff.mp hc
  obtain ⟨rfl, hval⟩ := h.eq_of_constantBounds? ρ hb
  exact hval

omit hlower hupper in
theorem holds_of_surelyHolds_of {l u : ℤ}
    (hl : ∀ c, lower.atLeast? = some c ∨ lower.atMost? = some c → l = c.toInt)
    (hu : ∀ c, upper.atLeast? = some c ∨ upper.atMost? = some c → u = c.toInt)
    (h : surelyHolds lower upper cmp = true) : cmp.holds l u = true := by
  unfold surelyHolds at h
  dsimp only at h
  split at h
  · split at h
    · rename_i x y hx hy
      rwa [hl x (.inr hx), hu y (.inl hy)]
    · cases h
  · split at h
    · rename_i x y hx hy
      rwa [hl x (.inr hx), hu y (.inl hy)]
    · cases h
  · split at h
    · rename_i x y hx hy
      rwa [hl x (.inl hx), hu y (.inr hy)]
    · cases h
  · split at h
    · rename_i x y hx hy
      rwa [hl x (.inl hx), hu y (.inr hy)]
    · cases h
  · cases h

include hlower hupper

theorem holds_of_surelyHolds (h : surelyHolds lower upper cmp = true) :
    cmp.holds (value ρ lower) (value ρ upper) = true :=
  holds_of_surelyHolds_of (fun _ hc => hc.elim hlower.value_of_atLeast? hlower.value_of_atMost?)
    (fun _ hc => hc.elim hupper.value_of_atLeast? hupper.value_of_atMost?) h

/-- A sequence that goes on while it differs from a limit ahead of it is ordered by the
limit, if it moves by one. -/
theorem holds_orderedTest {step : ℤ} {m : ℕ}
    (h : ∀ k < m, cmp.holds (step * (k : ℕ) + value ρ lower) (value ρ upper) = true) :
    ∀ k < m, (orderedTest lower upper step cmp).holds (step * (k : ℕ) + value ρ lower)
      (value ρ upper) = true := by
  unfold orderedTest
  split_ifs with hne hup hdown
  · subst hne
    obtain ⟨rfl, hsurely⟩ := hup
    have hle := holds_of_surelyHolds (ρ := ρ) hlower hupper hsurely
    simp only [Comparison.holds, decide_eq_true_eq, one_mul] at h hle ⊢
    exact lt_of_forall_ne hle h
  · subst hne
    obtain ⟨rfl, hsurely⟩ := hdown
    have hle := holds_of_surelyHolds (ρ := ρ) hlower hupper hsurely
    simp only [Comparison.holds, decide_eq_true_eq, neg_one_mul] at h hle ⊢
    intro k hk
    have hlt := lt_of_forall_ne (neg_le_neg hle) (m := m) (fun j hj => ?_) k hk
    · omega
    · have := h j hj
      omega
  · exact h
  · exact h

theorem termOf_iterations (hstride : IsTerm stride) {step : ℤ} (hstep : value ρ stride = step)
    (hmoves : movesTowards step cmp = true) :
    TermOf ρ (iterations lower upper stride step cmp)
      ((cmp.inclusive (value ρ upper) + step - value ρ lower).tdiv step) := by
  have hinclusive : TermOf ρ (inclusiveLimit upper cmp) (cmp.inclusive (value ρ upper)) := by
    have hone : IsTerm (constant 1) := .constant 1
    cases cmp with
    | lt => exact termOf_combineSum hupper hone true
    | gt => exact termOf_combineSum hupper hone false
    | _ => exact ⟨hupper, rfl⟩
  have hlimit : TermOf ρ (if (cmp = .lt ∨ cmp = .gt) ∧ step.natAbs = 1 then upper
      else combine .add (some (inclusiveLimit upper cmp)) stride)
      (cmp.inclusive (value ρ upper) + step) := by
    split_ifs with hcancels
    · refine ⟨hupper, ?_⟩
      rcases hcancels with ⟨rfl | rfl, habs⟩
      all_goals
        simp only [movesTowards, decide_eq_true_eq] at hmoves
        simp only [Comparison.inclusive]
        omega
    · have := termOf_combineSum (ρ := ρ) hinclusive.1 hstride false
      rwa [hinclusive.2, hstep] at this
  unfold iterations
  dsimp only
  have hdiff := termOf_combineSum (ρ := ρ) hlimit.1 hlower true
  rw [hlimit.2] at hdiff
  have hquot := termOf_combineDiv (ρ := ρ) hdiff.1 hstride
  rw [hdiff.2, hstep] at hquot
  exact hquot

/-- The trip count derived from a test bounds the iterations that pass the test. -/
theorem within_of_linearTripCount? (hstride : IsTerm stride) {t : Descriptor} {inBody : Bool}
    {n : ℕ} (h : linearTripCount? stride lower upper cmp = some t)
    (hpassed : ∀ k < if inBody then n + 1 else n,
      cmp.holds (value ρ stride * (k : ℕ) + value ρ lower) (value ρ upper) = true) :
    Within (some t) inBody ρ n := by
  obtain ⟨step, hstep, hmoves, rfl⟩ := LoopView.linearTripCount?_eq_some h
  have hvalue : value ρ stride = step.toInt := hstride.value_of_always? ρ hstep
  rw [hvalue] at hpassed
  have hordered := holds_orderedTest hlower hupper hpassed
  obtain ⟨hterm, hcount⟩ := termOf_iterations hlower hupper hstride hvalue hmoves
  intro t ht
  obtain rfl := Option.some.inj ht
  refine ⟨_, _, rfl, rfl, hterm, ?_⟩
  rw [hcount]
  refine counted_of_holds hmoves (fun k hk => hordered k ?_) (fun hin => hordered n ?_)
    fun htaken => holds_of_surelyHolds hlower hupper ?_
  · split_ifs <;> omega
  · rw [if_pos hin]
    omega
  · simpa using htaken

end Terms

/-- The first member of a linear sequence; anything else itself. -/
def base : Descriptor → Descriptor
  | linear _ b => b
  | d => d

/-- The words of member `k` of a linear sequence and of its limit compare by `cmp`. -/
def Passes {R : Type} [Arithmetic R] (cmp : Comparison) (ρ : InstrId → R)
    (stride lower upper : Descriptor) (k : ℕ) : Prop :=
  ∃ u w : Int32, ofWord R u = value ρ stride * k + value ρ lower ∧
    ofWord R w = value ρ upper ∧ cmp.holds u.toInt w.toInt = true

/-- The trip count `t` is that of a linear sequence which goes on while `a` and `b` compare
by `cmp`. -/
structure LinearTest (t a b : Descriptor) (cmp : Comparison) (stride lower upper : Descriptor)
    (towards : Comparison) : Prop where
  trip : linearTripCount? stride lower upper towards = some t
  linear : a.isLinear = true ∨ b.isLinear = true
  bases : a.base = lower ∧ b.base = upper ∨ a.base = upper ∧ b.base = lower
  terms : a.WellFormed → b.WellFormed → stride.IsTerm ∧ lower.IsTerm ∧ upper.IsTerm
  agrees : a.WellFormed → b.WellFormed → ∀ (R : Type) [Arithmetic R] (ρ : InstrId → R) (k : ℕ)
    (x y : Int32), a.Describes none ρ k (ofWord R x) → b.Describes none ρ k (ofWord R y) →
    ∃ u w : Int32, ofWord R u = value ρ stride * k + value ρ lower ∧
      ofWord R w = value ρ upper ∧ towards.holds u.toInt w.toInt = cmp.holds x.toInt y.toInt

theorem LinearTest.passes {t a b stride lower upper : Descriptor} {cmp towards : Comparison}
    (h : LinearTest t a b cmp stride lower upper towards) (ha : a.WellFormed) (hb : b.WellFormed)
    (R : Type) [Arithmetic R] (ρ : InstrId → R) (k : ℕ) (hcmp : Compares cmp ρ a b k) :
    Passes towards ρ stride lower upper k := by
  obtain ⟨x, y, hx, hy, hholds⟩ := hcmp
  obtain ⟨u, w, hu, hw, heq⟩ := h.agrees ha hb R ρ k x y hx hy
  exact ⟨u, w, hu, hw, heq.trans hholds⟩

theorem exists_linearTest {v : LoopView} {known : Classes} {control : InstrId}
    {t : Descriptor} (h : v.tripCount? known control = some t) :
    ∃ a b cmp stride lower upper towards, v.control? known control = some (a, b, cmp) ∧
      LinearTest t a b cmp stride lower upper towards := by
  obtain ⟨a, b, cmp, hcontrol, stride, lower, upper, hi, hcases⟩ := LoopView.tripCount?_eq_some h
  have hparts {a b : Descriptor} (h : WellFormed (linear a b)) : IsTerm a ∧ IsTerm b := by
    cases h with
    | linear ha hb => exact ⟨ha, hb⟩
    | term h => cases h
  have hbase : upper.base = upper := by cases upper <;> first | rfl | cases hi
  refine ⟨a, b, cmp, stride, lower, upper, ?_⟩
  rcases hcases with ⟨rfl, rfl, htrip⟩ | ⟨rfl, rfl, htrip⟩
  · refine ⟨cmp, hcontrol, htrip, .inl rfl, .inl ⟨rfl, hbase⟩, fun ha hb => ?_, ?_⟩
    · exact ⟨(hparts ha).1, (hparts ha).2, hb.isTerm hi⟩
    · intro ha hb R _ ρ k u w hu hw
      exact ⟨u, w, hu, (describes_of_isTerm (hb.isTerm hi)).mp hw, rfl⟩
  · refine ⟨cmp.swap, hcontrol, htrip, .inr rfl, .inr ⟨hbase, rfl⟩, fun ha hb => ?_, ?_⟩
    · exact ⟨(hparts hb).1, (hparts hb).2, ha.isTerm hi⟩
    · intro ha hb R _ ρ k u w hu hw
      exact ⟨w, u, hw, (describes_of_isTerm (ha.isTerm hi)).mp hu, Comparison.holds_swap cmp _ _⟩

/-- A test that has held in every iteration so far bounds the number of the iteration. -/
theorem LinearTest.within {t a b stride lower upper : Descriptor} {cmp towards : Comparison}
    (h : LinearTest t a b cmp stride lower upper towards) (ha : a.WellFormed) (hb : b.WellFormed)
    {ρ : InstrId → ℤ} {inBody : Bool} {n : ℕ}
    (hpassed : ∀ k < if inBody then n + 1 else n, Passes towards ρ stride lower upper k) :
    Within (some t) inBody ρ n := by
  obtain ⟨hstride, hlower, hupper⟩ := h.terms ha hb
  apply within_of_linearTripCount? hlower hupper hstride h.trip
  intro k hk
  obtain ⟨u, w, hu, hw, hholds⟩ := hpassed k hk
  rw [← hu, ← hw]
  exact hholds

end Descriptor

end LoopBounds
