import LoopBounds.Proofs.Listing.Hoisted
import LoopBounds.Proofs.Range.Bounds
import LoopBounds.Proofs.Range.Canonical

/-!
# Cancelling the start of a linear sequence

When the count is a difference and the stride is `1` or `-1`, one end of a linear sequence is
bounded without the start, which cancels against an operand of the count. Where the sum
`stride * count + start` has a known bound, cancelling gives the same one, except that the lower
bound of a falling sequence gets lost if the negation of its limit is no bound.
-/

namespace LoopBounds

namespace Affine

/-- A coefficient is the least word, whose negation is no word. -/
def HasLeast (v : Affine) : Prop := v.scale = Int32.minValue ∨ v.offset = Int32.minValue

variable {u v l : Affine} {k : Int32}

/-- The product of a count less `k` with the stride, on the anchor that both operands of the
count have. -/
theorem exists_steps_eq (hu : u.Canonical) (hl : l.Canonical) {c : Int32}
    (h : (((u.sub l).sub (constant k)).mul (constant c)).known = true) :
    ∃ x p q p' q', u = ofInstr x p q ∧ l = ofInstr x p' q' ∧
      ((u.sub l).sub (constant k)).mul (constant c) =
        ofInts? x ((p.toInt - p'.toInt) * c.toInt) ((q.toInt - q'.toInt - k.toInt) * c.toInt) := by
  have hback := (known_mul_iff.mp h).1
  have hsub := (known_sub_iff.mp hback).1
  obtain ⟨x, p, q, p', q', rfl, rfl⟩ := exists_common_anchor hu hl hsub
  refine ⟨x, p, q, p', q', rfl, rfl, ?_⟩
  rw [ofInstr_sub] at hback hsub ⊢
  rw [constant_eq_ofInts? x k, ofInts?_sub hsub (known_ofInts?_constant x k), sub_zero] at hback ⊢
  rw [ofInts?_mul_constant hback]

/-- A sequence that rises by one from `l` reaches `u - k` in `u - l - k` steps. -/
theorem rising_eq (hu : u.Canonical) (hl : l.Canonical)
    (h : ((((u.sub l).sub (constant k)).mul (constant 1)).add l).known = true) :
    (((u.sub l).sub (constant k)).mul (constant 1)).add l = u.sub (constant k) := by
  have hmul := (known_add_iff.mp h).1
  obtain ⟨x, p, q, p', q', rfl, rfl, hsteps⟩ := exists_steps_eq hu hl hmul
  rw [hsteps] at hmul ⊢
  rw [ofInstr_eq_ofInts? x p' q', ofInts?_add hmul (known_ofInts?_toInt x p' q'),
    constant_eq_ofInts? x k, ofInstr_eq_ofInts? x p q,
    ofInts?_sub (known_ofInts?_toInt x p q) (known_ofInts?_constant x k), Int32.toInt_one]
  congr 1 <;> ring

theorem hasLeast_iff (x : InstrId) (p q : Int32) :
    (ofInstr x p q).HasLeast ↔ ¬(ofInts? x (-p.toInt) (-q.toInt)).known = true := by
  have hp := p.le_toInt
  have hp' := p.toInt_lt
  have hq := q.le_toInt
  have hq' := q.toInt_lt
  change p = Int32.minValue ∨ q = Int32.minValue ↔ _
  rw [known_ofInts?_iff, ← Int32.toInt_inj, ← Int32.toInt_inj, Int32.toInt_minValue]
  omega

/-- A sequence that falls by one from `u` reaches `l + k` in `u - l - k` steps. The negation of
`-l - k` is that, if there is a negation of `l`. -/
theorem falling_eq (hu : u.Canonical) (hl : l.Canonical) (hk : k = 0 ∨ k = 1)
    (h : ((((u.sub l).sub (constant k)).mul (constant (-1))).add u).known = true) :
    (¬l.HasLeast → (constant 0).sub (((constant 0).sub l).sub (constant k)) =
      (((u.sub l).sub (constant k)).mul (constant (-1))).add u) ∧
    (l.HasLeast → (constant 0).sub (((constant 0).sub l).sub (constant k)) = unknown) := by
  have hmul := (known_add_iff.mp h).1
  obtain ⟨x, p, q, p', q', rfl, rfl, hsteps⟩ := exists_steps_eq hu hl hmul
  rw [hsteps] at hmul h ⊢
  rw [ofInstr_eq_ofInts? x p q, ofInts?_add hmul (known_ofInts?_toInt x p q)] at h ⊢
  have hzero := constant_eq_ofInts? x 0
  have hneg : (constant 0).sub (ofInstr x p' q') = ofInts? x (-p'.toInt) (-q'.toInt) := by
    rw [hzero, ofInstr_eq_ofInts?, ofInts?_sub (known_ofInts?_constant x 0)
      (known_ofInts?_toInt x p' q'), Int32.toInt_zero, zero_sub, zero_sub]
  have hleast := hasLeast_iff x p' q'
  rw [hneg]
  constructor
  · intro hl
    have hknown := not_not.mp (hleast.not.mp hl)
    have hstep : (ofInts? x (-p'.toInt) (-q'.toInt - k.toInt)).known = true := by
      obtain ⟨hp, hq⟩ := known_ofInts?_iff.mp hknown
      have hlt := q'.toInt_lt
      rw [known_ofInts?_iff]
      rcases hk with rfl | rfl
      · rw [Int32.toInt_zero]
        omega
      · rw [Int32.toInt_one]
        omega
    rw [constant_eq_ofInts? x k, ofInts?_sub hknown (known_ofInts?_constant x k), sub_zero, hzero,
      ofInts?_sub (known_ofInts?_constant x 0) hstep, Int32.toInt_zero,
      show (-1 : Int32).toInt = -1 from rfl]
    congr 1 <;> ring
  · intro hl
    rw [ofInts?_eq_unknown (hleast.mp hl)]
    rfl

end Affine

namespace TripKind

/-- In the body one step less is taken than the loop counts, and at the header either as many or
an unknown number. -/
theorem upper_bounds_cases (kind : TripKind) (inBody : Bool) :
    (∀ v, (kind.bounds inBody (.exactly v)).upper = .unknown) ∨
      ∃ k : Int32, (k = 0 ∨ k = 1) ∧
        ∀ v : Affine, v.Canonical →
          (kind.bounds inBody (.exactly v)).upper = v.sub (.constant k) := by
  unfold bounds
  dsimp only
  split_ifs
  · exact .inr ⟨1, .inr rfl, fun _ _ => rfl⟩
  · exact .inl fun _ => rfl
  · exact .inr ⟨0, .inl rfl, fun _ hv => hv.sub_zero.symm⟩

end TripKind

namespace Descriptor

open LoopBounds.Affine

variable {t stride start hi lo count : Descriptor} {kind : TripKind} {inBody : Bool}
variable {s b u l v : Affine}

theorem exactly_constant_mul (c : Int32) (x : Interval) :
    (Interval.exactly (.constant c)).mul x = x.scale c := by
  unfold Interval.mul
  rw [Interval.single?_exactly]
  rfl

theorem upper_linearFormula_one (x : Interval) (b : Affine) :
    (linearFormula x (.exactly (.constant 1)) (.exactly b)).upper =
      (x.upper.mul (.constant 1)).add b := by
  rw [linearFormula, exactly_constant_mul]
  rfl

theorem lower_linearFormula_neg_one (x : Interval) (b : Affine) :
    (linearFormula x (.exactly (.constant (-1))) (.exactly b)).lower =
      (x.upper.mul (.constant (-1))).add b := by
  rw [linearFormula, exactly_constant_mul]
  rfl

theorem exists_tripKind? (h : t.count? = some count) : ∃ kind, t.tripKind? = some kind := by
  cases t with
  | tripCount kind _ | guardedCount kind _ _ => exact ⟨kind, rfl⟩
  | _ => cases h

theorem bounds_of_tripKind? (hkind : t.tripKind? = some kind) (hcount : t.count? = some count)
    (hsole : count.Sole v) (hfetch : count.asFetch? = none) :
    t.bounds (some t) inBody = kind.bounds inBody (.exactly v) ∧
      t.countBounds (some t) inBody = kind.bounds inBody (.exactly v) := by
  have hfetched : ∀ x, fetchBounds (some t) inBody x = .exactly (.ofInstr x 1 0) :=
    fetchBounds_of_not_fetch hcount hfetch
  cases t with
  | tripCount k c | guardedCount k c _ =>
    cases hkind
    cases hcount
    rw [bounds, countBounds, boundsWith, boundsWith, hsole.boundsWith_eq hfetched,
      hsole.boundsWith_eq hfetched]
    exact ⟨rfl, rfl⟩
  | _ => cases hkind

section Linear

variable (hkind : t.tripKind? = some kind) (hcount : t.count? = some (binary .sub hi lo))
variable (hhi : hi.Sole u) (hlo : lo.Sole l)

include hkind hcount hhi hlo

theorem upper_linearBounds (hstride : stride.Sole s) (hstart : start.Sole b)
    (h : (linearFormula (kind.bounds inBody (.exactly (u.sub l))) (.exactly s)
      (.exactly b)).upper.known = true) :
    (linearBounds (some t) inBody stride start (.exactly s) (.exactly b)).upper =
      (linearFormula (kind.bounds inBody (.exactly (u.sub l))) (.exactly s)
        (.exactly b)).upper := by
  unfold linearBounds
  dsimp only
  rw [(bounds_of_tripKind? hkind hcount (hhi.sub hlo) rfl).2, hkind, hcount]
  dsimp only
  split_ifs with hup hdown
  · obtain ⟨hone, rfl⟩ := hup
    obtain rfl := hstride.eq_constant hone
    obtain rfl := hstart.unique hlo
    have hupper : hi.countBounds (some t) inBody = .exactly u :=
      hhi.countBounds_eq hcount rfl inBody
    rw [upper_linearFormula_one] at h ⊢
    rcases kind.upper_bounds_cases inBody with hnone | ⟨k, -, hk⟩
    · rw [hnone] at h
      cases (known_mul_iff.mp (known_add_iff.mp h).1).1
    · rw [hk _ (canonical_sub u b)] at h ⊢
      rw [hupper, hk _ hhi.canonical]
      exact (rising_eq hhi.canonical hlo.canonical h).symm
  · rfl
  · rfl

/-- Where the sum has a known lower bound, the linear sequence has the same, unless it falls from
`hi` to a limit without a negation; then its lower bound is unknown. -/
theorem lower_linearBounds (hstride : stride.Sole s) (hstart : start.Sole b)
    (h : (linearFormula (kind.bounds inBody (.exactly (u.sub l))) (.exactly s)
      (.exactly b)).lower.known = true) :
    (¬(stride.always? = some (-1) ∧ hi = start ∧ l.HasLeast) →
      (linearBounds (some t) inBody stride start (.exactly s) (.exactly b)).lower =
        (linearFormula (kind.bounds inBody (.exactly (u.sub l))) (.exactly s)
          (.exactly b)).lower) ∧
    (stride.always? = some (-1) ∧ hi = start ∧ l.HasLeast →
      (linearBounds (some t) inBody stride start (.exactly s) (.exactly b)).lower = .unknown) := by
  unfold linearBounds
  dsimp only
  rw [(bounds_of_tripKind? hkind hcount (hhi.sub hlo) rfl).2, hkind, hcount]
  dsimp only
  split_ifs with hup hdown
  · refine ⟨fun _ => rfl, ?_⟩
    rintro ⟨hone, -⟩
    rw [hup.1] at hone
    exact absurd hone (by decide)
  · obtain ⟨hone, rfl⟩ := hdown
    obtain rfl := hstride.eq_constant hone
    obtain rfl := hstart.unique hhi
    have hlower : (unary .neg lo).countBounds (some t) inBody =
        .exactly ((Affine.constant 0).sub l) := hlo.neg.countBounds_eq hcount rfl inBody
    rw [lower_linearFormula_neg_one] at h ⊢
    rcases kind.upper_bounds_cases inBody with hnone | ⟨k, hvalue, hk⟩
    · rw [hnone] at h
      cases (known_mul_iff.mp (known_add_iff.mp h).1).1
    · rw [hk _ (canonical_sub b l)] at h ⊢
      rw [hlower, hk _ (canonical_sub _ l)]
      obtain ⟨hkeeps, hloses⟩ := falling_eq hhi.canonical hlo.canonical hvalue h
      constructor
      · intro hl
        exact hkeeps fun hleast => hl ⟨hone, rfl, hleast⟩
      · rintro ⟨-, -, hleast⟩
        exact hloses hleast
  · refine ⟨fun _ => rfl, ?_⟩
    rintro ⟨hone, heq, -⟩
    exact absurd ⟨hone, heq⟩ hdown

end Linear

/-- Let the count be `hi - lo`, of invariants. A linear sequence has the known bounds of the sum
`stride * count + start`, except that a sequence which falls by one from `hi` has an unknown lower
bound if a coefficient of the bound of `lo` is the least word. -/
theorem linear_bounds_of_known (hcount : t.count? = some (binary .sub hi lo))
    (hhi : hi.AllInvariant) (hlo : lo.AllInvariant) (hstride : stride.AllInvariant)
    (hstart : start.AllInvariant) (inBody : Bool) :
    let sum := (binary .add (binary .mul stride t) start).bounds (some t) inBody
    let cancelled := (linear stride start).bounds (some t) inBody
    let lost := stride.always? = some (-1) ∧ hi = start ∧
      (lo.bounds (some t) inBody).upper.HasLeast
    (sum.upper.known = true → cancelled.upper = sum.upper) ∧
      (sum.lower.known = true → ¬lost → cancelled.lower = sum.lower) ∧
      (sum.lower.known = true → lost → cancelled.lower = .unknown) := by
  intro sum cancelled lost
  obtain ⟨kind, hkind⟩ := exists_tripKind? hcount
  obtain ⟨u, hu⟩ := hhi.exists_sole
  obtain ⟨l, hl⟩ := hlo.exists_sole
  obtain ⟨s, hs⟩ := hstride.exists_sole
  obtain ⟨b, hb⟩ := hstart.exists_sole
  have hstep := hs.bounds_eq hcount rfl inBody
  have hfirst := hb.bounds_eq hcount rfl inBody
  have hlimit := hl.bounds_eq hcount rfl inBody
  have hsum : sum = linearFormula (kind.bounds inBody (.exactly (u.sub l))) (.exactly s)
      (.exactly b) := by
    rw [← (bounds_of_tripKind? hkind hcount (hu.sub hl) rfl).1, linearFormula, ← hstep,
      ← hfirst]
    rfl
  have hcancelled : cancelled =
      linearBounds (some t) inBody stride start (.exactly s) (.exactly b) := by
    rw [← hstep, ← hfirst]
    rfl
  have hlost : lost = (stride.always? = some (-1) ∧ hi = start ∧ l.HasLeast) := by
    change (_ ∧ _ ∧ (lo.bounds (some t) inBody).upper.HasLeast) = _
    rw [hlimit]
    rfl
  rw [hsum, hcancelled, hlost]
  refine ⟨upper_linearBounds hkind hcount hu hl hs hb, ?_, ?_⟩
  · intro h
    exact (lower_linearBounds hkind hcount hu hl hs hb h).1
  · intro h
    exact (lower_linearBounds hkind hcount hu hl hs hb h).2

/-- A sequence that falls from `%v1 + 10` as long as it is above `%v1`. In the body it is at least
`%v1 + 1`, whether or not the start cancels. -/
theorem linear_bounds_falling :
    let hi := binary .add (fetch ⟨1⟩) (constant 10)
    let t := tripCount ⟨true, false⟩ (binary .sub hi (fetch ⟨1⟩))
    ((binary .add (binary .mul (constant (-1)) t) hi).bounds (some t) true).lower =
      .ofInstr ⟨1⟩ 1 1 ∧
    ((linear (constant (-1)) hi).bounds (some t) true).lower = .ofInstr ⟨1⟩ 1 1 := by
  intro hi t
  have hsum : ((binary .add (binary .mul (constant (-1)) t) hi).bounds (some t) true).lower =
      .ofInstr ⟨1⟩ 1 1 := by decide +kernel
  have hleast : ¬((fetch ⟨1⟩).bounds (some t) true).upper.HasLeast := by
    rintro (h | h)
    · exact absurd h (by decide +kernel)
    · exact absurd h (by decide +kernel)
  have hcount : t.count? = some (binary .sub hi (fetch ⟨1⟩)) := rfl
  have hhi : hi.AllInvariant := ⟨trivial, trivial⟩
  have hlo : (fetch ⟨1⟩).AllInvariant := trivial
  have hstride : (constant (-1)).AllInvariant := trivial
  obtain ⟨-, hlower, -⟩ := linear_bounds_of_known hcount hhi hlo hstride hhi true
  refine ⟨hsum, ?_⟩
  rw [hlower (by rw [hsum]; rfl) fun hlost => hleast hlost.2.2, hsum]

/-- A loop that counts down from `-1` as long as the counter is above the least word. -/
def fallText : String :=
  "define i32 @fall() \x7b
entry:
  br label %header
header:
  %i = phi i32 [ -1, %entry ], [ %next, %body ]
  %test = icmp sgt i32 %i, -2147483648
  br i1 %test, label %body, label %exit
body:
  %next = sub i32 %i, 1
  br label %header
exit:
  ret i32 %i
\x7d
"

/-- In the body the counter is above the least word, which the sum shows. The least word has no
negation, so that cancelling the start leaves nothing known. -/
theorem fall_lower_lost :
    let stride := unary .neg (constant 1)
    let start := constant (-1)
    let lo := constant Int32.minValue
    let t := guardedCount ⟨false, false⟩ (binary .sub start lo) (binary .gt start lo)
    (∃ f, Func.parse fallText = .ok [f] ∧ (Analysis.ofFunc f).tripCount? f ⟨0⟩ = some t ∧
      (Analysis.ofFunc f).lookup f ⟨0⟩ ⟨4⟩ = some (linear stride start)) ∧
    ((binary .add (binary .mul stride t) start).bounds (some t) true).lower =
      .constant (Int32.minValue + 1) ∧
    ((linear stride start).bounds (some t) true).lower = .unknown := by
  intro stride start lo t
  refine ⟨?_, by decide +kernel, by decide +kernel⟩
  exact Func.exists_parsed (rfl : fallText = _)
    (P := fun f => (Analysis.ofFunc f).tripCount? f ⟨0⟩ = some t ∧
      (Analysis.ofFunc f).lookup f ⟨0⟩ ⟨4⟩ = some (linear stride start)) (by decide +kernel)

end Descriptor

end LoopBounds
