import LoopBounds.Descriptor.Simplify
import LoopBounds.Proofs.Descriptor.Value
import LoopBounds.Proofs.Range.Affine

/-!
# Constants recognized and operations simplified

The bounds of an invariant are one affine bound, and where it is known it denotes the
value of the invariant in every ring of words. A descriptor that is taken for a constant
therefore has this value, and simplification leaves the value of an operation as it is.
-/

namespace LoopBounds

namespace Interval

variable {R : Type} [Arithmetic R] (ρ : InstrId → R) (v w : Affine)

theorem single?_exactly : (exactly v).single? = v.constant? := by
  cases h : v.constant? <;> simp [single?, exactly, h]

/-- The corners of two bounds are one bound, known only if the operation is. -/
theorem exists_corners_exactly (op : Affine → Affine → Affine) :
    ∃ u, corners op (exactly v) (exactly w) = exactly u ∧
      ∀ r, u.read? ρ = some r → (op v w).read? ρ = some r := by
  cases h : (op v w).constant? with
  | none => exact ⟨.unknown, by simp [corners, exactly, h, unknown], fun r hr => by cases hr⟩
  | some c =>
    refine ⟨.constant c, by simp [corners, exactly, h], ?_⟩
    intro r hr
    rw [← hr, Affine.read?_constant, Affine.read?_of_constant? h]

theorem exists_scale_exactly {c : Int32} (hw : w.constant? = some c) :
    ∃ u, (exactly v).scale c = exactly u ∧
      ∀ r, u.read? ρ = some r → Affine.Both ρ (· * ·) v w r := by
  refine ⟨v.mul (.constant c), by simp [scale, exactly], ?_⟩
  intro r hr
  obtain ⟨a, b, ha, hb, rfl⟩ := Affine.read?_mul hr
  exact ⟨a, b, ha, by rw [← hb, Affine.read?_constant, Affine.read?_of_constant? hw], rfl⟩

theorem exists_mul_exactly :
    ∃ u, (exactly v).mul (exactly w) = exactly u ∧
      ∀ r, u.read? ρ = some r → Affine.Both ρ (· * ·) v w r := by
  unfold mul
  rw [single?_exactly, single?_exactly]
  split
  · rename_i c hv
    obtain ⟨u, hu, hread⟩ := exists_scale_exactly ρ w v hv
    refine ⟨u, hu, ?_⟩
    intro r hr
    obtain ⟨a, b, ha, hb, rfl⟩ := hread r hr
    exact ⟨b, a, hb, ha, mul_comm a b⟩
  · rename_i c _ hw
    exact exists_scale_exactly ρ v w hw
  · split_ifs
    any_goals exact ⟨v.mul w, rfl, fun r hr => Affine.read?_mul hr⟩
    obtain ⟨u, hu, hread⟩ := exists_corners_exactly ρ v w .mul
    exact ⟨u, hu, fun r hr => Affine.read?_mul (hread r hr)⟩

theorem exists_div_exactly :
    ∃ u, (exactly v).div (exactly w) = exactly u ∧
      ∀ r, u.read? ρ = some r → Affine.Both ρ Arithmetic.quot v w r := by
  unfold div
  split_ifs
  · exact ⟨.unknown, rfl, fun r hr => by cases hr⟩
  any_goals exact ⟨v.div w, rfl, fun r hr => Affine.read?_div hr⟩
  obtain ⟨u, hu, hread⟩ := exists_corners_exactly ρ v w .div
  exact ⟨u, hu, fun r hr => Affine.read?_div (hread r hr)⟩

/-- A hull with constant ends is that of two intervals with constant ends. When it is a
single constant, so are the two. -/
theorem exists_pinned_of_hull {x y : Interval} {lo hi : Int32}
    (hlo : (x.hull y).lower.Pinned lo) (hhi : (x.hull y).upper.Pinned hi) :
    ∃ a b c d, x.lower.Pinned a ∧ x.upper.Pinned b ∧ y.lower.Pinned c ∧ y.upper.Pinned d ∧
      (a.toInt ≤ b.toInt → c.toInt ≤ d.toInt → lo.toInt ≤ hi.toInt ∧
        (lo = hi → a = lo ∧ a = b ∧ c = lo ∧ c = d)) := by
  obtain ⟨ha, hc, rfl⟩ := hlo.of_pickOffset
  obtain ⟨hb, hd, rfl⟩ := hhi.of_pickOffset
  refine ⟨_, _, _, _, ha, hb, hc, hd, ?_⟩
  intro hab hcd
  simp only [← Int32.toInt_inj, Affine.toInt_lesser, Affine.toInt_greater]
  omega

end Interval

namespace Descriptor

variable {R : Type} [Arithmetic R] {ρ : InstrId → R} {d : Descriptor}

theorem fetchBounds_none (inBody : Bool) (x : InstrId) :
    fetchBounds none inBody x = .exactly (Affine.ofInstr x 1 0) := by
  simp [fetchBounds]

/-- The bounds of an invariant are one bound, which denotes its value where it is
known. -/
theorem IsTerm.exists_countBounds (h : IsTerm d) (ρ : InstrId → R) (inBody : Bool) :
    ∃ u, d.countBounds none inBody = .exactly u ∧
      ∀ r, u.read? ρ = some r → r = value ρ d := by
  induction h with
  | constant v =>
    refine ⟨.constant v, rfl, ?_⟩
    intro r hr
    rw [Affine.read?_constant] at hr
    exact (Option.some.inj hr).symm
  | fetch x =>
    refine ⟨_, fetchBounds_none inBody x, ?_⟩
    intro r hr
    rw [Affine.read?_ofInstr] at hr
    simpa [value, eq_comm] using hr
  | neg _ ih =>
    obtain ⟨u, hu, hread⟩ := ih
    refine ⟨(Affine.constant 0).sub u, ?_, fun r hr => ?_⟩
    · rw [countBounds] at hu ⊢
      rw [boundsWith, hu]
      rfl
    · obtain ⟨a, b, ha, hb, rfl⟩ := Affine.read?_sub hr
      rw [Affine.read?_constant, ofWord_zero] at ha
      cases ha
      rw [hread b hb]
      exact zero_sub _
  | @binary op a b hop _ _ iha ihb =>
    obtain ⟨u, hu, hreadu⟩ := iha
    obtain ⟨w, hw, hreadw⟩ := ihb
    rw [countBounds] at hu hw
    have hboth {f : R → R → R} {r : R} (h : Affine.Both ρ f u w r) :
        r = f (value ρ a) (value ρ b) := by
      obtain ⟨x, y, hx, hy, rfl⟩ := h
      rw [hreadu x hx, hreadw y hy]
    simp only [List.mem_cons, List.not_mem_nil, or_false] at hop
    rcases hop with rfl | rfl | rfl | rfl
    · refine ⟨u.add w, ?_, fun r hr => hboth (Affine.read?_add hr)⟩
      rw [countBounds, boundsWith, hu, hw]
      rfl
    · refine ⟨u.sub w, ?_, fun r hr => hboth (Affine.read?_sub hr)⟩
      rw [countBounds, boundsWith, hu, hw]
      rfl
    · obtain ⟨t, ht, hread⟩ := Interval.exists_mul_exactly ρ u w
      refine ⟨t, ?_, fun r hr => hboth (hread r hr)⟩
      rw [countBounds, boundsWith, hu, hw]
      exact ht
    · obtain ⟨t, ht, hread⟩ := Interval.exists_div_exactly ρ u w
      refine ⟨t, ?_, fun r hr => hboth (hread r hr)⟩
      rw [countBounds, boundsWith, hu, hw]
      exact ht

theorem IsTerm.eq_of_constantBounds? (h : IsTerm d) (ρ : InstrId → R) {lo hi : Int32}
    (hb : d.constantBounds? = some (lo, hi)) : lo = hi ∧ value ρ d = ofWord R lo := by
  obtain ⟨u, hu, hread⟩ := h.exists_countBounds ρ true
  unfold constantBounds? at hb
  split at hb
  · simp only [Option.some.injEq, Prod.mk.injEq] at hb
    obtain ⟨rfl, rfl⟩ := hb
    exact ⟨rfl, rfl⟩
  · simp only [hu, Interval.exactly] at hb
    split at hb
    · rename_i a b ha hb'
      split at hb
      · simp only [Option.some.injEq, Prod.mk.injEq] at hb
        obtain ⟨rfl, rfl⟩ := hb
        rw [ha] at hb'
        exact ⟨Option.some.inj hb', (hread _ (Affine.read?_of_constant? ha)).symm⟩
      · cases hb
    · cases hb

theorem constantBounds?_of_always? {c : Int32} (h : d.always? = some c) :
    d.constantBounds? = some (c, c) := by
  unfold always? at h
  split at h
  · rename_i lo hi hb
    split at h
    · rename_i heq
      cases h
      rw [hb, heq]
    · cases h
  · cases h

theorem IsTerm.value_of_always? (h : IsTerm d) (ρ : InstrId → R) {c : Int32}
    (hc : d.always? = some c) : value ρ d = ofWord R c :=
  (h.eq_of_constantBounds? ρ (constantBounds?_of_always? hc)).2

section Sequences

variable {inBody : Bool} {lo hi : Int32}

theorem pinned_of_members (hd : ∀ m ∈ d.members, IsTerm m) (ρ : InstrId → R)
    (hlo : (d.countBounds none inBody).lower.Pinned lo)
    (hhi : (d.countBounds none inBody).upper.Pinned hi) :
    lo.toInt ≤ hi.toInt ∧ (lo = hi → ∀ m ∈ d.members, value ρ m = ofWord R lo) := by
  have hterm {e : Descriptor} {lo hi : Int32} (he : IsTerm e)
      (hlo : (e.countBounds none inBody).lower.Pinned lo)
      (hhi : (e.countBounds none inBody).upper.Pinned hi) :
      lo = hi ∧ value ρ e = ofWord R lo := by
    obtain ⟨u, hu, hread⟩ := he.exists_countBounds ρ inBody
    rw [hu] at hlo hhi
    exact ⟨hlo.2.2.symm.trans hhi.2.2, (hread _ hlo.read?).symm⟩
  induction d generalizing lo hi with
  | periodic a b _ ih =>
    obtain ⟨la, ua, lb, ub, hla, hua, hlb, hub, himp⟩ :=
      Interval.exists_pinned_of_hull hlo hhi
    obtain ⟨rfl, hval⟩ := hterm (hd a List.mem_cons_self) hla hua
    obtain ⟨hle, hmem⟩ := ih (fun m hm => hd m (List.mem_cons_of_mem _ hm)) hlb hub
    refine ⟨(himp le_rfl hle).1, ?_⟩
    intro heq m hm
    obtain ⟨rfl, -, rfl, hb⟩ := (himp le_rfl hle).2 heq
    rcases List.mem_cons.mp hm with rfl | hm
    · exact hval
    · exact hmem hb m hm
  | _ =>
    obtain ⟨rfl, hval⟩ := hterm (hd _ List.mem_cons_self) hlo hhi
    refine ⟨le_rfl, ?_⟩
    intro _ m hm
    rwa [List.mem_singleton.mp hm]

/-- Constant bounds of a well-formed descriptor, which needs no number of iterations. -/
theorem WellFormed.pinned (h : WellFormed d) (ρ : InstrId → R)
    (hlo : (d.countBounds none inBody).lower.Pinned lo)
    (hhi : (d.countBounds none inBody).upper.Pinned hi) :
    lo.toInt ≤ hi.toInt ∧ (lo = hi → ∀ ahead n r, Describes ahead ρ d n r →
      r = ofWord R lo) := by
  have hround {e : Descriptor} {lo hi : Int32} (he : ∀ m ∈ e.members, IsTerm m)
      (hlo : (e.countBounds none inBody).lower.Pinned lo)
      (hhi : (e.countBounds none inBody).upper.Pinned hi) :=
    pinned_of_members he ρ hlo hhi
  induction h generalizing lo hi with
  | term h =>
    obtain ⟨hle, hmem⟩ := hround (by rw [h.members_eq]; simpa using h) hlo hhi
    refine ⟨hle, ?_⟩
    intro heq ahead n r hr
    rw [describes_of_isTerm h] at hr
    rw [hr]
    exact hmem heq _ (by rw [h.members_eq]; exact List.mem_cons_self)
  | linear _ _ => exact absurd hlo.1 Bool.false_ne_true
  | periodic hm =>
    obtain ⟨hle, hmem⟩ := hround hm hlo hhi
    refine ⟨hle, ?_⟩
    intro heq ahead n r hr
    obtain ⟨m, hm, rfl⟩ := List.mem_map.mp (Repeats.mem hr)
    exact hmem heq m hm
  | @wrapAround a b ha _ ih =>
    obtain ⟨la, ua, lb, ub, hla, hua, hlb, hub, himp⟩ :=
      Interval.exists_pinned_of_hull hlo hhi
    obtain ⟨hlea, hmem⟩ := hround (by rw [ha.members_eq]; simpa using ha) hla hua
    obtain ⟨hleb, hval⟩ := ih hlb hub
    refine ⟨(himp hlea hleb).1, ?_⟩
    intro heq ahead n r hr
    obtain ⟨rfl, hab, rfl, hb⟩ := (himp hlea hleb).2 heq
    cases n with
    | zero =>
      rw [show r = value ρ a from hr]
      exact hmem hab a (by rw [ha.members_eq]; exact List.mem_cons_self)
    | succ n => exact hval hb ahead n r hr

theorem WellFormed.eq_of_always? (h : WellFormed d) {c : Int32} (hc : d.always? = some c)
    {ahead : Option ℕ} {n : ℕ} {r : R} (hr : Describes ahead ρ d n r) : r = ofWord R c := by
  have hb := constantBounds?_of_always? hc
  unfold constantBounds? at hb
  split at hb
  · simp only [Option.some.injEq, Prod.mk.injEq] at hb
    rw [← hb.1]
    exact hr
  · dsimp only at hb
    split at hb
    · rename_i lo hi hlo hhi
      split at hb
      · simp only [Option.some.injEq, Prod.mk.injEq] at hb
        obtain ⟨rfl, rfl⟩ := hb
        exact (h.pinned ρ (Affine.pinned_of_constant? hlo) (Affine.pinned_of_constant? hhi)).2
          rfl ahead n r hr
      · cases hb
    · cases hb

end Sequences

section Combine

variable {a b : Descriptor}

/-- The descriptor `d` is an invariant of value `r`. -/
def TermOf (ρ : InstrId → R) (d : Descriptor) (r : R) : Prop := IsTerm d ∧ value ρ d = r

theorem TermOf.operation {op : Operation} {r : R} (ha : IsTerm a) (hb : IsTerm b)
    (hop : op ∈ [Operation.add, .sub, .mul, .div]) (hr : value ρ (binary op a b) = r) :
    TermOf ρ (operation op (some a) b) r := ⟨.binary hop ha hb, hr⟩

variable (ha : IsTerm a) (hb : IsTerm b)

include ha hb

theorem termOf_sum_cases (minus : Bool) {e : Descriptor} {r : R}
    (hr : r = if minus then value ρ a - value ρ b else value ρ a + value ρ b)
    (he : TermOf ρ e r) :
    TermOf ρ (if !minus && a.always? = some 0 then b
      else match b.always? with
        | some c => if c = 0 then a else operation (if minus then .sub else .add) (some a) b
        | none => e) r := by
  split
  · rename_i h
    simp only [Bool.and_eq_true, Bool.not_eq_true', decide_eq_true_eq] at h
    obtain ⟨rfl, h⟩ := h
    exact ⟨hb, by simp [hr, ha.value_of_always? ρ h]⟩
  · split
    · rename_i c hc
      split
      · rename_i hzero
        subst hzero
        exact ⟨ha, by simp [hr, hb.value_of_always? ρ hc]⟩
      · cases minus
        · exact TermOf.operation ha hb (by decide) hr.symm
        · exact TermOf.operation ha hb (by decide) hr.symm
    · exact he

theorem termOf_combineSum (minus : Bool) :
    TermOf ρ (combineSum minus (some a) b)
      (if minus then value ρ a - value ρ b else value ρ a + value ρ b) := by
  have hop {b : Descriptor} (hb : IsTerm b) (minus : Bool) :
      TermOf ρ (operation (if minus then .sub else .add) (some a) b)
        (if minus then value ρ a - value ρ b else value ρ a + value ρ b) := by
    cases minus
    · exact TermOf.operation ha hb (by decide) rfl
    · exact TermOf.operation ha hb (by decide) rfl
  induction hb generalizing minus with
  | constant v =>
    unfold combineSum
    exact termOf_sum_cases ha (.constant v) minus rfl (hop (.constant v) minus)
  | fetch x =>
    unfold combineSum
    exact termOf_sum_cases ha (.fetch x) minus rfl (hop (.fetch x) minus)
  | @neg b hb ih =>
    unfold combineSum
    apply termOf_sum_cases ha (.neg hb) minus rfl
    have := ih (!minus)
    cases minus
    · simpa [value, sub_eq_add_neg] using this
    · simpa [value] using this
  | @binary op x y hxy hx hy =>
    have hb := IsTerm.binary hxy hx hy
    have he := hop hb minus
    simp only [List.mem_cons, List.not_mem_nil, or_false] at hxy
    unfold combineSum
    rcases hxy with rfl | rfl | rfl | rfl <;> exact termOf_sum_cases ha hb minus rfl he

omit ha in
theorem termOf_neg_cases :
    TermOf ρ (match b.always?, b.negated? with
      | some c, _ => if c = 0 then b else operation .neg none b
      | none, some inner => inner
      | none, none => operation .neg none b) (-value ρ b) := by
  have hop : TermOf ρ (operation .neg none b) (-value ρ b) := ⟨.neg hb, rfl⟩
  split
  · rename_i c hc
    split
    · rename_i hzero
      subst hzero
      exact ⟨hb, by simp [hb.value_of_always? ρ hc]⟩
    · exact hop
  · rename_i inner _ hinner
    cases hb with
    | @neg d hd =>
      obtain rfl : d = inner := Option.some.inj hinner
      exact ⟨hd, (neg_neg _).symm⟩
    | binary hop' _ _ =>
      simp only [List.mem_cons, List.not_mem_nil, or_false] at hop'
      rcases hop' with rfl | rfl | rfl | rfl <;> cases hinner
    | _ => cases hinner
  · exact hop

omit ha in
theorem termOf_combineNeg : TermOf ρ (combineNeg none b) (-value ρ b) := by
  unfold combineNeg
  split
  · rename_i x y
    cases hb with
    | binary _ hx hy =>
      have := termOf_combineSum (ρ := ρ) hy hx true
      simpa [value] using this
  · exact termOf_neg_cases hb

theorem termOf_combineMul : TermOf ρ (combineMul (some a) b) (value ρ a * value ρ b) := by
  have hleft {c : Int32} (h : (some a).bind always? = some c) : value ρ a = ofWord R c :=
    ha.value_of_always? ρ h
  have hright {c : Int32} (h : b.always? = some c) : value ρ b = ofWord R c :=
    hb.value_of_always? ρ h
  unfold combineMul
  dsimp only [Option.getD_some]
  split_ifs with h0 h1 hm1 h0' h1' hm1'
  · exact ⟨ha, by simp [hleft h0]⟩
  · exact ⟨hb, by simp [hleft h1]⟩
  · simpa [hleft hm1] using termOf_combineNeg (ρ := ρ) hb
  · exact ⟨hb, by simp [hright h0']⟩
  · exact ⟨ha, by simp [hright h1']⟩
  · simpa [hright hm1'] using termOf_combineNeg (ρ := ρ) ha
  · exact TermOf.operation ha hb (by decide) rfl

theorem termOf_combineDiv :
    TermOf ρ (combineDiv (some a) b) (Arithmetic.quot (value ρ a) (value ρ b)) := by
  have hright {c : Int32} (h : b.always? = some c) : value ρ b = ofWord R c :=
    hb.value_of_always? ρ h
  unfold combineDiv
  dsimp only [Option.getD_some]
  split_ifs with h1 hm1
  · exact ⟨ha, by rw [hright h1, ofWord_one, Arithmetic.quot_one]⟩
  · rw [hright hm1, ofWord_neg_one, Arithmetic.quot_neg_one]
    exact termOf_combineNeg ha
  · exact TermOf.operation ha hb (by decide) rfl

end Combine

end Descriptor

end LoopBounds
