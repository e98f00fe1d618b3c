import LoopBounds.Descriptor.Bounds
import LoopBounds.Proofs.Descriptor.Fold
import LoopBounds.Proofs.Range.Interval

/-!
# Bounds of descriptors

The bounds of a descriptor contain the integer that it gives to an iteration, if the trip
count does: in the body the number of the iteration stays below the count, and at the
header it does not pass it. A descriptor without linear sequences only needs the count to be
positive in the body.
-/

namespace LoopBounds.Descriptor

variable {ρ : InstrId → ℤ} {d : Descriptor} {trip : Option Descriptor} {inBody : Bool} {n : ℕ}

/-- In the body the trip count is positive. -/
def Entered (trip : Option Descriptor) (inBody : Bool) (ρ : InstrId → ℤ) : Prop :=
  inBody = true → ∀ count, trip.bind count? = some count → 1 ≤ value ρ count

/-- The trip count of kind `kind` and value `count` bounds the iteration number `n`. -/
structure Counted (kind : TripKind) (inBody : Bool) (n count : ℤ) : Prop where
  body : inBody = true → n < count
  header : inBody = false → kind.needsTaken = false → n ≤ count

/-- The trip count, if there is one, bounds the iteration number `n`. -/
def Within (trip : Option Descriptor) (inBody : Bool) (ρ : InstrId → ℤ) (n : ℕ) : Prop :=
  ∀ t, trip = some t → ∃ kind count, t.tripKind? = some kind ∧ t.count? = some count ∧
    IsTerm count ∧ Counted kind inBody n (value ρ count)

theorem Within.of_succ (h : Within trip inBody ρ (n + 1)) : Within trip inBody ρ n := by
  intro t ht
  obtain ⟨kind, count, hkind, hcount, hterm, hle⟩ := h t ht
  refine ⟨kind, count, hkind, hcount, hterm, fun hin => ?_, fun hin hk => ?_⟩
  · have := hle.body hin
    push_cast at this
    omega
  · have := hle.header hin hk
    push_cast at this
    omega

theorem contains_fetchBounds (h : Entered trip inBody ρ) (x : InstrId) :
    (fetchBounds trip inBody x).Contains ρ (ρ x) := by
  have hread (r : ℤ) (hr : (Affine.ofInstr x 1 0).read? ρ = some r) : r = ρ x := by
    rw [Affine.read?_ofInstr, Option.some.injEq] at hr
    simpa [eq_comm] using hr
  unfold fetchBounds
  dsimp only
  split_ifs with hcount
  · simp only [Bool.and_eq_true, decide_eq_true_eq] at hcount
    obtain ⟨hin, hcount⟩ := hcount
    obtain ⟨count, hsome, hfetch⟩ := Option.bind_eq_some_iff.mp hcount
    have hpos : 1 ≤ value ρ count := h hin count hsome
    have hvalue : value ρ count = ρ x := by
      cases count with
      | fetch y =>
        obtain rfl : y = x := Option.some.inj hfetch
        rfl
      | _ => cases hfetch
    refine ⟨fun r hr => ?_, fun r hr => (hread r hr).ge⟩
    rw [Affine.read?_constant, Option.some.injEq, ofWord_one] at hr
    rw [← hr, ← hvalue]
    exact hpos
  · exact Interval.contains_exactly hread

section Terms

variable {fetched : InstrId → Interval}
variable {linears : Descriptor → Descriptor → Interval → Interval → Interval}
variable (hfetched : ∀ x, (fetched x).Contains ρ (ρ x))

include hfetched

theorem IsTerm.contains_boundsWith (h : IsTerm d) :
    (d.boundsWith inBody fetched linears).Contains ρ (value ρ d) := by
  induction h with
  | constant v => exact Interval.contains_constant v
  | fetch x => exact hfetched x
  | neg _ ih => exact Interval.contains_neg ih
  | @binary op a b hop _ _ iha ihb =>
    simp only [List.mem_cons, List.not_mem_nil, or_false] at hop
    rcases hop with rfl | rfl | rfl | rfl
    · exact Interval.contains_add iha ihb
    · exact Interval.contains_sub iha ihb
    · exact Interval.contains_mul iha ihb
    · exact Interval.contains_div iha ihb

theorem contains_boundsWith_of_mem_members (hd : ∀ m ∈ d.members, IsTerm m) {m : Descriptor}
    (hm : m ∈ d.members) : (d.boundsWith inBody fetched linears).Contains ρ (value ρ m) := by
  induction d with
  | periodic a b _ ih =>
    rcases List.mem_cons.mp hm with rfl | hm
    · exact Interval.contains_hull (.inl ((hd m List.mem_cons_self).contains_boundsWith hfetched))
    · exact Interval.contains_hull
        (.inr (ih (fun m hm => hd m (List.mem_cons_of_mem _ hm)) hm))
  | _ =>
    obtain rfl := List.mem_singleton.mp hm
    exact (hd _ hm).contains_boundsWith hfetched

end Terms

section Linear

theorem countBounds_of_tripKind? {t count : Descriptor} {kind : TripKind}
    (hkind : t.tripKind? = some kind) (hcount : t.count? = some count) :
    t.countBounds trip inBody = kind.bounds inBody (count.countBounds trip inBody) := by
  cases t with
  | tripCount k c =>
    cases hkind
    cases hcount
    rfl
  | guardedCount k c t =>
    cases hkind
    cases hcount
    rfl
  | _ => cases hkind

theorem le_upper_bounds {kind : TripKind} {c : Interval} {k u : ℤ}
    (hk : Counted kind inBody k u) (hu : ∀ r, c.upper.read? ρ = some r → u ≤ r) {r : ℤ}
    (hr : (kind.bounds inBody c).upper.read? ρ = some r) : k ≤ r := by
  unfold TripKind.bounds at hr
  dsimp only at hr
  split_ifs at hr with hin htaken
  · obtain ⟨a, b, ha, hb, rfl⟩ := Affine.read?_sub hr
    rw [Affine.read?_constant, Option.some.injEq, ofWord_one] at hb
    have := hu a ha
    have := hk.body hin
    dsimp only
    omega
  · cases hr
  · rw [Bool.not_eq_true] at hin htaken
    exact (hk.header hin htaken).trans (hu r hr)

theorem contains_tripBounds {kind : TripKind} {c : Interval} {u : ℤ}
    (hk : Counted kind inBody n u) (hu : c.Contains ρ u) :
    (kind.bounds inBody c).Contains ρ n := by
  refine ⟨fun r hr => ?_, fun r hr => le_upper_bounds hk hu.upper hr⟩
  rw [TripKind.bounds, Affine.read?_constant, Option.some.injEq, ofWord_zero] at hr
  rw [← hr]
  exact Int.natCast_nonneg n

variable {stride start : Descriptor} {strideBounds startBounds : Interval}

theorem contains_linearBounds (hentered : Entered trip inBody ρ) (hwithin : Within trip inBody ρ n)
    (hstride : IsTerm stride) (hstrideBounds : strideBounds.Contains ρ (value ρ stride))
    (hstartBounds : startBounds.Contains ρ (value ρ start)) :
    (linearBounds trip inBody stride start strideBounds startBounds).Contains ρ
      (value ρ stride * n + value ρ start) := by
  unfold linearBounds
  split
  · exact Interval.contains_unknown
  · rename_i t
    obtain ⟨kind, count, hkind, hcount, hterm, hk⟩ := hwithin t rfl
    have hfetched := contains_fetchBounds hentered
    have hgeneral : (linearFormula (t.countBounds (some t) inBody) strideBounds
        startBounds).Contains ρ (value ρ stride * n + value ρ start) := by
      rw [countBounds_of_tripKind? hkind hcount]
      exact Interval.contains_add (Interval.contains_mul hstrideBounds
        (contains_tripBounds hk (hterm.contains_boundsWith hfetched))) hstartBounds
    dsimp only
    split
    · rename_i kind' hi lo hkind' hcount'
      obtain rfl : kind = kind' := Option.some.inj (hkind.symm.trans hkind')
      obtain rfl : count = binary .sub hi lo := Option.some.inj (hcount.symm.trans hcount')
      obtain ⟨hhi, hlo⟩ : IsTerm hi ∧ IsTerm lo := by
        cases hterm with
        | binary _ hhi hlo => exact ⟨hhi, hlo⟩
      have hvalue : value ρ (binary .sub hi lo) = value ρ hi - value ρ lo := rfl
      rw [hvalue] at hk
      split_ifs with hup hdown
      · -- The start cancels against the one taken off in the count.
        obtain ⟨hone, rfl⟩ := hup
        rw [hstride.value_of_always? ρ hone, ofWord_one, one_mul] at hgeneral ⊢
        refine ⟨hgeneral.lower, ?_⟩
        intro r hr
        refine le_upper_bounds (u := value ρ hi) ⟨fun hin => ?_, fun hin htaken => ?_⟩
          (hhi.contains_boundsWith hfetched).upper hr
        · have := hk.body hin
          omega
        · have := hk.header hin htaken
          omega
      · obtain ⟨hone, rfl⟩ := hdown
        rw [hstride.value_of_always? ρ hone, ofWord_neg_one, neg_one_mul] at hgeneral ⊢
        refine ⟨fun r hr => ?_, hgeneral.upper⟩
        obtain ⟨a, b, ha, hb, rfl⟩ := Affine.read?_sub hr
        rw [Affine.read?_constant, Option.some.injEq, ofWord_zero] at ha
        have := le_upper_bounds (k := n - value ρ hi) (u := -value ρ lo)
          ⟨fun hin => ?_, fun hin htaken => ?_⟩
          (hlo.neg.contains_boundsWith hfetched).upper hb
        · dsimp only
          omega
        · have := hk.body hin
          omega
        · have := hk.header hin htaken
          omega
      · exact hgeneral
    · exact hgeneral

end Linear

/-- The bounds of a well-formed descriptor contain what it gives to an iteration that the
trip count bounds. -/
theorem WellFormed.contains_bounds (h : WellFormed d) (hentered : Entered trip inBody ρ)
    (hwithin : d.needsTripCount = true → Within trip inBody ρ n) {ahead : Option ℕ} {z : ℤ}
    (hz : Describes ahead ρ d n z) : (d.bounds trip inBody).Contains ρ z := by
  have hfetched := contains_fetchBounds hentered
  induction h generalizing n with
  | term hterm =>
    rw [(describes_of_isTerm hterm).mp hz]
    exact hterm.contains_boundsWith hfetched
  | @linear a b ha hb =>
    rw [show z = value ρ a * n + value ρ b from hz]
    exact contains_linearBounds hentered (hwithin rfl) ha (ha.contains_boundsWith hfetched)
      (hb.contains_boundsWith hfetched)
  | periodic hm =>
    obtain ⟨m, hmem, rfl⟩ := List.mem_map.mp (Repeats.mem hz)
    exact contains_boundsWith_of_mem_members hfetched hm hmem
  | @wrapAround a b ha hb ih =>
    cases n with
    | zero =>
      rw [show z = value ρ a from hz]
      exact Interval.contains_hull (.inl (ha.contains_boundsWith hfetched))
    | succ n => exact Interval.contains_hull (.inr (ih (fun hb => (hwithin hb).of_succ) hz))

/-- An iteration that the count bounds in the body shows that the count is positive. -/
theorem Within.entered (h : Within trip inBody ρ n) : Entered trip inBody ρ := by
  intro hin count hcount
  obtain ⟨t, ht, hcount⟩ := Option.bind_eq_some_iff.mp hcount
  obtain ⟨kind, count', -, hcount', -, hk⟩ := h t ht
  obtain rfl := Option.some.inj (hcount.symm.trans hcount')
  have := hk.body hin
  omega

/-- Symbolic evaluation is sound: a known bound of a well-formed descriptor bounds the exact
value in every iteration that the trip count allows. Without a trip count, and at the header
under a count that needs the taken test, that is every iteration. A division by zero, which has
the value zero here, leaves the bounds unknown. -/
theorem WellFormed.bounds_valueAt (h : WellFormed d) (hwithin : Within trip inBody ρ n) :
    (∀ r, (d.bounds trip inBody).lower.read? ρ = some r → r ≤ d.valueAt ρ n) ∧
      ∀ r, (d.bounds trip inBody).upper.read? ρ = some r → d.valueAt ρ n ≤ r := by
  have hdescribes : Describes (some 0) ρ d n (d.valueAt ρ n) := h.describes_iff.mpr rfl
  have hcontains := h.contains_bounds hwithin.entered (fun _ => hwithin) hdescribes
  exact ⟨hcontains.lower, hcontains.upper⟩

/-- A sequence that falls from `%v1` by one as long as it is above `%v2`. In its body the lower
bound is `%v2 + 1`, in which `%v1` has cancelled. -/
theorem bounds_valueAt_falling :
    let falling := linear (constant (-1)) (fetch ⟨1⟩)
    let count := binary .sub (fetch ⟨1⟩) (fetch ⟨2⟩)
    let trip := guardedCount ⟨true, false⟩ count (binary .gt (fetch ⟨1⟩) (fetch ⟨2⟩))
    let ρ : InstrId → ℤ := fun x => if x = ⟨1⟩ then 10 else 4
    Within (some trip) true ρ 3 ∧
      (falling.bounds (some trip) true).lower.read? ρ = some 5 ∧ 5 ≤ falling.valueAt ρ 3 := by
  intro falling count trip ρ
  have hcount : IsTerm count := .binary (by decide) (.fetch _) (.fetch _)
  have hwithin : Within (some trip) true ρ 3 := by
    rintro t ⟨⟩
    exact ⟨_, count, rfl, rfl, hcount, fun _ => by decide, fun h => by cases h⟩
  have hlower : (falling.bounds (some trip) true).lower.read? ρ = some 5 := by decide +kernel
  have hfalling : WellFormed falling := .linear (.constant _) (.fetch _)
  exact ⟨hwithin, hlower, (hfalling.bounds_valueAt hwithin).1 5 hlower⟩

end LoopBounds.Descriptor
