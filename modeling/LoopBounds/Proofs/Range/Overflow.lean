import LoopBounds.Proofs.Range.Soundness

/-!
# Ranges when words wrap around

Bounds are computed in the integers, where nothing wraps around. In a run on words a value
may have left the word range while its bounds have not. A range that needs no finite test
then still bounds the exact value, if the start and the limit of the loop's test are
exact; it bounds the word itself just when that is the exact value.
-/

namespace LoopBounds

namespace Descriptor

variable {d stride lower upper : Descriptor} {cmp : Comparison} {s : State}

/-- The value of an invariant is the same in the integers as it is for words. -/
def ExactIn (s : State) (d : Descriptor) : Prop :=
  value (s.reading ℤ) d = (value s.env d : Int32).toInt

section Steps

variable {ρ : InstrId → ℤ} {step z : ℤ}

theorem inRange_of_surelyFinite (hupper : IsTerm upper)
    (hfinite : surelyFinite upper step cmp = true) (hmoves : movesTowards step cmp = true)
    (hz : -2 ^ 31 ≤ z ∧ z < 2 ^ 31) (hu : -2 ^ 31 ≤ value ρ upper ∧ value ρ upper < 2 ^ 31)
    (hholds : cmp.holds z (value ρ upper) = true) : -2 ^ 31 ≤ z + step ∧ z + step < 2 ^ 31 := by
  have hmost {limit : ℤ} (h : upper.atMost?.any (fun v => decide (v.toInt ≤ limit)) = true) :
      value ρ upper ≤ limit := by
    obtain ⟨v, hv, hle⟩ := (Option.any_eq_true _ _).mp h
    rw [hupper.value_of_atMost? hv]
    exact of_decide_eq_true hle
  have hleast {limit : ℤ} (h : upper.atLeast?.any (fun v => decide (limit ≤ v.toInt)) = true) :
      limit ≤ value ρ upper := by
    obtain ⟨v, hv, hle⟩ := (Option.any_eq_true _ _).mp h
    rw [hupper.value_of_atLeast? hv]
    exact of_decide_eq_true hle
  have hmax := Int32.toInt_maxValue
  have hmin := Int32.toInt_minValue
  cases cmp with
  | lt =>
    simp only [surelyFinite, movesTowards, Comparison.holds, Bool.or_eq_true,
      decide_eq_true_eq] at hfinite hmoves hholds
    rcases hfinite with hone | h
    · omega
    · have := hmost h
      omega
  | le =>
    simp only [surelyFinite, movesTowards, Comparison.holds,
      decide_eq_true_eq] at hfinite hmoves hholds
    have := hmost hfinite
    omega
  | gt =>
    simp only [surelyFinite, movesTowards, Comparison.holds, Bool.or_eq_true,
      decide_eq_true_eq] at hfinite hmoves hholds
    rcases hfinite with hone | h
    · omega
    · have := hleast h
      omega
  | ge =>
    simp only [surelyFinite, movesTowards, Comparison.holds,
      decide_eq_true_eq] at hfinite hmoves hholds
    have := hleast hfinite
    omega
  | _ => cases hfinite

end Steps

section Words

variable {k : ℕ}

/-- A word and a step that add up within the word range add up exactly. -/
theorem toInt_add_of_inRange {step w : Int32} {z : ℤ} (hw : w.toInt = z)
    (hrange : -2 ^ 31 ≤ z + step.toInt ∧ z + step.toInt < 2 ^ 31) :
    (w + step).toInt = z + step.toInt := by
  have hadd : w + step = Int32.ofInt (z + step.toInt) := by
    rw [← hw, Int32.ofInt_add, Int32.ofInt_toInt, Int32.ofInt_toInt]
  rw [hadd]
  exact Int32.toInt_ofInt_of_le hrange.1 hrange.2

theorem passes_words (h : Passes cmp s.env stride lower upper k) :
    cmp.holds (value s.env stride * (k : Int32) + value s.env lower : Int32).toInt
      (value s.env upper : Int32).toInt = true := by
  obtain ⟨u, w, hu, hw, hholds⟩ := h
  rw [ofWord, Int32.cast_toInt] at hu hw
  rwa [← hu, ← hw]

theorem Passes.exact_of_eq (h : Passes cmp s.env stride lower upper k) (hupper : upper.ExactIn s)
    (heq : (value s.env stride * (k : Int32) + value s.env lower : Int32).toInt =
      value (s.reading ℤ) stride * k + value (s.reading ℤ) lower) :
    Passes cmp (s.reading ℤ) stride lower upper k :=
  ⟨_, _, heq, hupper.symm, passes_words h⟩

theorem Passes.exact_zero (hexact : lower.ExactIn s ∧ upper.ExactIn s)
    (h : Passes cmp s.env stride lower upper 0) :
    Passes cmp (s.reading ℤ) stride lower upper 0 := by
  apply h.exact_of_eq hexact.2
  rw [Nat.cast_zero, Nat.cast_zero, mul_zero, mul_zero, zero_add, zero_add]
  exact hexact.1.symm

variable (hstride : IsTerm stride) (hlower : IsTerm lower) (hupper : IsTerm upper)
variable (hexact : lower.ExactIn s ∧ upper.ExactIn s)

include hstride hlower hupper hexact

theorem toInt_member {t : Descriptor} {kind : TripKind} {m : ℕ}
    (ht : linearTripCount? stride lower upper cmp = some t) (hkind : t.tripKind? = some kind)
    (hfinite : kind.needsFinite = false)
    (h : ∀ k < m, Passes cmp s.env stride lower upper k) :
    ∀ k < m, (value s.env stride * (k : Int32) + value s.env lower : Int32).toInt =
      value (s.reading ℤ) stride * k + value (s.reading ℤ) lower := by
  obtain ⟨step, hstep, hmoves, rfl⟩ := LoopView.linearTripCount?_eq_some ht
  obtain rfl := Option.some.inj hkind
  simp only [Bool.not_eq_false'] at hfinite
  have hvalue : value (s.reading ℤ) stride = step.toInt := hstride.value_of_always? _ hstep
  have hword : value s.env stride = step := by
    rw [hstride.value_of_always? s.env hstep, ofWord, Int32.cast_toInt]
  have hlimit : value (s.reading ℤ) upper = (value s.env upper : Int32).toInt := hexact.2
  intro k
  induction k using Nat.strong_induction_on with
  | _ k ih =>
    intro hk
    cases k with
    | zero =>
      rw [Nat.cast_zero, Nat.cast_zero, mul_zero, mul_zero, zero_add, zero_add]
      exact hexact.1.symm
    | succ k =>
      -- The members so far are exact, so the last of them passes the test as an integer.
      have hpassed : ∀ j < k + 1, cmp.holds (step.toInt * (j : ℕ) + value (s.reading ℤ) lower)
          (value (s.reading ℤ) upper) = true := by
        intro j hj
        have := passes_words (h j (by omega))
        rwa [ih j hj (by omega), ← hlimit, hvalue] at this
      have hbefore := holds_orderedTest hlower hupper hpassed
      have hprev := ih k k.lt_succ_self (by omega)
      have hz := hprev ▸ And.intro (Int32.le_toInt _) (Int32.toInt_lt _)
      have hu := hlimit ▸ And.intro (Int32.le_toInt _) (Int32.toInt_lt _)
      rw [hvalue] at hprev hz ⊢
      have hrange := inRange_of_surelyFinite hupper hfinite hmoves hz hu
        (hbefore k k.lt_succ_self)
      have hnext : value s.env stride * ((k + 1 : ℕ) : Int32) + value s.env lower =
          value s.env stride * (k : Int32) + value s.env lower + step := by
        rw [hword, Nat.cast_succ]
        ring
      rw [hnext, toInt_add_of_inRange hprev hrange]
      push_cast
      ring

/-- The members of a sequence that surely is finite pass the test as integers, too. -/
theorem Passes.exact {t : Descriptor} {kind : TripKind} {m : ℕ}
    (ht : linearTripCount? stride lower upper cmp = some t) (hkind : t.tripKind? = some kind)
    (hfinite : kind.needsFinite = false)
    (h : ∀ k < m, Passes cmp s.env stride lower upper k) :
    ∀ k < m, Passes cmp (s.reading ℤ) stride lower upper k := by
  intro k hk
  apply (h k hk).exact_of_eq hexact.2
  exact toInt_member hstride hlower hupper hexact ht hkind hfinite h k hk

end Words

section Exact

variable {ρ : InstrId → ℤ} {ω : InstrId → Int32}

/-- No quotient stands in the descriptor. -/
def isDivisionFree : Descriptor → Bool
  | binary op a b => op ≠ .div && a.isDivisionFree && b.isDivisionFree
  | unary _ b => b.isDivisionFree
  | linear a b | periodic a b | wrapAround a b => a.isDivisionFree && b.isDivisionFree
  | _ => true

theorem isDivisionFree_of_mem_members (h : d.isDivisionFree = true) {m : Descriptor}
    (hm : m ∈ d.members) : m.isDivisionFree = true := by
  induction d with
  | periodic a b _ ih =>
    rw [isDivisionFree, Bool.and_eq_true] at h
    rcases List.mem_cons.mp hm with rfl | hm
    · exact h.1
    · exact ih h.2 hm
  | _ =>
    obtain rfl := List.mem_singleton.mp hm
    exact h

variable (hcast : ∀ y, (ρ y : Int32) = ω y)

include hcast

/-- Without division, wrapping around at the end comes to the same as doing so at every
operation. -/
theorem IsTerm.cast_value (h : IsTerm d) (hfree : d.isDivisionFree = true) :
    ((value ρ d : ℤ) : Int32) = value ω d := by
  induction h with
  | constant v => rw [value, value, Affine.ofWord_int, Int32.cast_toInt, ofWord, Int32.cast_toInt]
  | fetch x => exact hcast x
  | neg _ ih => rw [value, value, Int.cast_neg, ih hfree]
  | @binary op a b hop _ _ iha ihb =>
    simp only [isDivisionFree, Bool.and_eq_true, decide_eq_true_eq] at hfree
    obtain ⟨⟨hdiv, ha⟩, hb⟩ := hfree
    simp only [List.mem_cons, List.not_mem_nil, or_false] at hop
    rcases hop with rfl | rfl | rfl | rfl
    · rw [value, value, Int.cast_add, iha ha, ihb hb]
    · rw [value, value, Int.cast_sub, iha ha, ihb hb]
    · rw [value, value, Int.cast_mul, iha ha, ihb hb]
    · exact absurd rfl hdiv

/-- A word that is described without division is the word of an exact value. -/
theorem WellFormed.exists_exact (h : WellFormed d) (hfree : d.isDivisionFree = true) {n : ℕ}
    {w : Int32} (hw : Describes none ω d n w) :
    ∃ z : ℤ, Describes none ρ d n z ∧ (z : Int32) = w := by
  induction h generalizing n with
  | term hd =>
    refine ⟨value ρ _, (describes_of_isTerm hd).mpr rfl, ?_⟩
    rw [hd.cast_value hcast hfree, (describes_of_isTerm hd).mp hw]
  | @linear a b ha hb =>
    rw [isDivisionFree, Bool.and_eq_true] at hfree
    refine ⟨value ρ a * n + value ρ b, rfl, ?_⟩
    rw [Int.cast_add, Int.cast_mul, ha.cast_value hcast hfree.1, hb.cast_value hcast hfree.2,
      Int.cast_natCast]
    exact hw.symm
  | @periodic a b hm =>
    obtain ⟨m, hmem, rfl⟩ := List.mem_map.mp (Repeats.mem hw)
    exact ⟨value ρ m, List.mem_map_of_mem hmem,
      (hm m hmem).cast_value hcast (isDivisionFree_of_mem_members hfree hmem)⟩
  | @wrapAround a b ha hb ih =>
    rw [isDivisionFree, Bool.and_eq_true] at hfree
    cases n with
    | zero =>
      refine ⟨value ρ a, rfl, ?_⟩
      rw [ha.cast_value hcast hfree.1]
      exact (show _ = _ from hw).symm
    | succ n => exact ih hfree.2 hw

end Exact

end Descriptor

/-- The start and the limit of the test of the loop are exact in state `s`. -/
def LoopView.ExactTest (v : LoopView) (s : State) : Prop :=
  ∀ control a b cmp, v.func.terminator? v.header = some control →
    v.control? v.classes control = some (a, b, cmp) → a.base.ExactIn s ∧ b.base.ExactIn s

namespace Setting

open Descriptor

variable {S : Setting Int32} {s : State} {context : InstrId}

/-- What the trip count says in the integers of an iteration on words: it is positive in the
body, and unless it needs a finite test it bounds the number of the iteration. -/
theorem AtEnd.within_of_exactTest (hs : S.AtEnd s context)
    (hl : S.id.index < S.func.flow.loopForest.loops.size) (hexact : S.view.ExactTest s) :
    Entered ((Analysis.ofFunc S.func).tripCount? S.func S.id) (s.here ≠ S.loop.header)
        (s.reading ℤ) ∧
      ((((Analysis.ofFunc S.func).tripCount? S.func S.id).bind tripKind?).any
          TripKind.needsFinite = false →
        Within ((Analysis.ofFunc S.func).tripCount? S.func S.id) (s.here ≠ S.loop.header)
          (s.reading ℤ) (S.iteration s)) := by
  cases ht : (Analysis.ofFunc S.func).tripCount? S.func S.id with
  | none => exact ⟨fun _ count h => (by cases h), fun _ t h => (by cases h)⟩
  | some t =>
    obtain ⟨control, hcontrol, htrip⟩ := exists_control hl ht
    obtain ⟨a, b, cmp, stride, lower, upper, towards, htest, h⟩ := exists_linearTest htrip
    obtain ⟨ha, hb, hpassed⟩ := hs.passed hcontrol htest h.linear
      (ρ := s.env) fun y _ => by rw [State.reading_words]
    obtain ⟨hstride, hlower, hupper⟩ := h.terms ha hb
    have hends : lower.ExactIn s ∧ upper.ExactIn s := by
      obtain ⟨hea, heb⟩ := hexact control a b cmp hcontrol htest
      rcases h.bases with ⟨rfl, rfl⟩ | ⟨rfl, rfl⟩
      · exact ⟨hea, heb⟩
      · exact ⟨heb, hea⟩
    have hpasses := fun k hk => h.passes ha hb Int32 s.env k (hpassed k hk)
    constructor
    · intro hbody count hcount
      have hwithin : Within (some t) true (s.reading ℤ) 0 := by
        apply h.within ha hb
        intro k hk
        obtain rfl : k = 0 := by simpa using hk
        refine (hpasses 0 ?_).exact_zero hends
        rw [if_pos (of_decide_eq_true hbody)]
        exact Nat.succ_pos _
      obtain ⟨kind, count', -, hcount', -, hk⟩ := hwithin t rfl
      obtain rfl : count = count' := Option.some.inj (hcount.symm.trans hcount')
      exact hk.body rfl
    · intro hfinite
      apply h.within ha hb
      intro k hk
      obtain ⟨kind, hkind⟩ := Option.isSome_iff_exists.mp (LoopView.tripKind?_of_tripCount? htrip)
      have hneeds : kind.needsFinite = false := by simpa [hkind] using hfinite
      exact Passes.exact hstride hlower hupper hends h.trip hkind hneeds hpasses k
        (by simpa using hk)

end Setting

/-- The integer `z` is what `d` gives to iteration `n`, and `x` has its word. -/
def Descriptor.IsExact (d : Descriptor) (s : State) (n : ℕ) (x : InstrId) (z : ℤ) : Prop :=
  d.Describes none (s.reading ℤ) n z ∧ (z : Int32) = s.env x

/-- An integer that wraps around leaves the word range by the width of it. -/
theorem exists_laps {z : ℤ} {w : Int32} (h : (z : Int32) = w) :
    ∃ k : ℤ, z = w.toInt + 2 ^ 32 * k := by
  have hw : w.toInt = z.bmod (2 ^ 32) := by
    rw [← h]
    exact Int32.toInt_ofInt
  obtain ⟨k, hk⟩ := Int.dvd_bmod_sub_self (x := z) (m := 2 ^ 32)
  refine ⟨-k, ?_⟩
  rw [← hw] at hk
  push_cast at hk
  omega

section Constant

variable {f : Func} {args : Nat → Int32} {s : State} {context x : InstrId} {rest : List InstrId}
variable {l : LoopId} {inBody : Bool} {d : Descriptor} {r : ValueRange}

/-- In a run on words, where the test of the loop is exact, a constant bound that needs no
finite test bounds a word just when the word is the exact value, as long as the exact value
is less than the width of the word range away from the bound. Without division there always
is an exact value. -/
theorem Func.constant_bounds_iff (hf : f.Valid) (hs : f.Run args (fun _ => True) s)
    (hrest : s.rest = context :: rest) (hcontext : (f.instr context).isTerminator = true)
    (hx : f.AvailableAtEnd s.here x)
    (hl : (Analysis.ofFunc f).contextLoop? f context = some (l, inBody))
    (hd : (Analysis.ofFunc f).lookup f l x = some d)
    (hr : (Analysis.ofFunc f).range? f context x = some r) (hfinite : r.needsFiniteTest = false)
    (hexact : (LoopView.mk f f.flow.loopForest l).ExactTest s) :
    (∀ z, d.IsExact s ((f.flow.loopForest.get l).iteration s.trail) x z →
      (∀ m, r.bounds.lower.constant? = some m → z < m.toInt + 2 ^ 32 →
        (m.toInt ≤ (s.env x).toInt ↔ (s.env x).toInt = z)) ∧
      ∀ m, r.bounds.upper.constant? = some m → m.toInt - 2 ^ 32 < z →
        ((s.env x).toInt ≤ m.toInt ↔ (s.env x).toInt = z)) ∧
    (d.isDivisionFree = true →
      ∃ z, d.IsExact s ((f.flow.loopForest.get l).iteration s.trail) x z) := by
  obtain ⟨hlt, hmem, rfl⟩ := Analysis.contextLoop?_eq_some hf.flow.finished hl
  obtain rfl : r = Query.range ⟨d, (Analysis.ofFunc f).tripCount? f l,
      f.home context ≠ (f.flow.loopForest.get l).header⟩ := by
    simp only [Analysis.range?, Analysis.query?, hl, hd, bind, Option.bind_some, pure,
      Option.map_some, Option.some.injEq] at hr
    exact hr.symm
  let S := Setting.words hf args hlt
  obtain ⟨hhome, hend⟩ : f.home context = s.here ∧ S.AtEnd s context :=
    S.atEnd_of_isTerminator hs hrest hcontext hmem
  obtain ⟨hwell, hdesc⟩ := hend.describes hlt hx hd
  obtain ⟨hentered, hwithin⟩ := hend.within_of_exactTest hlt hexact
  dsimp only [Query.range]
  rw [hhome]
  constructor
  · intro z hz
    have hneeds (hneeds : d.needsTripCount = true) :
        (((Analysis.ofFunc f).tripCount? f l).bind Descriptor.tripKind?).any
          TripKind.needsFinite = false := by
      simpa [Query.range, Query.needsFinite, hneeds] using hfinite
    have hcontains := hwell.contains_bounds hentered (fun h => hwithin (hneeds h)) hz.1
    obtain ⟨k, hk⟩ := exists_laps hz.2
    have hlo := Int32.le_toInt (s.env x)
    have hhi := Int32.toInt_lt (s.env x)
    constructor
    · intro m hm hlap
      have hle := hcontains.le_of_constant? (c := m) hm
      have := Int32.le_toInt m
      omega
    · intro m hm hlap
      have hle := hcontains.of_constant?_le (c := m) hm
      have := Int32.toInt_lt m
      omega
  · intro hfree
    have hfetch : S.Fetches s s.env := fun y _ => by rw [State.reading_words]
    have hword := hdesc s.env hfetch
    rw [State.reading_words] at hword
    exact hwell.exists_exact (fun y => Int32.cast_toInt (s.env y)) hfree hword

end Constant

/-- The descriptor of four times the variable. -/
def scaledProduct : Descriptor :=
  .linear (.binary .mul (.constant 268435456) (.constant 4)) (.constant 0)

/-- In the third iteration four times the variable is `2 ^ 31`, which is no word. -/
theorem scaled_constant_bounds_iff : ∃ s, scaled.Run (fun _ => 0) (fun _ => True) s ∧
    s.rest = [⟨10⟩] ∧ (0 ≤ (s.env ⟨8⟩).toInt ↔ (s.env ⟨8⟩).toInt = 2 ^ 31) := by
  obtain ⟨s, s', hs, -, hfound⟩ := scaled.exists_step_of_after (fun _ => 0) (fun _ => True) 15
    (fun s _ => s.rest = [⟨10⟩] ∧ s.here = ⟨2⟩ ∧ s.env ⟨8⟩ = -2 ^ 31 ∧
      (scaled.flow.loopForest.get ⟨0⟩).iteration s.trail = 2) (by decide +kernel)
  obtain ⟨hrest, hhere, henv, hiter⟩ := of_decide_eq_true hfound
  have hx : scaled.AvailableAtEnd s.here ⟨8⟩ := by
    rw [hhere]
    exact Func.availableAtEnd_of_check scaled_valid.flow (by decide +kernel)
  have hexact : (LoopView.mk scaled scaled.flow.loopForest ⟨0⟩).ExactTest s := by
    intro control a b cmp hcontrol htest
    obtain rfl : (⟨7⟩ : InstrId) = control := Option.some.inj (by rw [← hcontrol]; decide +kernel)
    have htest' : (Descriptor.linear (.constant 268435456) (.constant 0),
        Descriptor.constant 1073741824, Comparison.lt) = (a, b, cmp) :=
      Option.some.inj (by rw [← htest]; decide +kernel)
    cases htest'
    exact ⟨rfl, rfl⟩
  have hz : scaledProduct.IsExact s ((scaled.flow.loopForest.get ⟨0⟩).iteration s.trail) ⟨8⟩
      (2 ^ 31) := by
    rw [hiter]
    exact ⟨rfl, by rw [henv]; rfl⟩
  have hl : (Analysis.ofFunc scaled).contextLoop? scaled ⟨10⟩ = some (⟨0⟩, true) := by
    decide +kernel
  have hd : (Analysis.ofFunc scaled).lookup scaled ⟨0⟩ ⟨8⟩ = some scaledProduct := by
    decide +kernel
  have hr : (Analysis.ofFunc scaled).range? scaled ⟨10⟩ ⟨8⟩ =
      some ⟨⟨.constant 0, .unknown⟩, false⟩ := by decide +kernel
  obtain ⟨hiff, -⟩ := Func.constant_bounds_iff scaled_valid hs hrest (by decide +kernel) hx hl hd hr
    rfl hexact
  exact ⟨s, hs, hrest, (hiff (2 ^ 31) hz).1 0 (by decide +kernel) (by decide +kernel)⟩

/-- The range of the product starts at zero and needs no finite test, but the product is
negative there. -/
theorem scaled_not_contains : scaled.Valid ∧ ∃ s r, scaled.Run (fun _ => 0) (fun _ => True) s ∧
    s.rest = [⟨10⟩] ∧ scaled.AvailableAtEnd s.here ⟨8⟩ ∧
    (Analysis.ofFunc scaled).range? scaled ⟨10⟩ ⟨8⟩ = some r ∧ r.needsFiniteTest = false ∧
    ∃ m, r.bounds.lower.constant? = some m ∧ (s.env ⟨8⟩).toInt < m.toInt := by
  have hvalid := scaled_valid
  obtain ⟨s, s', hs, -, hfound⟩ := scaled.exists_step_of_after (fun _ => 0) (fun _ => True) 15
    (fun s _ => s.rest = [⟨10⟩] ∧ s.here = ⟨2⟩ ∧ s.env ⟨8⟩ = -2 ^ 31) (by decide +kernel)
  obtain ⟨hrest, hhere, henv⟩ := of_decide_eq_true hfound
  refine ⟨hvalid, s, ⟨⟨.constant 0, .unknown⟩, false⟩, hs, hrest, ?_, by decide +kernel, rfl, 0,
    by decide +kernel, ?_⟩
  · rw [hhere]
    exact Func.availableAtEnd_of_check hvalid.flow (by decide +kernel)
  · rw [henv]
    decide +kernel

/-- A loop from `n` below `n - 10`, which runs only if the limit wraps around. -/
def overrun : Func :=
  .ofTables "overrun" .i32 [⟨0⟩]
    #[
      { label := "entry", succs := [⟨1⟩], terminator := some ⟨4⟩ },
      { label := "header", preds := [⟨0⟩, ⟨2⟩], succs := [⟨2⟩, ⟨3⟩], phis := [⟨5⟩, ⟨6⟩],
        body := [⟨7⟩, ⟨8⟩], terminator := some ⟨9⟩ },
      { label := "body", preds := [⟨1⟩], succs := [⟨1⟩], body := [⟨10⟩, ⟨11⟩],
        terminator := some ⟨12⟩ },
      { label := "exit", preds := [⟨1⟩], terminator := some ⟨13⟩ }]
    #[
      ⟨"n", ⟨0⟩, .param 0⟩,
      ⟨"c0", ⟨0⟩, .constant 0⟩,
      ⟨"c10", ⟨0⟩, .constant 10⟩,
      ⟨"c1", ⟨0⟩, .constant 1⟩,
      ⟨"t1", ⟨0⟩, .jump ⟨1⟩⟩,
      ⟨"i", ⟨1⟩, .phi [(⟨0⟩, ⟨0⟩), (⟨10⟩, ⟨2⟩)]⟩,
      ⟨"j", ⟨1⟩, .phi [(⟨1⟩, ⟨0⟩), (⟨11⟩, ⟨2⟩)]⟩,
      ⟨"limit", ⟨1⟩, .arith .sub ⟨0⟩ ⟨2⟩⟩,
      ⟨"test", ⟨1⟩, .compare .lt ⟨5⟩ ⟨7⟩⟩,
      ⟨"t2", ⟨1⟩, .branch ⟨8⟩ ⟨2⟩ ⟨3⟩⟩,
      ⟨"inext", ⟨2⟩, .arith .add ⟨5⟩ ⟨3⟩⟩,
      ⟨"jnext", ⟨2⟩, .arith .add ⟨6⟩ ⟨3⟩⟩,
      ⟨"t3", ⟨2⟩, .jump ⟨1⟩⟩,
      ⟨"t4", ⟨3⟩, .ret (some ⟨6⟩)⟩]
    4

/-- The test has to be exact: here only its limit wraps around, and the counter, which is
zero and needs no finite test, exceeds its constant upper bound. -/
theorem overrun_not_contains : overrun.Valid ∧
    ∃ s r, overrun.Run (fun _ => -2147483643) (fun _ => True) s ∧ s.rest = [⟨12⟩] ∧
      overrun.AvailableAtEnd s.here ⟨6⟩ ∧ s.env ⟨6⟩ = 0 ∧
      (Analysis.ofFunc overrun).range? overrun ⟨12⟩ ⟨6⟩ = some r ∧ r.needsFiniteTest = false ∧
      ∃ m, r.bounds.upper.constant? = some m ∧ m.toInt < (s.env ⟨6⟩).toInt := by
  have hvalid : overrun.Valid := Func.valid_of_check (by decide +kernel)
  obtain ⟨s, s', hs, -, hfound⟩ :=
    overrun.exists_step_of_after (fun _ => -2147483643) (fun _ => True) 6
      (fun s _ => s.rest = [⟨12⟩] ∧ s.here = ⟨2⟩ ∧ s.env ⟨6⟩ = 0) (by decide +kernel)
  obtain ⟨hrest, hhere, henv⟩ := of_decide_eq_true hfound
  refine ⟨hvalid, s, ⟨⟨.constant 0, .constant (-11)⟩, false⟩, hs, hrest, ?_, henv,
    by decide +kernel, rfl, -11, by decide +kernel, ?_⟩
  · rw [hhere]
    exact Func.availableAtEnd_of_check hvalid.flow (by decide +kernel)
  · rw [henv]
    decide +kernel

end LoopBounds
