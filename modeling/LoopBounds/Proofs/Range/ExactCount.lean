import LoopBounds.Range.Code
import LoopBounds.Proofs.Descriptor.Defined
import LoopBounds.Proofs.Range.Overflow

/-!
# Trip counts are exact

A trip count derived from a test states how often the test is passed before it first fails,
in the integers and for all values of what is fetched. Its taken test tells whether the
first member passes, and what its kind claims is true: without `needsTaken` the first
member passes, and without `needsFinite` all members up to the one that fails are words.
-/

namespace LoopBounds

namespace Descriptor

/-- The test evaluates to the truth value `b`. -/
def TestsTo (ρ : InstrId → ℤ) (test : Descriptor) (b : Bool) : Prop :=
  ∃ op cmp x y, test = binary op x y ∧ op.comparison? = some cmp ∧ Defined ρ x ∧ Defined ρ y ∧
    b = cmp.holds (value ρ x) (value ρ y)

/-- What a trip count says of the sequence `l + n * step`, which goes on while `goesOn`. -/
structure ExactCount (ρ : InstrId → ℤ) (kind : TripKind) (count taken : Descriptor)
    (goesOn : ℤ → Bool) (l step : ℤ) : Prop where
  taken : TestsTo ρ taken (goesOn l)
  entered : kind.needsTaken = false → goesOn l = true
  counted : goesOn l = true → ∃ N : ℕ, 1 ≤ N ∧ Evaluates ρ count N ∧
    (∀ n < N, goesOn (l + n * step) = true) ∧ goesOn (l + N * step) = false
  inRange : kind.needsFinite = false → (-2 ^ 31 ≤ l ∧ l < 2 ^ 31) ∧
    (goesOn l = true → ∀ N : ℕ, Evaluates ρ count N →
      ∀ n ≤ N, -2 ^ 31 ≤ l + n * step ∧ l + n * step < 2 ^ 31)

theorem combine_testOperation (cmp : Comparison) (a b : Descriptor) :
    combine (testOperation cmp) (some a) b = binary (testOperation cmp) a b := by
  cases cmp <;> rfl

section Integers

variable {step l i u : ℤ} {cmp : Comparison}

theorem comparison?_testOperation (h : movesTowards step cmp = true) :
    (testOperation cmp).comparison? = some cmp := by
  cases cmp <;> first | rfl | cases h

/-- A rising sequence that starts within a limit has as many members within it as there
are steps to the limit. -/
theorem exists_steps_of_le (hstep : 0 < step) (hle : l ≤ i) :
    ∃ N : ℕ, 1 ≤ N ∧ (i + step - l).tdiv step = N ∧
      ∀ n : ℕ, l + n * step ≤ i ↔ n < N := by
  have hnonneg : 0 ≤ (i - l) / step := Int.ediv_nonneg (by omega) hstep.le
  have hquot : (i + step - l).tdiv step = (i - l) / step + 1 := by
    rw [Int.tdiv_eq_ediv_of_nonneg (by omega), show i + step - l = i - l + 1 * step by ring,
      Int.add_mul_ediv_right _ _ hstep.ne']
  refine ⟨((i - l) / step).toNat + 1, by omega, ?_, ?_⟩
  · rw [hquot]
    omega
  · intro n
    have hn : (n : ℤ) ≤ (i - l) / step ↔ n * step ≤ i - l := Int.le_ediv_iff_mul_le hstep
    omega

/-- A test that moves towards its limit and is passed at first is passed as often as the
count says. -/
theorem exists_count (hmoves : movesTowards step cmp = true) (hl : cmp.holds l u = true) :
    ∃ N : ℕ, 1 ≤ N ∧ (cmp.inclusive u + step - l).tdiv step = N ∧
      ∀ n : ℕ, cmp.holds (l + n * step) u = true ↔ n < N := by
  rcases movesTowards_cases (u := u) hmoves with ⟨hstep, hiff⟩ | ⟨hstep, hiff⟩
  · obtain ⟨N, hN, hquot, hmem⟩ := exists_steps_of_le hstep ((hiff l).mp hl)
    exact ⟨N, hN, hquot, fun n => (hiff _).trans (hmem n)⟩
  · -- A falling sequence is the negative of a rising one.
    obtain ⟨N, hN, hquot, hmem⟩ :=
      exists_steps_of_le (neg_pos.mpr hstep) (neg_le_neg ((hiff l).mp hl))
    refine ⟨N, hN, ?_, ?_⟩
    · rw [← hquot, ← Int.neg_tdiv_neg]
      congr 1
      ring
    · intro n
      rw [hiff, ← hmem n, mul_neg, ← neg_add, neg_le_neg_iff]

end Integers

section Terms

variable {lower upper stride t : Descriptor} {cmp : Comparison} {ρ : InstrId → ℤ} {step : ℤ}
variable (hstride : IsTerm stride) (hlower : IsTerm lower) (hupper : IsTerm upper)

theorem defined_iterations (hs : Defined ρ stride) (hl : Defined ρ lower) (hu : Defined ρ upper)
    (hne : value ρ stride ≠ 0) : Defined ρ (iterations lower upper stride step cmp) := by
  have hP := hereditary_defined (ρ := ρ)
  have hinclusive : Defined ρ (inclusiveLimit upper cmp) := by
    cases cmp with
    | lt => exact hP.combineSum hu true (b := constant 1) trivial
    | gt => exact hP.combineSum hu false (b := constant 1) trivial
    | _ => exact hu
  unfold iterations
  dsimp only
  have hlimit : Defined ρ (if (cmp = .lt ∨ cmp = .gt) ∧ step.natAbs = 1 then upper
      else combine .add (some (inclusiveLimit upper cmp)) stride) := by
    split_ifs
    · exact hu
    · exact hP.combineSum hinclusive false hs
  have hdiff := hP.combineSum hlimit true hl
  exact hP.combineDiv hdiff ⟨hdiff, hs, fun _ => hne⟩

include hlower hupper

/-- A test that a sequence passes while it differs from its limit is replaced by the order
only where the sequence starts on the right side and moves by one. -/
theorem orderedTest_cases (ρ : InstrId → ℤ) (step : ℤ) (cmp : Comparison) :
    orderedTest lower upper step cmp = cmp ∨ cmp = .ne ∧
      (step = 1 ∧ value ρ lower ≤ value ρ upper ∧ orderedTest lower upper step cmp = .lt ∨
        step = -1 ∧ value ρ upper ≤ value ρ lower ∧
          orderedTest lower upper step cmp = .gt) := by
  unfold orderedTest
  split_ifs with hne hup hdown
  · refine .inr ⟨hne, .inl ⟨hup.1, ?_, rfl⟩⟩
    simpa [Comparison.holds] using holds_of_surelyHolds (ρ := ρ) hlower hupper hup.2
  · refine .inr ⟨hne, .inr ⟨hdown.1, ?_, rfl⟩⟩
    simpa [Comparison.holds] using holds_of_surelyHolds (ρ := ρ) hlower hupper hdown.2
  · exact .inl rfl
  · exact .inl rfl

/-- The original test is passed by the same members as the ordered one, up to the first
that fails. -/
theorem holds_of_orderedTest {N : ℕ} (hN : 1 ≤ N)
    (h : ∀ n : ℕ, (orderedTest lower upper step cmp).holds (value ρ lower + n * step)
      (value ρ upper) = true ↔ n < N) {n : ℕ} (hn : n ≤ N) :
    cmp.holds (value ρ lower + n * step) (value ρ upper) = true ↔ n < N := by
  rcases orderedTest_cases hlower hupper ρ step cmp with
    heq | ⟨rfl, ⟨rfl, hle, heq⟩ | ⟨rfl, hle, heq⟩⟩
  · rw [← h n, heq]
  all_goals
    have hlast := (h (N - 1)).mpr (by omega)
    have hn' := h n
    rw [heq] at hlast hn'
    simp only [Comparison.holds, decide_eq_true_eq] at hlast hn' ⊢
    push_cast [hN] at hlast
    omega

omit hlower hupper in
/-- A number passes the original test just when it passes the ordered one, if tests that surely
hold do hold of it. -/
theorem holds_orderedTest_of {l u : ℤ}
    (hsurely : ∀ cmp, surelyHolds lower upper cmp = true → cmp.holds l u = true) :
    (orderedTest lower upper step cmp).holds l u = cmp.holds l u := by
  unfold orderedTest
  split_ifs with hne hup hdown
  · have hle := hsurely .le hup.2
    subst hne
    rw [Bool.eq_iff_iff]
    simp only [Comparison.holds, decide_eq_true_eq] at hle ⊢
    omega
  · have hle := hsurely .ge hdown.2
    subst hne
    rw [Bool.eq_iff_iff]
    simp only [Comparison.holds, decide_eq_true_eq] at hle ⊢
    omega
  · rfl
  · rfl

theorem holds_zero_orderedTest :
    (orderedTest lower upper step cmp).holds (value ρ lower) (value ρ upper) =
      cmp.holds (value ρ lower) (value ρ upper) :=
  holds_orderedTest_of fun _ => holds_of_surelyHolds hlower hupper

include hstride

/-- The trip count of a linear sequence is exact. -/
theorem exactCount_of_linearTripCount? (h : linearTripCount? stride lower upper cmp = some t) :
    ∃ step : Int32, (∀ ρ : InstrId → ℤ, Evaluates ρ stride step.toInt) ∧
      ∃ kind count taken, t = guardedCount kind count taken ∧
        ∀ (ρ : InstrId → ℤ) (l u : Int32), Evaluates ρ lower l.toInt →
          Evaluates ρ upper u.toInt →
          ExactCount ρ kind count taken (cmp.holds · u.toInt) l.toInt step.toInt := by
  obtain ⟨step, hstep, hmoves, rfl⟩ := LoopView.linearTripCount?_eq_some h
  have hstride' (ρ : InstrId → ℤ) : Evaluates ρ stride step.toInt :=
    hstride.evaluates_of_always? ρ hstep
  refine ⟨step, hstride', _, _, _, rfl, ?_⟩
  intro ρ l u ⟨hdl, hl⟩ ⟨hdu, hu⟩
  set towards := orderedTest lower upper step.toInt cmp with htowards
  have hzero : towards.holds (value ρ lower) (value ρ upper) =
      cmp.holds (value ρ lower) (value ρ upper) := holds_zero_orderedTest hlower hupper
  have hentered : surelyHolds lower upper towards = true →
      towards.holds (value ρ lower) (value ρ upper) = true := holds_of_surelyHolds hlower hupper
  have hsame {N : ℕ} (hN : 1 ≤ N) (h : ∀ n : ℕ, towards.holds (value ρ lower + n * step.toInt)
      (value ρ upper) = true ↔ n < N) {n : ℕ} (hn : n ≤ N) :
      cmp.holds (value ρ lower + n * step.toInt) (value ρ upper) = true ↔ n < N :=
    holds_of_orderedTest hlower hupper hN h hn
  have hne : value ρ stride ≠ 0 := by
    rw [(hstride' ρ).2]
    rcases movesTowards_cases (u := 0) hmoves with ⟨h, -⟩ | ⟨h, -⟩
    · exact h.ne'
    · exact h.ne
  rw [hl, hu] at hzero hentered
  simp only [hl, hu] at hsame
  -- The number of members that pass is what the count evaluates to.
  have hcount (hpass : cmp.holds l.toInt u.toInt = true) :
      ∃ N : ℕ, 1 ≤ N ∧ Evaluates ρ (iterations lower upper stride step.toInt towards) N ∧
        ∀ n : ℕ, towards.holds (l.toInt + n * step.toInt) u.toInt = true ↔ n < N := by
    obtain ⟨N, hN, hquot, hmem⟩ := exists_count hmoves (hzero.trans hpass)
    refine ⟨N, hN, ⟨defined_iterations (hstride' ρ).1 hdl hdu hne, ?_⟩, hmem⟩
    rw [(termOf_iterations hlower hupper hstride (hstride' ρ).2 hmoves).2, hl, hu, hquot]
  refine ⟨?_, ?_, ?_, ?_⟩
  · refine ⟨_, towards, lower, upper, combine_testOperation towards lower upper,
      comparison?_testOperation hmoves, hdl, hdu, ?_⟩
    rw [hl, hu, hzero]
  · intro hkind
    rw [← hzero]
    exact hentered (by simpa using hkind)
  · intro hpass
    obtain ⟨N, hN, heval, hmem⟩ := hcount hpass
    refine ⟨N, hN, heval, fun n hn => (hsame hN hmem hn.le).mpr hn, ?_⟩
    rw [← Bool.not_eq_true, hsame hN hmem le_rfl]
    exact lt_irrefl N
  · intro hkind
    have hword (w : Int32) : -2 ^ 31 ≤ w.toInt ∧ w.toInt < 2 ^ 31 :=
      ⟨w.le_toInt, w.toInt_lt⟩
    refine ⟨hword l, ?_⟩
    intro hpass N heval n
    obtain ⟨M, -, heval', hmem⟩ := hcount hpass
    obtain rfl : N = M := Int.ofNat_inj.mp (heval.2.symm.trans heval'.2)
    induction n with
    | zero => simpa using hword l
    | succ n ih =>
      intro hn
      have := inRange_of_surelyFinite hupper (by simpa using hkind) hmoves (ih (by omega))
        (by rw [hu]; exact hword u) (by rw [hu]; exact (hmem n).mpr (by omega))
      push_cast
      rwa [add_mul, one_mul, ← add_assoc]

end Terms

/-- The trip count of a loop that goes on while `a cmp b` is exact, whichever of the two
sides is the linear sequence. -/
theorem exactCount_of_conditionTripCount? {a b t : Descriptor} {cmp : Comparison}
    (ha : a.WellFormed) (hb : b.WellFormed) (h : conditionTripCount? a b cmp = some t) :
    ∃ kind count taken stride lower upper, ∃ goesOn : ℤ → ℤ → Bool,
      t = guardedCount kind count taken ∧
      (a = linear stride lower ∧ b = upper ∧ (goesOn = fun u x => cmp.holds x u) ∨
        a = upper ∧ b = linear stride lower ∧ goesOn = fun u x => cmp.holds u x) ∧
      ∃ step : Int32, ∀ (ρ : InstrId → ℤ) (l u : Int32), Evaluates ρ lower l.toInt →
        Evaluates ρ upper u.toInt → Evaluates ρ stride step.toInt ∧
          ExactCount ρ kind count taken (goesOn u.toInt) l.toInt step.toInt := by
  have hparts {a b : Descriptor} (h : WellFormed (linear a b)) : IsTerm a ∧ IsTerm b := by
    cases h with
    | linear ha hb => exact ⟨ha, hb⟩
    | term h => cases h
  unfold conditionTripCount? at h
  split at h
  · rename_i stride lower
    split_ifs at h with hi
    obtain ⟨hstride, hlower⟩ := hparts ha
    obtain ⟨step, hstep, kind, count, taken, rfl, hexact⟩ :=
      exactCount_of_linearTripCount? hstride hlower (hb.isTerm hi) h
    refine ⟨kind, count, taken, stride, lower, b, _, rfl, .inl ⟨rfl, rfl, rfl⟩, step, ?_⟩
    exact fun ρ l u hl hu => ⟨hstep ρ, hexact ρ l u hl hu⟩
  · rename_i stride lower _
    split_ifs at h with hi
    rw [Bool.and_eq_true] at hi
    obtain ⟨hstride, hlower⟩ := hparts hb
    obtain ⟨step, hstep, kind, count, taken, rfl, hexact⟩ :=
      exactCount_of_linearTripCount? hstride hlower (ha.isTerm hi.1) h
    refine ⟨kind, count, taken, stride, lower, a, _, rfl, .inr ⟨rfl, rfl, rfl⟩, step, ?_⟩
    intro ρ l u hl hu
    have := hexact ρ l u hl hu
    simp only [Comparison.holds_swap] at this
    exact ⟨hstep ρ, this⟩
  · cases h

/-- A loop that falls by three from 100 while it stays above a fetched value of 10. -/
theorem exactCount_falling : ∃ kind count taken,
    conditionTripCount? (fetch ⟨7⟩) (linear (constant (-3)) (constant 100)) .lt =
      some (guardedCount kind count taken) ∧
    ExactCount (fun _ => 10) kind count taken (Comparison.lt.holds 10 ·) 100 (-3) := by
  have htrip : (conditionTripCount? (fetch ⟨7⟩) (linear (constant (-3)) (constant 100))
      .lt).isSome := by
    decide +kernel
  obtain ⟨t, ht⟩ := Option.isSome_iff_exists.mp htrip
  obtain ⟨kind, count, taken, stride, lower, upper, goesOn, rfl, hsides, step, hexact⟩ :=
    exactCount_of_conditionTripCount? (.term (.fetch _)) (.linear (.constant _) (.constant _)) ht
  rcases hsides with ⟨hfalse, -, -⟩ | ⟨rfl, heq, rfl⟩
  · cases hfalse
  · cases heq
    obtain ⟨⟨-, hstep⟩, hcount⟩ := hexact (fun _ => 10) 100 10 ⟨trivial, rfl⟩ ⟨trivial, rfl⟩
    rw [← show value (fun _ => (10 : ℤ)) (constant (-3)) = -3 from rfl, hstep]
    exact ⟨kind, count, taken, ht, hcount⟩

end Descriptor

end LoopBounds
