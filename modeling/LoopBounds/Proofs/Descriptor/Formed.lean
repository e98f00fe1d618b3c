import LoopBounds.Proofs.Descriptor.Fetched
import LoopBounds.Proofs.Descriptor.Transfer

/-!
# Well-formed descriptors

Arithmetic on well-formed descriptors gives well-formed descriptors, whatever is fetched, and
the trip count of a well-formed test is an invariant together with one comparison of two
invariants.
-/

namespace LoopBounds.Descriptor

variable {P : InstrId → Prop} {a b c d e x y : Descriptor}

/-- An invariant that fetches only what has the property. -/
structure TermOver (P : InstrId → Prop) (d : Descriptor) : Prop where
  isTerm : d.IsTerm
  fetches : d.FetchesOnly P

/-- A well-formed descriptor that fetches only what has the property. -/
structure FormedOver (P : InstrId → Prop) (d : Descriptor) : Prop where
  wellFormed : d.WellFormed
  fetches : d.FetchesOnly P

theorem TermOver.formed (h : d.TermOver P) : d.FormedOver P := ⟨.term h.isTerm, h.fetches⟩

theorem FormedOver.term (h : d.FormedOver P) (hi : d.isInvariant = true) : d.TermOver P :=
  ⟨h.wellFormed.isTerm hi, h.fetches⟩

theorem termOver_constant (v : Int32) : (constant v).TermOver P :=
  ⟨.constant v, fetchesOnly_constant v⟩

theorem termOver_fetch {z : InstrId} (hz : P z) : (fetch z).TermOver P :=
  ⟨.fetch z, fetchesOnly_fetch.mpr hz⟩

section Combine

-- The value of an invariant plays no part here, so any will do.
theorem IsTerm.sum (ha : a.IsTerm) (minus : Bool) (hb : b.IsTerm) :
    (combine (sumOp minus) (some a) b).IsTerm :=
  (termOf_sum (ρ := fun _ => (0 : ℤ)) ha minus hb).1

theorem IsTerm.negated (hb : b.IsTerm) : (combine .neg none b).IsTerm :=
  (termOf_combineNeg (ρ := fun _ => (0 : ℤ)) hb).1

theorem IsTerm.quotient (ha : a.IsTerm) (hb : b.IsTerm) : (combine .div (some a) b).IsTerm :=
  (termOf_combineDiv (ρ := fun _ => (0 : ℤ)) ha hb).1

theorem TermOver.sum (ha : a.TermOver P) (minus : Bool) (hb : b.TermOver P) :
    (combine (sumOp minus) (some a) b).TermOver P :=
  ⟨ha.isTerm.sum minus hb.isTerm, ha.fetches.combine _ hb.fetches⟩

theorem TermOver.negated (hb : b.TermOver P) : (combine .neg none b).TermOver P :=
  ⟨hb.isTerm.negated, hb.fetches.combineNeg⟩

theorem TermOver.quotient (ha : a.TermOver P) (hb : b.TermOver P) :
    (combine .div (some a) b).TermOver P :=
  ⟨ha.isTerm.quotient hb.isTerm, ha.fetches.combine _ hb.fetches⟩

end Combine

section Arithmetic

theorem FormedOver.neg? (hd : d.FormedOver P) (h : neg? d = some e) : e.FormedOver P :=
  ⟨((neg?_actsAs (ρ := fun _ => (0 : ℤ))).sound hd.wellFormed h).1, hd.fetches.neg? h⟩

theorem FormedOver.sum? {minus : Bool} (hx : x.FormedOver P) (hy : y.FormedOver P)
    (h : sum? minus x y = some e) : e.FormedOver P :=
  ⟨(resultOf_sum? (ρ := fun _ => (0 : ℤ)) hx.wellFormed hy.wellFormed minus h).1,
    hx.fetches.sum? hy.fetches h⟩

theorem FormedOver.mul? (hx : x.FormedOver P) (hy : y.FormedOver P) (h : mul? x y = some e) :
    e.FormedOver P :=
  ⟨(resultOf_mul? (ρ := fun _ => (0 : ℤ)) hx.wellFormed hy.wellFormed h).1,
    hx.fetches.mul? hy.fetches h⟩

theorem FormedOver.div? (hx : x.FormedOver P) (hy : y.FormedOver P) (h : div? x y = some e) :
    e.FormedOver P :=
  ⟨(resultOf_div? (ρ := fun _ => (0 : ℤ)) hx.wellFormed hy.wellFormed h).1,
    hx.fetches.div? hy.fetches h⟩

theorem FormedOver.shl? {k : ℤ} (hx : x.FormedOver P) (h : shl? x k = some e) :
    e.FormedOver P :=
  ⟨(shl?_sound (ρ := fun _ => (0 : ℤ)) hx.wellFormed h).2.1, hx.fetches.shl? h⟩

end Arithmetic

section Sequences

theorem formedOver_linear (ha : a.TermOver P) (hb : b.TermOver P) : (linear a b).FormedOver P :=
  ⟨.linear ha.isTerm hb.isTerm, fetchesOnly_linear.mpr ⟨ha.fetches, hb.fetches⟩⟩

theorem formedOver_wrapAround (ha : a.TermOver P) (hb : b.FormedOver P) :
    (wrapAround a b).FormedOver P :=
  ⟨.wrapAround ha.isTerm hb.wellFormed, fetchesOnly_wrapAround.mpr ⟨ha.fetches, hb.fetches⟩⟩

theorem WellFormed.isTerm_of_mem_members (h : d.WellFormed) (hd : d.isPeriodic = true) :
    ∀ m ∈ d.members, m.IsTerm := by
  cases h with
  | periodic hm => exact hm
  | term h => cases h <;> cases hd
  | _ => cases hd

theorem formedOver_periodic (ha : a.TermOver P) (hb : b.FormedOver P)
    (hi : b.isInvariant = true ∨ b.isPeriodic = true) : (periodic a b).FormedOver P := by
  have hmembers : ∀ m ∈ b.members, m.IsTerm := by
    rcases hi with hi | hi
    · have hterm := hb.wellFormed.isTerm hi
      rw [hterm.members_eq]
      simpa using hterm
    · exact hb.wellFormed.isTerm_of_mem_members hi
  exact ⟨.periodic (List.forall_mem_cons.mpr ⟨ha.isTerm, hmembers⟩),
    fetchesOnly_periodic.mpr ⟨ha.fetches, hb.fetches⟩⟩

end Sequences

section TripCount

/-- The number of iterations is an invariant, and the loop is entered if one invariant compares
with another. -/
def IsTripCount (d : Descriptor) : Prop :=
  ∃ kind count op lower upper, d = guardedCount kind count (binary op lower upper) ∧
    op ∈ [Operation.lt, .le, .gt, .ge] ∧ count.IsTerm ∧ lower.IsTerm ∧ upper.IsTerm

variable {lower upper stride : Descriptor} (hl : lower.IsTerm) (hu : upper.IsTerm)
variable (hs : stride.IsTerm) {cmp : Comparison}

include hu

theorem IsTerm.inclusiveLimit (cmp : Comparison) : (inclusiveLimit upper cmp).IsTerm := by
  cases cmp with
  | lt => exact hu.sum true (.constant 1)
  | gt => exact hu.sum false (.constant 1)
  | _ => exact hu

include hl hs

theorem IsTerm.iterations (step : ℤ) (cmp : Comparison) :
    (iterations lower upper stride step cmp).IsTerm := by
  unfold Descriptor.iterations
  refine IsTerm.quotient (IsTerm.sum ?_ true hl) hs
  split_ifs
  · exact hu
  · exact (hu.inclusiveLimit cmp).sum false hs

theorem isTripCount_of_linearTripCount? (h : linearTripCount? stride lower upper cmp = some d) :
    d.IsTripCount := by
  obtain ⟨step, -, h⟩ := Option.bind_eq_some_iff.mp h
  dsimp only at h
  split_ifs at h
  obtain rfl := Option.some.inj h
  generalize orderedTest lower upper step.toInt cmp = test
  have htest : combine (testOperation test) (some lower) upper =
      binary (testOperation test) lower upper := by cases test <;> rfl
  rw [tripCountOf, htest]
  exact ⟨_, _, _, _, _, rfl, by cases test <;> decide, IsTerm.iterations hl hu hs _ _, hl, hu⟩

omit hl hu hs in
theorem isTripCount_of_conditionTripCount? (ha : a.WellFormed) (hb : b.WellFormed)
    (h : conditionTripCount? a b cmp = some d) : d.IsTripCount := by
  unfold conditionTripCount? at h
  split at h
  · split_ifs at h with hi
    cases ha with
    | term ha => cases ha
    | linear hs hl => exact isTripCount_of_linearTripCount? hl (hb.isTerm hi) hs h
  · split_ifs at h with hi
    rw [Bool.and_eq_true] at hi
    cases hb with
    | term hb => cases hb
    | linear hs hl => exact isTripCount_of_linearTripCount? hl (ha.isTerm hi.1) hs h
  · cases h

end TripCount

end LoopBounds.Descriptor
