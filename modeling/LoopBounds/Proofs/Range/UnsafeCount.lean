import LoopBounds.Proofs.Range.Canonical
import LoopBounds.Proofs.Range.Termination

/-!
# Ranges without a finite test

A count that may be wrong because the loop's variable leaves the word range is read only in the
bounds of linear sequences, and for these the range asks for a finite test. The one other place
that reads a count is the bound of a fetched value that is the count itself, but a count which
needs the finite test is always an operation: simplification does not bring it down to a fetched
value.
-/

namespace LoopBounds

namespace Descriptor

variable {a b c d t count lower upper stride : Descriptor} {cmp : Comparison} {inBody : Bool}
variable {kind : TripKind} {step : Int32}

section LinearFree

theorem linearFree_of_members (h : ∀ m ∈ d.members, m.IsTerm) : d.LinearFree := by
  induction d with
  | periodic a b _ ih =>
    refine ⟨(h a List.mem_cons_self).linearFree, ih ?_⟩
    intro m hm
    exact h m (List.mem_cons_of_mem a hm)
  | _ => exact (h _ (List.mem_singleton_self _)).linearFree

theorem WellFormed.linearFree (h : d.WellFormed) (hd : d.needsTripCount = false) :
    d.LinearFree := by
  induction h with
  | term h => exact h.linearFree
  | linear => cases hd
  | periodic h => exact linearFree_of_members h
  | wrapAround ha _ ih => exact ⟨ha.linearFree, ih hd⟩

theorem LinearFree.boundsWith_congr (h : d.LinearFree) (fetched : InstrId → Interval)
    (linears linears' : Descriptor → Descriptor → Interval → Interval → Interval) :
    d.boundsWith inBody fetched linears = d.boundsWith inBody fetched linears' := by
  induction d with
  | constant v => rfl
  | fetch x => rfl
  | unary op b ih => cases op <;> simp only [boundsWith, ih h]
  | binary op a b iha ihb => cases op <;> simp only [boundsWith, iha h.1, ihb h.2]
  | linear a b => exact h.elim
  | periodic a b iha ihb => rw [boundsWith, boundsWith, iha h.1, ihb h.2]
  | wrapAround a b iha ihb => rw [boundsWith, boundsWith, iha h.1, ihb h.2]
  | tripCount kind count ih => rw [boundsWith, boundsWith, ih h]
  | guardedCount kind count taken ih => rw [boundsWith, boundsWith, ih h.1]

/-- A count that is not fetched itself has no part in bounds without a linear sequence. -/
theorem LinearFree.bounds_eq (h : d.LinearFree) (hcount : t.count? = some count)
    (hfetch : count.asFetch? = none) : d.bounds (some t) inBody = d.bounds none inBody := by
  have hfetched : fetchBounds (some t) inBody = fetchBounds none inBody := by
    funext x
    rw [fetchBounds_of_not_fetch hcount hfetch, fetchBounds_none]
  rw [bounds, hfetched]
  exact h.boundsWith_congr _ _ _

end LinearFree

section Shape

/-- The descriptor is `a`, or a sum or a difference with `a` on the left. -/
def StartsWith (a d : Descriptor) : Prop :=
  d = a ∨ ∃ op c, (op = Operation.add ∨ op = .sub) ∧ d = binary op a c

theorem startsWith_operation (a : Descriptor) (minus : Bool) (b : Descriptor) :
    StartsWith a (operation (if minus then .sub else .add) (some a) b) := by
  cases minus with
  | true => exact .inr ⟨.sub, b, .inr rfl, rfl⟩
  | false => exact .inr ⟨.add, b, .inl rfl, rfl⟩

theorem StartsWith.asFetch? {x y : Descriptor} (h : StartsWith (binary .add x y) d) :
    d.asFetch? = none := by
  rcases h with rfl | ⟨op, c, -, rfl⟩ <;> rfl

theorem startsWith_sum_cases (ha : a.always? ≠ some 0) (minus : Bool) (b : Descriptor)
    {e : Descriptor} (he : StartsWith a e) :
    StartsWith a (if !minus && a.always? = some 0 then b
      else match b.always? with
        | some c => if c = 0 then a
            else operation (if minus then .sub else .add) (some a) b
        | none => e) := by
  rw [decide_eq_false ha, Bool.and_false]
  split
  · contradiction
  · split
    · split
      · exact .inl rfl
      · exact startsWith_operation a minus b
    · exact he

theorem startsWith_combineSum (ha : a.always? ≠ some 0) (minus : Bool) (b : Descriptor) :
    StartsWith a (combineSum minus (some a) b) := by
  -- The recursion goes down negations only; every other right operand stays whole.
  induction b generalizing minus with
  | unary op inner ih =>
    unfold combineSum
    apply startsWith_sum_cases ha
    split
    · rename_i heq
      cases heq
      exact ih _
    · rename_i heq
      cases heq
    · exact startsWith_operation a minus _
  | binary op x inner _ ih =>
    unfold combineSum
    apply startsWith_sum_cases ha
    split
    · rename_i heq
      cases heq
    · rename_i heq
      cases heq
      exact ih _
    · exact startsWith_operation a minus _
  | _ =>
    unfold combineSum
    exact startsWith_sum_cases ha minus _ (startsWith_operation a minus _)

theorem combineSum_of_sum {x y : Descriptor} (h : (binary .add x y).always? ≠ some 0) :
    combineSum true (some c) (binary .add x y) = binary .sub c (binary .add x y) := by
  unfold combineSum
  dsimp only
  rw [Bool.not_true, Bool.false_and, if_neg Bool.false_ne_true]
  split
  · rename_i k hk
    rw [if_neg]
    · rfl
    · rintro rfl
      exact h hk
  · rfl

theorem asFetch?_combineNeg {x y : Descriptor} (h : (binary .add x y).always? ≠ some 0)
    (hd : StartsWith (binary .add x y) d) : (combineNeg none d).asFetch? = none := by
  have hsum (x y : Descriptor) : (combineNeg none (binary .add x y)).asFetch? = none := by
    unfold combineNeg
    dsimp only [negated?]
    split
    · split <;> rfl
    · contradiction
    · rfl
  rcases hd with rfl | ⟨op, c, rfl | rfl, rfl⟩
  · exact hsum x y
  · exact hsum _ c
  · rw [combineNeg, combineSum_of_sum h]
    rfl

end Shape

section Iterations

/-- A loop that moves by one up to a limit next to zero ends in time. -/
theorem surelyFinite_of_near_zero {v : Int32} (hupper : upper.Sole (.constant v))
    (hv : -1 ≤ v.toInt ∧ v.toInt ≤ 1) (hunit : step = 1 ∨ step = -1)
    (hmoves : movesTowards step.toInt cmp = true) : surelyFinite upper step.toInt cmp = true := by
  have hmost : upper.atMost? = some v := by rw [atMost?, hupper.constantBounds?_eq, Option.map_some]
  have hleast : upper.atLeast? = some v := by
    rw [atLeast?, hupper.constantBounds?_eq, Option.map_some]
  rcases hunit with rfl | rfl
  · cases cmp with
    | lt => rfl
    | le =>
      simp only [surelyFinite, hmost, Option.any_some, decide_eq_true_eq, Int32.toInt_maxValue,
        Int32.toInt_one]
      omega
    | _ => cases hmoves
  · cases cmp with
    | gt => rfl
    | ge =>
      simp only [surelyFinite, hleast, Option.any_some, decide_eq_true_eq, Int32.toInt_minValue]
      rw [show (-1 : Int32).toInt = -1 from rfl]
      omega
    | _ => cases hmoves

variable (hupper : upper.IsTerm) (hstride : stride.IsTerm) (hstep : stride.always? = some step)
variable (hmoves : movesTowards step.toInt cmp = true)
variable (hneeds : surelyFinite upper step.toInt cmp = false)

include hupper hmoves hneeds

theorem always?_limit_ne_zero (hunit : step = 1 ∨ step = -1) : upper.always? ≠ some 0 := by
  intro h
  obtain ⟨u, hu⟩ := hupper.allInvariant.exists_sole
  obtain rfl := hu.eq_constant h
  rw [surelyFinite_of_near_zero hu (by decide) hunit hmoves] at hneeds
  cases hneeds

include hstride hstep

theorem always?_sum_ne_zero (hunit : step = 1 ∨ step = -1) :
    (binary .add upper stride).always? ≠ some 0 := by
  intro h
  obtain ⟨u, hu⟩ := hupper.allInvariant.exists_sole
  obtain ⟨s, hs⟩ := hstride.allInvariant.exists_sole
  obtain rfl := hs.eq_constant hstep
  obtain ⟨v, rfl, hv⟩ := hu.canonical.of_add_constant ((hu.add hs).eq_constant h)
  rw [surelyFinite_of_near_zero hu ?_ hunit hmoves] at hneeds
  · cases hneeds
  · rw [Int32.toInt_zero] at hv
    rcases hunit with rfl | rfl
    · rw [Int32.toInt_one] at hv
      omega
    · rw [show (-1 : Int32).toInt = -1 from rfl] at hv
      omega

omit hupper hstride hstep in
/-- A strict test that moves by one needs no finite test. -/
theorem not_strict (hunit : step = 1 ∨ step = -1) : cmp ≠ .lt ∧ cmp ≠ .gt := by
  constructor
  · rintro rfl
    rcases hunit with rfl | rfl
    · cases hneeds
    · cases hmoves
  · rintro rfl
    rcases hunit with rfl | rfl
    · cases hmoves
    · cases hneeds

/-- A count that needs the finite test is not a fetched value. -/
theorem asFetch?_iterations (lower : Descriptor) :
    (iterations lower upper stride step.toInt cmp).asFetch? = none := by
  unfold iterations
  dsimp only [combine]
  by_cases hunit : step = 1 ∨ step = -1
  · obtain ⟨hlt, hgt⟩ := not_strict hmoves hneeds hunit
    have hinclusive : inclusiveLimit upper cmp = upper := by
      cases cmp with
      | lt => exact absurd rfl hlt
      | gt => exact absurd rfl hgt
      | _ => rfl
    have hlimit : combineSum false (some upper) stride = binary .add upper stride := by
      have hnonzero : step ≠ 0 := by rcases hunit with rfl | rfl <;> decide
      have hleft := always?_limit_ne_zero hupper hmoves hneeds hunit
      unfold combineSum
      simp [hleft, hstep, hnonzero, operation]
    have hne := always?_sum_ne_zero hupper hstride hstep hmoves hneeds hunit
    have hstarts := startsWith_combineSum hne true lower
    rw [if_neg (by simp [hlt, hgt]), hinclusive, hlimit, combineDiv, hstep]
    rcases hunit with rfl | rfl
    · rw [if_pos rfl, Option.getD_some]
      exact hstarts.asFetch?
    · rw [if_neg (by decide), if_pos rfl, Option.getD_some]
      exact asFetch?_combineNeg hne hstarts
  · obtain ⟨hone, hminus⟩ := not_or.mp hunit
    rw [combineDiv, hstep, if_neg (by simpa using hone), if_neg (by simpa using hminus)]
    rfl

end Iterations

section TripCount

theorem asFetch?_of_linearTripCount? (hupper : upper.IsTerm) (hstride : stride.IsTerm)
    (h : linearTripCount? stride lower upper cmp = some t)
    (hneeds : t.tripKind?.any TripKind.needsFinite = true) :
    ∃ count, t.count? = some count ∧ count.asFetch? = none := by
  obtain ⟨step, hstep, hmoves, rfl⟩ := LoopView.linearTripCount?_eq_some h
  refine ⟨_, rfl, asFetch?_iterations hupper hstride hstep hmoves ?_ lower⟩
  simpa [tripCountOf, tripKind?] using hneeds

theorem asFetch?_of_conditionTripCount? (ha : a.WellFormed) (hb : b.WellFormed)
    (h : conditionTripCount? a b cmp = some t)
    (hneeds : t.tripKind?.any TripKind.needsFinite = true) :
    ∃ count, t.count? = some count ∧ count.asFetch? = none := by
  unfold conditionTripCount? at h
  split at h
  · split_ifs at h with hi
    cases ha with
    | term ha => cases ha
    | linear hs _ => exact asFetch?_of_linearTripCount? (hb.isTerm hi) hs h hneeds
  · split_ifs at h with hi
    rw [Bool.and_eq_true] at hi
    cases hb with
    | term hb => cases hb
    | linear hs _ => exact asFetch?_of_linearTripCount? (ha.isTerm hi.1) hs h hneeds
  · cases h

end TripCount

end Descriptor

open Descriptor

namespace Func

variable {f : Func} {l : LoopId} {x context : InstrId} {d t : Descriptor} {inBody : Bool}
variable (hw : f.Writable) (hf : f.Linked)

include hw hf

/-- The descriptor of a value has no linear sequence in it, if it does not end in one. -/
theorem Writable.linearFree_of_lookup (h : (Analysis.ofFunc f).lookup f l x = some d)
    (hd : d.needsTripCount = false) : d.LinearFree := by
  unfold Analysis.lookup at h
  split at h
  · rename_i e he
    obtain rfl := Option.some.inj h
    rcases (hw.stores hf he).shape with hwell | ⟨-, htrip⟩
    · exact hwell.linearFree hd
    · exact htrip.linearFree
  · split_ifs at h
    obtain rfl := Option.some.inj h
    unfold fetch
    split <;> trivial

omit hw hf in
/-- In a loop whose trip count needs the finite test, a range that does not need it is what the
descriptor gives without any trip count, and with any other count that needs the finite test. -/
theorem bounds_of_unsafe_tripCount {text : String} {fs : List Func} (h : parse text = .ok fs)
    (hmem : f ∈ fs) (hcontext : (Analysis.ofFunc f).contextLoop? f context = some (l, inBody))
    (htrip : (Analysis.ofFunc f).tripCount? f l = some t)
    (hneeds : t.tripKind?.any TripKind.needsFinite = true) {r : ValueRange}
    (hr : (Analysis.ofFunc f).range? f context x = some r) (hfinite : r.needsFiniteTest = false) :
    ∃ d, (Analysis.ofFunc f).lookup f l x = some d ∧ r.bounds = d.bounds none inBody ∧
      ∀ a b cmp t', a.WellFormed → b.WellFormed → conditionTripCount? a b cmp = some t' →
        t'.tripKind?.any TripKind.needsFinite = true → r.bounds = d.bounds (some t') inBody := by
  have hw := writable_of_parse h hmem
  have hf := linked_of_parse h hmem
  obtain ⟨q, hq, rfl⟩ := Option.map_eq_some_iff.mp hr
  simp only [Analysis.query?, hcontext, htrip, bind, Option.bind_some, Option.bind_eq_some_iff,
    pure, Option.some.injEq] at hq
  obtain ⟨d, hd, rfl⟩ := hq
  have hindependent : d.needsTripCount = false := by
    simpa [Query.range, Query.needsFinite, hneeds] using hfinite
  have hfree := hw.linearFree_of_lookup hf hd hindependent
  have hother (a b : Descriptor) (cmp : Comparison) (t' : Descriptor) (ha : a.WellFormed)
      (hb : b.WellFormed) (h : conditionTripCount? a b cmp = some t')
      (hneeds : t'.tripKind?.any TripKind.needsFinite = true) :
      d.bounds (some t') inBody = d.bounds none inBody := by
    obtain ⟨count, hcount, hfetch⟩ := asFetch?_of_conditionTripCount? ha hb h hneeds
    exact hfree.bounds_eq hcount hfetch
  obtain ⟨a, b, cmp, ha, hb, htest⟩ := hw.exists_condition hf htrip
  have hbounds : d.bounds (some t) inBody = d.bounds none inBody :=
    hother a b cmp t ha hb htest hneeds
  refine ⟨d, hd, hbounds, ?_⟩
  intro a b cmp t' ha hb h hneeds
  exact hbounds.trans (hother a b cmp t' ha hb h hneeds).symm

end Func

/-- A loop that counts up to the argument and includes it. -/
def uptoText : String :=
  "define i32 @upto(i32 %n) \x7b
entry:
  br label %header
header:
  %i = phi i32 [ 0, %entry ], [ %next, %body ]
  %test = icmp sle i32 %i, %n
  br i1 %test, label %body, label %exit
body:
  %same = add i32 %n, 0
  %next = add i32 %i, 1
  br label %header
exit:
  ret i32 %i
\x7d
"

/-- If the argument is the greatest word, the loop does not end, and `%n + 1` is not its count. The
range of `%same` is the argument all the same. -/
theorem upto_bounds :
    let t := guardedCount ⟨true, true⟩ (binary .add (fetch ⟨0⟩) (constant 1))
      (binary .le (constant 0) (fetch ⟨0⟩))
    ∃ f d r, Func.parse uptoText = .ok [f] ∧ (Analysis.ofFunc f).tripCount? f ⟨0⟩ = some t ∧
      (Analysis.ofFunc f).range? f ⟨9⟩ ⟨7⟩ = some r ∧ r.bounds = .exactly (.ofInstr ⟨0⟩ 1 0) ∧
      (Analysis.ofFunc f).lookup f ⟨0⟩ ⟨7⟩ = some d ∧ r.bounds = d.bounds none true := by
  intro t
  obtain ⟨f, hparse, hcontext, htrip, hrange⟩ := Func.exists_parsed (rfl : uptoText = _)
    (P := fun f => (Analysis.ofFunc f).contextLoop? f ⟨9⟩ = some (⟨0⟩, true) ∧
      (Analysis.ofFunc f).tripCount? f ⟨0⟩ = some t ∧
      (Analysis.ofFunc f).range? f ⟨9⟩ ⟨7⟩ = some ⟨.exactly (.ofInstr ⟨0⟩ 1 0), false⟩)
    (by decide +kernel)
  obtain ⟨d, hd, hbounds, -⟩ := Func.bounds_of_unsafe_tripCount hparse
    (List.mem_singleton_self f) hcontext htrip rfl hrange rfl
  exact ⟨f, d, _, hparse, htrip, hrange, rfl, hd, hbounds⟩

end LoopBounds
