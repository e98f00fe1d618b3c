import LoopBounds.Proofs.Classify.Owned
import LoopBounds.Proofs.Listing.Hoisted
import LoopBounds.Proofs.Range.Recursion

/-!
# Queries end

The descriptors that a loop of a parsed function stores are well formed, or they are the trip
count, which holds only invariants. So no linear sequence stands in a trip count, and whatever
is asked about the function, evaluating the answer by plain recursion ends.
-/

namespace LoopBounds

open Descriptor

variable {f : Func} {l : LoopId} {x : InstrId} {d t : Descriptor}

/-- The value is there before the loop is entered, and it is not a constant. -/
def Func.Enters (f : Func) (l : LoopId) (y : InstrId) : Prop :=
  f.constant? y = none ∧
    (y ∈ f.params ∨ f.Listed y ∧ f.home y ∉ (f.flow.loopForest.get l).blocks)

/-- What the loop may store for `x`: a well-formed descriptor, or a trip count if `x` ends the
header, and either fetches only values that enter the loop. -/
structure Func.Stores (f : Func) (l : LoopId) (x : InstrId) (d : Descriptor) : Prop where
  shape : d.WellFormed ∨
    f.terminator? (f.flow.loopForest.get l).header = some x ∧ d.IsTripCount
  fetches : d.FetchesOnly (f.Enters l)

/-- Every evaluation that the query makes ends, and so does that of its taken test. -/
structure Query.Ends (q : Query) : Prop where
  bounds : Halts q.trip q.descriptor
  taken : ∀ t ∈ q.trip, ∀ test, t.taken? = some test → Halts none test

namespace Func

variable (hw : f.Writable) (hf : f.Linked)

include hw hf

/-- What a listed instruction can fetch enters the loop. -/
theorem Writable.supplied (hx : x ∈ (f.block (f.home x)).instrs) :
    (LoopView.mk f f.flow.loopForest l).Supplied (f.Enters l) x := by
  intro y hy hout hconst
  refine ⟨hconst, ?_⟩
  rcases hw.closed _ x hx y hy with ⟨v, hv⟩ | hmem
  · rw [constant?, hv] at hconst
    cases hconst
  · rcases mem_valueIds.mp hmem with hparam | ⟨b, hb⟩
    · exact .inl hparam
    · have hhome : f.home y = b := hf.home b y (List.mem_append_left _ hb)
      have hout := (LoopView.isOutside_eq_true_iff hf.flow.finished).mp hout
      refine .inr ⟨by rwa [Listed, hhome], hout.resolve_left ?_⟩
      simp [hf.not_isLeaf_of_mem_values hb]

theorem Writable.allFormed_classes :
    LoopView.AllFormed (f.Enters l) (LoopView.mk f f.flow.loopForest l).classes :=
  LoopView.allFormed_classes (fun _ _ => LoopView.owns_of_mem_deps hf)
    (fun _ => LoopView.owns_of_mem_members hf.flow.finished hf) fun _ hx => hw.supplied hf hx.listed

theorem Writable.supplied_control
    (hcontrol : f.terminator? (f.flow.loopForest.get l).header = some x) :
    ∀ c ∈ (f.instr x).operands, (LoopView.mk f f.flow.loopForest l).Supplied (f.Enters l) c := by
  intro c hc
  have hlisted : x ∈ (f.block (f.flow.loopForest.get l).header).instrs :=
    List.mem_append_right _ (Option.mem_toList.mpr hcontrol)
  rcases hf.operand _ x hlisted c hc with hleaf | hc
  · intro y hy
    cases hi : f.instr c with
    | constant | param =>
      rw [hi] at hy
      cases hy
    | _ =>
      rw [hi] at hleaf
      cases hleaf
  · exact hw.supplied hf (List.mem_append_left _ hc)

theorem Writable.isTripCount
    (hcontrol : f.terminator? (f.flow.loopForest.get l).header = some x)
    (h : (LoopView.mk f f.flow.loopForest l).tripCount?
      (LoopView.mk f f.flow.loopForest l).classes x = some t) :
    t.IsTripCount ∧ t.FetchesOnly (f.Enters l) :=
  (hw.allFormed_classes hf).tripCount? (hw.supplied_control hf hcontrol) h

theorem Writable.stores (h : (Analysis.ofFunc f).stored? l x = some d) : f.Stores l x d := by
  rw [Analysis.stored?, Analysis.classesOf_ofFunc (Analysis.lt_of_stored? h)] at h
  rcases LoopView.lookup_classesWithTripCount h with h | ⟨hcontrol, h⟩
  · have hd := hw.allFormed_classes hf _ h
    exact ⟨.inl hd.wellFormed, hd.fetches⟩
  · obtain ⟨ht, hfetches⟩ := hw.isTripCount hf hcontrol h
    exact ⟨.inr ⟨hcontrol, ht⟩, hfetches⟩

/-- The terminator of the header has no other descriptor than the trip count, which is that of a
test of two well-formed descriptors. -/
theorem Writable.exists_condition (h : (Analysis.ofFunc f).tripCount? f l = some t) :
    ∃ a b cmp, a.WellFormed ∧ b.WellFormed ∧ conditionTripCount? a b cmp = some t := by
  obtain ⟨control, hcontrol, h⟩ := Option.bind_eq_some_iff.mp h
  rw [Analysis.stored?, Analysis.classesOf_ofFunc (Analysis.lt_of_stored? h)] at h
  rcases LoopView.lookup_classesWithTripCount h with h | ⟨hcontrol, h⟩
  · have hvalue : (f.instr control).isTerminator = false := LoopView.valued_classes _ h
    rw [hf.terminator _ control hcontrol] at hvalue
    cases hvalue
  · obtain ⟨a, b, cmp, ha, hb, h⟩ :=
      (hw.allFormed_classes hf).exists_condition (hw.supplied_control hf hcontrol) h
    exact ⟨a, b, cmp, ha.wellFormed, hb.wellFormed, h⟩

theorem Writable.isTripCount_of_tripCount? (h : (Analysis.ofFunc f).tripCount? f l = some t) :
    t.IsTripCount := by
  obtain ⟨a, b, cmp, ha, hb, h⟩ := hw.exists_condition hf h
  exact isTripCount_of_conditionTripCount? ha hb h

theorem Writable.halts (l : LoopId) (d : Descriptor) :
    Halts ((Analysis.ofFunc f).tripCount? f l) d :=
  halts_of_linearFree (fun _ ht => (hw.isTripCount_of_tripCount? hf ht).linearFree) d

omit hw hf in
/-- In a parsed function all that is stored has its shape, no linear sequence stands in a trip
count, and every query about bounds, code or the taken test ends. -/
theorem stored_and_queries_of_parse {text : String} {fs : List Func} (h : parse text = .ok fs)
    (hmem : f ∈ fs) :
    (∀ l x d, (Analysis.ofFunc f).stored? l x = some d → f.Stores l x d) ∧
      (∀ l t, (Analysis.ofFunc f).tripCount? f l = some t → t.IsTripCount ∧ t.LinearFree) ∧
      (∀ context x q, (Analysis.ofFunc f).query? f context x = some q → q.Ends) ∧
      ∀ context test inBody, (Analysis.ofFunc f).takenTest? f context = some (test, inBody) →
        Halts none test := by
  have hw := writable_of_parse h hmem
  have hf := linked_of_parse h hmem
  have hfree (d : Descriptor) : Halts none d := halts_of_linearFree (by simp) d
  refine ⟨fun l x d => hw.stores hf, fun l t ht => ?_, fun context x q hq => ?_,
    fun _ test _ _ => hfree test⟩
  · have htrip := hw.isTripCount_of_tripCount? hf ht
    exact ⟨htrip, htrip.linearFree⟩
  · obtain ⟨⟨l, inBody⟩, -, hq⟩ := Option.bind_eq_some_iff.mp hq
    obtain ⟨d, -, hq⟩ := Option.bind_eq_some_iff.mp hq
    obtain rfl := Option.some.inj hq
    exact ⟨hw.halts hf l d, fun _ _ test _ => hfree test⟩

end Func

/-- The counter of `countingText` starts at zero and goes up by one. -/
def countingSequence : Descriptor := .linear (.constant 1) (.constant 0)

/-- The loop of `countingText` runs as often as the argument says, if that is positive. -/
def countingTrip : Descriptor :=
  .guardedCount ⟨true, false⟩ (.fetch ⟨0⟩) (.binary .lt (.constant 0) (.fetch ⟨0⟩))

/-- The counter's descriptor and the trip count have their shapes, and the query for the counter in
the body ends. -/
theorem counting_stored_and_queries : ∃ f, Func.parse countingText = .ok [f] ∧
    f.Stores ⟨0⟩ ⟨4⟩ countingSequence ∧ countingTrip.IsTripCount ∧
      Query.Ends ⟨countingSequence, some countingTrip, true⟩ := by
  obtain ⟨f, hparse, hstored, htrip, hquery⟩ := Func.exists_parsed (rfl : countingText = _)
    (P := fun f =>
      (Analysis.ofFunc f).stored? ⟨0⟩ ⟨4⟩ = some countingSequence ∧
      (Analysis.ofFunc f).tripCount? f ⟨0⟩ = some countingTrip ∧
      (Analysis.ofFunc f).query? f ⟨8⟩ ⟨4⟩ = some ⟨countingSequence, some countingTrip, true⟩)
    (by decide +kernel)
  obtain ⟨hstores, htrips, hends, -⟩ :=
    Func.stored_and_queries_of_parse hparse (List.mem_singleton_self f)
  exact ⟨f, hparse, hstores _ _ _ hstored, (htrips _ _ htrip).1, hends _ _ _ hquery⟩

end LoopBounds
