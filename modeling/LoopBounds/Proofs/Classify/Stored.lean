import LoopBounds.Classify.Analysis
import LoopBounds.Proofs.Classify.Classes

/-!
# What an analysis stores

For each loop an analysis stores the descriptors of the values of the loop and, under the
terminator of its header, the trip count. An instruction that is executed in a loop where
its descriptor is stored has the value that the descriptor gives to the iteration.
-/

namespace LoopBounds

section Executed

variable {f : Func} {s s' : State} (hf : f.Valid) (hs : f.Placed s)

include hf hs

theorem Func.Placed.home_of_executed (h : f.step? s = some s') {x : InstrId}
    (hx : x ∈ f.executed s s') : f.home x = s'.here ∧ x ∉ s'.rest := by
  rcases step_cases h with ⟨z, rest, v, hrest, hz, -, he, rfl⟩ | ⟨z, rest, c, -, -, -, he, rfl⟩
  · obtain rfl : x = z := by simpa [he] using hx
    have hbody := hs.mem_body_of_not_isTerminator hf hrest hz
    refine ⟨hf.home _ x (List.mem_append_left _ (List.mem_append_right _ hbody)), ?_⟩
    obtain ⟨done, heq⟩ := hs.instrs_eq
    have hnodup := hf.nodup s.here
    rw [heq, hrest] at hnodup
    exact (List.nodup_cons.mp (List.nodup_append.mp hnodup).2.1).1
  · rw [he] at hx
    refine ⟨hf.home_of_mem_phis hx, ?_⟩
    intro hmem
    have hnodup := hf.nodup c
    rw [Block.instrs, List.append_assoc] at hnodup
    exact (List.nodup_append.mp hnodup).2.2 x hx x hmem rfl

theorem Func.Placed.current_of_executed (l : Loop) (h : f.step? s = some s') {x : InstrId}
    (hx : x ∈ f.executed s s') : l.Current f s' x :=
  .inl (hs.home_of_executed hf h hx)

end Executed

namespace LoopView

variable {v : LoopView} {x : InstrId} {d : Descriptor}

theorem lookup_classesWithTripCount (h : v.classesWithTripCount.lookup x = some d) :
    (x, d) ∈ v.classes ∨
      (v.func.terminator? v.header = some x ∧ v.tripCount? v.classes x = some d) := by
  unfold classesWithTripCount at h
  dsimp only at h
  split at h
  · exact .inl (Setting.mem_of_lookup h)
  · rename_i control hcontrol
    split at h
    · rename_i trip htrip
      rcases List.mem_cons.mp (Setting.mem_of_lookup h) with heq | hmem
      · obtain ⟨rfl, rfl⟩ := Prod.mk.inj heq
        exact .inr ⟨hcontrol, htrip⟩
      · exact .inl hmem
    · exact .inl (Setting.mem_of_lookup h)

theorem tripCount?_eq_some {known : Classes} (h : v.tripCount? known x = some d) :
    ∃ a b cmp, v.control? known x = some (a, b, cmp) ∧ ∃ stride lower upper,
      upper.isInvariant = true ∧
      ((a = .linear stride lower ∧ b = upper ∧
          Descriptor.linearTripCount? stride lower upper cmp = some d) ∨
        (a = upper ∧ b = .linear stride lower ∧
          Descriptor.linearTripCount? stride lower upper cmp.swap = some d)) := by
  unfold tripCount? at h
  obtain ⟨⟨a, b, cmp⟩, hcontrol, h⟩ := Option.bind_eq_some_iff.mp h
  refine ⟨a, b, cmp, hcontrol, ?_⟩
  dsimp only at h
  unfold Descriptor.conditionTripCount? at h
  split at h
  · split_ifs at h with hi
    exact ⟨_, _, _, hi, .inl ⟨rfl, rfl, h⟩⟩
  · split_ifs at h with hi
    exact ⟨_, _, _, (Bool.and_eq_true _ _ ▸ hi).1, .inr ⟨rfl, rfl, h⟩⟩
  · cases h

theorem linearTripCount?_eq_some {stride lower upper : Descriptor} {cmp : Comparison}
    (h : Descriptor.linearTripCount? stride lower upper cmp = some d) :
    ∃ step, stride.always? = some step ∧
      Descriptor.movesTowards step.toInt
        (Descriptor.orderedTest lower upper step.toInt cmp) = true ∧
      d = Descriptor.tripCountOf lower upper stride step.toInt
        (Descriptor.orderedTest lower upper step.toInt cmp) := by
  obtain ⟨step, hstep, h⟩ := Option.bind_eq_some_iff.mp h
  dsimp only at h
  split_ifs at h with hmoves
  exact ⟨step, hstep, hmoves, (Option.some.inj h).symm⟩

theorem tripKind?_of_tripCount? {known : Classes} (h : v.tripCount? known x = some d) :
    d.tripKind?.isSome = true := by
  obtain ⟨a, b, cmp, -, stride, lower, upper, -, h⟩ := tripCount?_eq_some h
  rcases h with ⟨-, -, h⟩ | ⟨-, -, h⟩
  all_goals
    obtain ⟨step, -, -, rfl⟩ := linearTripCount?_eq_some h
    rfl

end LoopView

namespace Analysis

variable {f : Func} {l : LoopId} {x : InstrId} {d : Descriptor}

theorem classesOf_ofFunc (hl : l.index < f.flow.loopForest.loops.size) :
    (ofFunc f).classesOf l = (LoopView.mk f f.flow.loopForest l).classesWithTripCount := by
  have hid : f.flow.loopForest.ids[l.index]? = some l := by
    simp [LoopForest.ids, hl]
  simp [classesOf, ofFunc, run, prepare, hid]

theorem lt_of_stored? (h : (ofFunc f).stored? l x = some d) :
    l.index < f.flow.loopForest.loops.size := by
  by_contra hl
  have : (ofFunc f).classesOf l = [] := by
    simp [classesOf, ofFunc, run, prepare, LoopForest.ids, Nat.le_of_not_lt hl]
  rw [stored?, this] at h
  cases h

end Analysis

namespace Setting

variable {R : Type} [Arithmetic R] {S : Setting R} {ahead : Option ℕ} {x : InstrId} {d : Descriptor}

theorem classified_or_trip (hl : S.id.index < S.func.flow.loopForest.loops.size)
    (h : (Analysis.ofFunc S.func).stored? S.id x = some d) :
    S.Classified (S.view.ahead x) x d ∨ (S.func.terminator? S.loop.header = some x ∧
      S.view.tripCount? S.view.classes x = some d) := by
  rw [Analysis.stored?, Analysis.classesOf_ofFunc hl] at h
  exact (LoopView.lookup_classesWithTripCount h).imp_left fun h => sound_classes x d h

/-- An instruction with a descriptor has the value that the descriptor gives to the
iteration in which it is executed. -/
theorem Classified.describes_of_executed (hd : S.Classified ahead x d) {s s' : State}
    (hs : S.Run s) (hallowed : S.allowed s) (h : S.func.step? s = some s')
    (hx : x ∈ S.func.executed s s') {ρ : InstrId → R} (hρ : S.Fetches s' ρ) :
    d.Describes ahead ρ (S.iteration s') (s'.reading R x) := by
  obtain ⟨hhome, -⟩ := hs.placed.home_of_executed S.valid h hx
  have hin := (isOutside_eq_false_iff.mp (not_isOutside_of_isMember hd.member)).2
  exact hd.follows s' (hs.step hallowed h) (hhome ▸ hin)
    (hs.placed.current_of_executed S.valid S.loop h hx) ρ hρ

end Setting

end LoopBounds
