import LoopBounds.Range.Query
import LoopBounds.Proofs.Classify.Test

/-!
# Questions at the end of a block

A range is asked for at the terminator of a block in a loop. When control is there, the value
asked for is what its descriptor gives to the iteration, and the trip count that is used
comes from the test of the header.
-/

namespace LoopBounds

namespace Setting

open Descriptor

variable {R : Type} [Arithmetic R] {S : Setting R} {s : State} {x context : InstrId}
variable {rest : List InstrId} {d : Descriptor}

/-- Control is at the terminator of a block of the loop. -/
structure AtEnd (S : Setting R) (s : State) (context : InstrId) : Prop where
  run : S.Run s
  here : s.here ∈ S.loop.blocks
  rest : ∃ rest, s.rest = context :: rest
  terminator : (S.func.instr context).isTerminator = true

theorem atEnd_of_isTerminator (S : Setting R) (hs : S.Run s) (hrest : s.rest = context :: rest)
    (hcontext : (S.func.instr context).isTerminator = true)
    (hmem : S.func.home context ∈ S.loop.blocks) :
    S.func.home context = s.here ∧ S.AtEnd s context := by
  have hterm := (hs.placed.rest_of_isTerminator S.valid hrest hcontext).2
  have hhome : S.func.home context = s.here :=
    S.valid.home _ context (List.mem_append_right _ (by simp [hterm]))
  exact ⟨hhome, hs, hhome ▸ hmem, ⟨rest, hrest⟩, hcontext⟩

theorem not_terminator_of_availableAtEnd {f : Func} (hf : f.Valid) {b b' : BlockId}
    (hx : f.AvailableAtEnd b x) : (f.block b').terminator ≠ some x := by
  intro hterm
  have hx' := hf.terminator b' x hterm
  rcases hx with hleaf | ⟨hlisted, -⟩
  · rw [Instr.not_isLeaf_of_isTerminator hx'] at hleaf
    cases hleaf
  · rw [hf.not_isTerminator_of_mem_values hlisted] at hx'
    cases hx'

/-- A value that is there at the end of a block is what its descriptor gives to the
iteration. -/
theorem AtEnd.describes (hs : S.AtEnd s context)
    (hl : S.id.index < S.func.flow.loopForest.loops.size)
    (hx : S.func.AvailableAtEnd s.here x)
    (hd : (Analysis.ofFunc S.func).lookup S.func S.id x = some d) :
    d.WellFormed ∧ ∀ ρ, S.Fetches s ρ → d.Describes none ρ (S.iteration s) (s.reading R x) := by
  obtain ⟨rest, hrest⟩ := hs.rest
  unfold Analysis.lookup at hd
  split at hd
  · rename_i e he
    obtain rfl := Option.some.inj hd
    rcases S.classified_or_trip hl he with hc | ⟨hterm, -⟩
    · obtain ⟨hleaf, hhome⟩ := isOutside_eq_false_iff.mp (not_isOutside_of_isMember hc.member)
      have hcur := hs.run.placed.current_of_availableAtEnd S.valid loop_natural hs.here hrest
        hs.terminator hx hleaf hhome
      exact ⟨hc.wellFormed, fun ρ hρ =>
        (hc.follows s hs.run hs.here hcur ρ hρ).to_none⟩
    · exact absurd hterm (not_terminator_of_availableAtEnd S.valid hx)
  · split_ifs at hd with hcases
    obtain rfl := Option.some.inj hd
    have hout : S.view.isOutside x = true := by
      rw [isOutside_iff]
      simp only [Bool.or_eq_true, decide_eq_true_eq, Bool.not_eq_true'] at hcases
      rcases hcases with (hconst | hparam) | hhome
      · obtain ⟨v, hv⟩ := Option.isSome_iff_exists.mp hconst
        left
        unfold Func.constant? Instr.constant? at hv
        split at hv
        · rename_i w hw
          rw [hw]
          rfl
        · cases hv
      · exact .inl (S.valid.param x hparam)
      · exact .inr (contains_eq_false_iff.mp hhome)
    exact ⟨.term (isTerm_fetch x), fun ρ hρ =>
      (describes_of_isTerm (isTerm_fetch x)).mpr (value_fetch hs.run hout hρ).symm⟩

theorem exists_control {t : Descriptor} (hl : S.id.index < S.func.flow.loopForest.loops.size)
    (ht : (Analysis.ofFunc S.func).tripCount? S.func S.id = some t) :
    ∃ control, S.func.terminator? S.loop.header = some control ∧
      S.view.tripCount? S.view.classes control = some t := by
  obtain ⟨control, hcontrol, ht⟩ := Option.bind_eq_some_iff.mp ht
  refine ⟨control, hcontrol, ?_⟩
  rcases S.classified_or_trip hl ht with hc | ⟨-, hc⟩
  · have := S.valid.terminator _ control hcontrol
    rw [S.valid.not_isTerminator_of_mem_values hc.listed] at this
    cases this
  · exact hc

theorem Test.exists_inside {known : Classes} {control c y z : InstrId} {a b : Descriptor}
    {cmp op : Comparison} (hk : S.Sound S.view.ahead known)
    (h : S.Test known control a b cmp c y z op) (hlinear : a.isLinear = true ∨ b.isLinear = true) :
    ∃ w ∈ [y, z], S.view.isOutside w = false := by
  have hinside {w : InstrId} {e : Descriptor} (hw : S.view.lookup known w = some e)
      (he : e.isLinear = true) : S.view.isOutside w = false := by
    by_contra hout
    rw [Bool.not_eq_false] at hout
    rw [lookup_of_isOutside hk hout, Option.some.injEq] at hw
    subst hw
    have := isTerm_fetch (S := S) w
    cases hf : S.func.fetch w with
    | linear _ _ =>
      rw [hf] at this
      cases this
    | _ =>
      rw [hf] at he
      cases he
  rcases hlinear with ha | hb
  · exact ⟨y, by simp, hinside h.left ha⟩
  · exact ⟨z, by simp, hinside h.right hb⟩

/-- The test of a linear sequence has held in every iteration so far. -/
theorem AtEnd.passed (hs : S.AtEnd s context) {control : InstrId} {a b : Descriptor}
    {cmp : Comparison} (hcontrol : S.func.terminator? S.loop.header = some control)
    (htest : S.view.control? S.view.classes control = some (a, b, cmp))
    (hlinear : a.isLinear = true ∨ b.isLinear = true) {ρ : InstrId → R} (hρ : S.Fetches s ρ) :
    a.WellFormed ∧ b.WellFormed ∧
      ∀ k < if s.here ≠ S.loop.header then S.iteration s + 1 else S.iteration s,
        Compares cmp ρ a b k := by
  obtain ⟨c, y, z, op, h⟩ := test_of_control? htest
  have hk := S.sound_classes
  have hinside := h.exists_inside hk hlinear
  obtain ⟨hbefore, hnow⟩ := h.passed hk hinside hcontrol hs.run hs.here hρ
  refine ⟨wellFormed_of_lookup hk h.left, wellFormed_of_lookup hk h.right, ?_⟩
  intro k hlt
  split_ifs at hlt with hbody
  · rcases Nat.lt_succ_iff_lt_or_eq.mp hlt with hlt | rfl
    · exact hbefore k hlt
    · exact hnow hbody
  · exact hbefore k hlt

end Setting

namespace Analysis

variable {f : Func} {a : Analysis} {context x : InstrId} {l : LoopId} {inBody : Bool}

theorem contextLoop?_eq_some (ha : a.forest.Finished)
    (h : a.contextLoop? f context = some (l, inBody)) :
    l.index < a.forest.loops.size ∧ f.home context ∈ (a.forest.get l).blocks ∧
      inBody = decide (f.home context ≠ (a.forest.get l).header) := by
  unfold contextLoop? at h
  dsimp only at h
  split at h
  · rename_i m hm
    obtain ⟨rfl, rfl⟩ := Prod.mk.inj (Option.some.inj h)
    obtain ⟨hm, hmem⟩ := ha.mem_of_innermost? hm
    exact ⟨LoopForest.mem_ids.mp hm, hmem, decide_eq_decide.mpr ne_comm⟩
  · cases h

theorem range?_eq_some {r : ValueRange} (ha : a.forest.Finished)
    (h : a.range? f context x = some r) :
    ∃ l d, l.index < a.forest.loops.size ∧ f.home context ∈ (a.forest.get l).blocks ∧
      a.lookup f l x = some d ∧
      r = Query.range ⟨d, a.tripCount? f l, f.home context ≠ (a.forest.get l).header⟩ := by
  obtain ⟨q, hq, rfl⟩ := Option.map_eq_some_iff.mp h
  simp only [query?, bind, Option.bind_eq_some_iff] at hq
  obtain ⟨⟨l, inBody⟩, hl, d, hd, hq⟩ := hq
  obtain ⟨hlt, hmem, rfl⟩ := contextLoop?_eq_some ha hl
  exact ⟨l, d, hlt, hmem, hd, (Option.some.inj hq) ▸ rfl⟩

end Analysis

end LoopBounds
