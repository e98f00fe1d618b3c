import LoopBounds.Proofs.Flow.LoopForest
import Mathlib.Logic.Equiv.Basic

/-!
# Renaming the blocks of a flow graph

A renaming of the blocks that keeps the entry and the edges keeps trails, dominance and back
edges, and so the natural loops: those of one graph are those of the other, with their blocks
renamed. Only the order in which the loops are numbered may change.
-/

namespace LoopBounds.FlowGraph

/-- The edges of `g'` are those of `g` between renamed blocks. -/
structure Renamed (g g' : FlowGraph) (β : Equiv.Perm BlockId) : Prop where
  entry : β .entry = .entry
  succs : ∀ b c, β c ∈ g'.succs (β b) ↔ c ∈ g.succs b

variable {g g' : FlowGraph} {β : Equiv.Perm BlockId} {a b t : BlockId}

theorem Renamed.symm (h : g.Renamed g' β) : g'.Renamed g β.symm where
  entry := by rw [Equiv.symm_apply_eq, h.entry]
  succs b c := by rw [← h.succs, Equiv.apply_symm_apply, Equiv.apply_symm_apply]

section Paths

variable (h : g.Renamed g' β)

include h

theorem Renamed.trail_map {w : List BlockId} (hw : g.Trail w) : g'.Trail (w.map β) := by
  induction hw with
  | entry =>
    rw [List.map_singleton, h.entry]
    exact .entry
  | step _ hc ih => exact ih.step ((h.succs _ _).mpr hc)

theorem Renamed.reachable_iff : g'.Reachable (β b) ↔ g.Reachable b := by
  constructor
  · rintro ⟨w, hw⟩
    refine ⟨w.map β.symm, ?_⟩
    have := h.symm.trail_map hw
    rwa [List.map_cons, Equiv.symm_apply_apply] at this
  · exact fun ⟨w, hw⟩ => ⟨w.map β, h.trail_map hw⟩

theorem Renamed.dominates (hd : g.Dominates a b) : g'.Dominates (β a) (β b) := by
  intro w hw
  have := h.symm.trail_map hw
  rw [List.map_cons, Equiv.symm_apply_apply] at this
  have hmem := List.mem_map_of_mem (f := β) (hd _ this)
  rwa [List.map_cons, List.map_map, Equiv.self_comp_symm, List.map_id] at hmem

theorem Renamed.dominates_iff : g'.Dominates (β a) (β b) ↔ g.Dominates a b := by
  refine ⟨fun hd => ?_, h.dominates⟩
  have := h.symm.dominates hd
  rwa [Equiv.symm_apply_apply, Equiv.symm_apply_apply] at this

theorem Renamed.backEdge_iff : g'.BackEdge (β t) (β b) ↔ g.BackEdge t b :=
  and_congr (h.succs _ _) (and_congr h.reachable_iff h.dominates_iff)

theorem Renamed.wayAround (hw : g.WayAround a b t) : g'.WayAround (β a) (β b) (β t) := by
  induction hw with
  | refl hne => exact .refl (β.injective.ne hne)
  | step hne hc _ ih => exact .step (β.injective.ne hne) ((h.succs _ _).mpr hc) ih

theorem Renamed.wayAround_iff : g'.WayAround (β a) (β b) (β t) ↔ g.WayAround a b t := by
  refine ⟨fun hw => ?_, h.wayAround⟩
  have := h.symm.wayAround hw
  rwa [Equiv.symm_apply_apply, Equiv.symm_apply_apply, Equiv.symm_apply_apply] at this

end Paths

/-- Loop `l'` of `g'` has the header of loop `l` of `g`, renamed. -/
structure SameLoop (g g' : FlowGraph) (β : Equiv.Perm BlockId) (l l' : LoopId) : Prop where
  mem : l ∈ g.loopForest.ids
  mem' : l' ∈ g'.loopForest.ids
  header : (g'.loopForest.get l').header = β (g.loopForest.get l).header

theorem SameLoop.symm {l l' : LoopId} (hl : SameLoop g g' β l l') : SameLoop g' g β.symm l' l :=
  ⟨hl.mem', hl.mem, by rw [hl.header, Equiv.symm_apply_apply]⟩

section Loops

variable (h : g.Renamed g' β) (hg : g.Coherent) (hg' : g'.Coherent) {l l' m m' : LoopId}

include h hg hg'

theorem Renamed.exists_sameLoop (hl : l ∈ g.loopForest.ids) : ∃ l', SameLoop g g' β l l' := by
  obtain ⟨t, ht⟩ := List.exists_mem_of_ne_nil _ (hg.latches_ne_nil hl)
  have hback := h.backEdge_iff.mpr (hg.mem_latches_iff_backEdge.mp ht)
  have hmem := hg'.mem_latches_iff_backEdge.mpr hback
  obtain ⟨l', hl', hheader⟩ := hg'.exists_id (List.ne_nil_of_mem hmem)
  exact ⟨l', hl, hl', hheader⟩

theorem Renamed.mem_blocks_iff (hl : SameLoop g g' β l l') :
    β b ∈ (g'.loopForest.get l').blocks ↔ b ∈ (g.loopForest.get l).blocks := by
  rw [hg'.blocks_get hl.mem', hg.blocks_get hl.mem, hl.header, hg.mem_loopBlocks_iff_wayAround,
    hg'.mem_loopBlocks_iff_wayAround, h.reachable_iff, β.injective.eq_iff]
  refine and_congr_right fun _ => or_congr_right ?_
  constructor
  · rintro ⟨t, ht, hw⟩
    rw [← β.apply_symm_apply t] at ht hw
    exact ⟨β.symm t, h.backEdge_iff.mp ht, h.wayAround_iff.mp hw⟩
  · exact fun ⟨t, ht, hw⟩ => ⟨β t, h.backEdge_iff.mpr ht, h.wayAround_iff.mpr hw⟩

theorem Renamed.contains_eq (hl : SameLoop g g' β l l') :
    g'.loopForest.contains l' (β b) = g.loopForest.contains l b := by
  rw [Bool.eq_iff_iff, hg'.finished.recorded, hg.finished.recorded]
  exact h.mem_blocks_iff hg hg' hl

omit h in
theorem SameLoop.eq_iff (hl : SameLoop g g' β l l') (hm : SameLoop g g' β m m') :
    l' = m' ↔ l = m := by
  constructor
  · rintro rfl
    exact hg.eq_of_header_eq hl.mem hm.mem (β.injective (hl.header.symm.trans hm.header))
  · rintro rfl
    exact hg'.eq_of_header_eq hl.mem' hm.mem' (hl.header.trans hm.header.symm)

theorem Renamed.inside (hl : SameLoop g g' β l l') (hm : SameLoop g g' β m m')
    (hlm : g.loopForest.Inside l m) : g'.loopForest.Inside l' m' := by
  intro c hc
  rw [← β.apply_symm_apply c, h.contains_eq hg hg' hl] at hc
  rw [← β.apply_symm_apply c, h.contains_eq hg hg' hm]
  exact hlm _ hc

theorem Renamed.innermost? (hl : SameLoop g g' β l l') (hb : g.loopForest.innermost? b = some l) :
    g'.loopForest.innermost? (β b) = some l' := by
  obtain ⟨-, hmem, hinner⟩ := hg.innermost?_eq_some_iff.mp hb
  refine hg'.innermost?_eq_some_iff.mpr ⟨hl.mem', (h.contains_eq hg hg' hl).trans hmem, ?_⟩
  intro m' hm' hcontains
  obtain ⟨m, hm⟩ := h.symm.exists_sameLoop hg' hg hm'
  have hm := hm.symm
  rw [Equiv.symm_symm] at hm
  rw [h.contains_eq hg hg' hm] at hcontains
  exact h.inside hg hg' hl hm (hinner m hm.mem hcontains)

theorem Renamed.innermost?_iff (hl : SameLoop g g' β l l') :
    g'.loopForest.innermost? (β b) = some l' ↔ g.loopForest.innermost? b = some l := by
  refine ⟨fun hb => ?_, h.innermost? hg hg' hl⟩
  have := h.symm.innermost? hg' hg hl.symm hb
  rwa [Equiv.symm_apply_apply] at this

end Loops

end LoopBounds.FlowGraph
