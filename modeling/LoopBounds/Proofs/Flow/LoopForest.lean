import LoopBounds.Proofs.Flow.Filling
import LoopBounds.Proofs.Func.Built

/-!
# The loops of a function and their nesting

There is one loop for each block that some edge leads back to. A loop stands before the loops
around it, so the first loop in the list that a pointer may lead to is the smallest one. All
that the search has found and filled in then says what it should about the natural loops.
-/

namespace LoopBounds

open FlowGraph

namespace LoopForest

variable (F : LoopForest)

def Inside (l m : LoopId) : Prop := ∀ b, F.contains l b = true → F.contains m b = true

/-- Loop `m` is around loop `l` and has more blocks. -/
def StrictlyInside (l m : LoopId) : Prop := F.Inside l m ∧ ¬ F.Inside m l

/-- The loops of `F` are the natural loops of `g`, and all that the forest says about their
nesting is right. -/
structure Exact (g : FlowGraph) : Prop where
  /-- There is a loop for each block that some edge leads back to, -/
  header_iff : ∀ h, (∃ l ∈ F.ids, (F.get l).header = h) ↔ ∃ t, g.BackEdge t h
  /-- and only one. -/
  header_injective : ∀ l ∈ F.ids, ∀ m ∈ F.ids, (F.get l).header = (F.get m).header → l = m
  id : ∀ l ∈ F.ids, (F.get l).id = l
  latches : ∀ l ∈ F.ids, ∀ t, t ∈ (F.get l).latches ↔ g.BackEdge t (F.get l).header
  latches_nodup : ∀ l ∈ F.ids, (F.get l).latches.Nodup
  /-- A loop consists of its header and of the blocks with a way around it to a latch. -/
  contains_iff : ∀ l ∈ F.ids, ∀ b, F.contains l b = true ↔ g.Reachable b ∧
    (b = (F.get l).header ∨ ∃ t ∈ (F.get l).latches, g.WayAround (F.get l).header b t)
  mem_blocks : ∀ l ∈ F.ids, ∀ b, b ∈ (F.get l).blocks ↔ F.contains l b = true
  blocks_ascending : ∀ l ∈ F.ids, (F.get l).blocks.Pairwise (·.index < ·.index)
  disjoint_or_nested : ∀ l ∈ F.ids, ∀ m ∈ F.ids,
    (∀ b, ¬ (F.contains l b = true ∧ F.contains m b = true)) ∨ F.Inside l m ∨ F.Inside m l
  innermost : ∀ b l, F.innermost? b = some l ↔
    l ∈ F.ids ∧ F.contains l b = true ∧ ∀ m ∈ F.ids, F.contains m b = true → F.Inside l m
  innermost_none : ∀ b, F.innermost? b = none ↔ ∀ l ∈ F.ids, F.contains l b = false
  outer : ∀ l ∈ F.ids, ∀ m, F.outer? l = some m ↔
    m ∈ F.ids ∧ F.StrictlyInside l m ∧ ∀ k ∈ F.ids, F.StrictlyInside l k → F.Inside m k
  outer_none : ∀ l ∈ F.ids, F.outer? l = none ↔ ∀ m ∈ F.ids, ¬ F.StrictlyInside l m
  /-- The level counts the way out through the outer loops. -/
  level : ∀ l ∈ F.ids, F.level l = match F.outer? l with
    | none => 1
    | some m => F.level m + 1
  /-- The level counts the loops around a loop, itself included. -/
  level_eq_length : ∀ l ∈ F.ids, ∃ around : List LoopId, around.Nodup ∧
    (∀ m, m ∈ around ↔ m ∈ F.ids ∧ F.Inside l m) ∧ F.level l = around.length
  mem_subloops : ∀ l m, m ∈ F.subloops l ↔ m ∈ F.ids ∧ F.outer? m = some l
  subloops_ascending : ∀ l, (F.subloops l).Pairwise (·.index < ·.index)
  hasNoInner : ∀ l, F.hasNoInner l = true ↔ F.subloops l = []
  isHeader : ∀ b, F.isHeader b = true ↔ ∃ l ∈ F.ids, (F.get l).header = b
  /-- The outer loops come first in the order that lists every loop once. -/
  outerToInner_perm : F.outerToInner.Perm F.ids
  outerToInner_order : F.outerToInner.Pairwise fun l m => ¬ F.StrictlyInside l m
  /-- A preheader is the only way into the loop and leads nowhere else. -/
  preheader : ∀ l ∈ F.ids, ∀ p, (F.get l).preheader = some p ↔
    (∀ q, (F.get l).header ∈ g.succs q ∧ F.contains l q = false ↔ q = p) ∧
      ∀ c, c ∈ g.succs p ↔ c = (F.get l).header
  preheader_dominates : ∀ l ∈ F.ids, ∀ p, (F.get l).preheader = some p →
    (F.get l).header ≠ .entry → g.Reachable p ∧ g.Dominates p (F.get l).header

/-- Pointers lead outwards, the lists of blocks agree with them, and every loop knows its own
number. -/
structure Finished (F : LoopForest) : Prop extends F.Climbable where
  recorded : ∀ l b, F.contains l b = true ↔ b ∈ (F.get l).blocks
  numbered : ∀ l ∈ F.ids, (F.get l).id = l

namespace Finished

variable {F} {l : LoopId} {b : BlockId} (hF : F.Finished)

include hF

theorem mem_of_innermost? (h : F.innermost? b = some l) : l ∈ F.ids ∧ b ∈ (F.get l).blocks :=
  ⟨hF.mapped b l h, (hF.recorded l b).mp (hF.contains_iff.mpr ⟨l, h, .refl⟩)⟩

theorem exists_innermost? (hb : b ∈ (F.get l).blocks) : ∃ m, F.innermost? b = some m := by
  obtain ⟨m, hm, -⟩ := hF.contains_iff.mp ((hF.recorded l b).mpr hb)
  exact ⟨m, hm⟩

theorem map_id : F.loops.toList.map Loop.id = F.ids := by
  refine List.ext_getElem (by simp [ids]) fun i hi _ => ?_
  have hlt : i < F.loops.size := by simpa using hi
  have := hF.numbered ⟨i⟩ (mem_ids.mpr hlt)
  simpa [ids, get, hlt] using this

theorem outerToInner_eq : F.outerToInner = F.ids.mergeSort F.outerFirst := by
  rw [outerToInner, hF.map_id]

theorem mem_outerToInner : l ∈ F.outerToInner ↔ l ∈ F.ids := by
  rw [hF.outerToInner_eq, List.mem_mergeSort]

end Finished

end LoopForest

namespace FlowGraph.Coherent

variable {g : FlowGraph} {l m : LoopId} {b h : BlockId} (hg : g.Coherent)

include hg

section Filled

theorem discovered : g.foundLoops.Discovered g := (LoopForest.discovered_foundLoops hg).1

theorem filled : g.foundLoops.Filled g g.loopForest := LoopForest.filled_loopForest hg

theorem ids_eq : g.loopForest.ids = g.foundLoops.ids := hg.filled.shape.ids_eq

theorem climbable : g.loopForest.Climbable :=
  hg.filled.shape.climbable (hg.discovered.climbable hg)

theorem get_eq (hl : l ∈ g.loopForest.ids) : g.loopForest.get l = { g.foundLoops.get l with
    level := (g.foundLoops.height l : ℤ)
    subloops := g.foundLoops.ids.filter fun m => g.foundLoops.outer? m = some l
    blocks := g.blocks.filter (g.foundLoops.contains l)
    preheader := g.preheader? (g.foundLoops.get l).header (g.foundLoops.contains l) } :=
  hg.filled.get l (hg.ids_eq ▸ hl)

theorem header_get : (g.loopForest.get l).header = (g.foundLoops.get l).header :=
  hg.filled.shape.header l

theorem id_get (hl : l ∈ g.loopForest.ids) : (g.loopForest.get l).id = l := by
  rw [hg.get_eq hl]
  exact hg.discovered.id l (hg.ids_eq ▸ hl)

theorem latches_get (hl : l ∈ g.loopForest.ids) : (g.loopForest.get l).latches =
    g.latches g.dominators (g.loopForest.get l).header := by
  rw [hg.header_get, ← hg.discovered.latches l (hg.ids_eq ▸ hl), hg.get_eq hl]

theorem latches_ne_nil (hl : l ∈ g.loopForest.ids) :
    g.latches g.dominators (g.loopForest.get l).header ≠ [] := by
  rw [hg.header_get]
  exact hg.discovered.latched l (hg.ids_eq ▸ hl)

theorem preheader_get (hl : l ∈ g.loopForest.ids) : (g.loopForest.get l).preheader =
    g.preheader? (g.loopForest.get l).header (g.loopForest.contains l) := by
  rw [hg.header_get, hg.filled.shape.contains_eq, hg.get_eq hl]

theorem body_eq : g.foundLoops.body g l = g.loopBlocks (g.loopForest.get l).header := by
  rw [hg.header_get, LoopForest.body]

theorem contains_iff_mem_loopBlocks (hl : l ∈ g.loopForest.ids) :
    g.loopForest.contains l b = true ↔ b ∈ g.loopBlocks (g.loopForest.get l).header := by
  rw [hg.filled.shape.contains_eq, hg.discovered.contains_iff hg (hg.ids_eq ▸ hl),
    hg.body_eq]

omit hg in
theorem filter_mem_loopBlocks : g.blocks.filter (· ∈ g.loopBlocks h) = g.loopBlocks h := by
  obtain ⟨p, hp⟩ : ∃ p, g.loopBlocks h = g.blocks.filter p := ⟨_, List.filter_filter⟩
  rw [hp]
  exact List.filter_congr fun b hb => by simp [List.mem_filter, hb]

theorem blocks_get (hl : l ∈ g.loopForest.ids) :
    (g.loopForest.get l).blocks = g.loopBlocks (g.loopForest.get l).header := by
  have hcontains : g.foundLoops.contains l =
      fun b => decide (b ∈ g.loopBlocks (g.loopForest.get l).header) := by
    funext b
    rw [Bool.eq_iff_iff, decide_eq_true_eq, ← hg.contains_iff_mem_loopBlocks hl,
      hg.filled.shape.contains_eq]
  rw [← filter_mem_loopBlocks, ← hcontains, hg.get_eq hl]

theorem outer?_found : g.loopForest.outer? = g.foundLoops.outer? :=
  funext hg.filled.shape.outer

theorem finished : g.loopForest.Finished := by
  refine ⟨hg.climbable, fun l b => ?_, fun l hl => hg.id_get hl⟩
  by_cases hl : l ∈ g.loopForest.ids
  · rw [hg.contains_iff_mem_loopBlocks hl, hg.blocks_get hl]
  · rw [LoopForest.get_of_not_mem hl, hg.climbable.contains_iff]
    refine ⟨?_, fun hb => absurd hb List.not_mem_nil⟩
    rintro ⟨m, hm, haround⟩
    exact absurd (hg.climbable.mem_ids_of_around (hg.climbable.mapped b m hm) haround) hl

theorem natural (hl : l ∈ g.loopForest.ids) : (g.loopForest.get l).Natural g :=
  (hg.natural_naturalLoop (hg.latches_ne_nil hl)).of_eq rfl (hg.blocks_get hl) (hg.latches_get hl)

theorem exists_id (hx : g.latches g.dominators h ≠ []) :
    ∃ l ∈ g.loopForest.ids, (g.loopForest.get l).header = h := by
  obtain ⟨t, ht⟩ := List.exists_mem_of_ne_nil _ hx
  have hr := (hg.mem_latches.mp ht).2.1
  have hpost : h ∈ g.dominators.postOrder g.size .entry :=
    hg.mem_postOrder reachable_entry hg.length_below_le hr (dominates_entry h)
  have hmem : h ∈ g.foundLoops.headers := by
    rw [(LoopForest.discovered_foundLoops hg).2, List.mem_filter]
    exact ⟨hpost, by simpa using hx⟩
  obtain ⟨l, hl, heq⟩ := List.mem_map.mp hmem
  rw [← hg.ids_eq] at hl
  exact ⟨l, hl, (hg.header_get).trans heq⟩

theorem eq_of_header_eq (hl : l ∈ g.loopForest.ids) (hm : m ∈ g.loopForest.ids)
    (heq : (g.loopForest.get l).header = (g.loopForest.get m).header) : l = m := by
  rw [hg.header_get, hg.header_get] at heq
  exact hg.discovered.header_injective hg (hg.ids_eq ▸ hl) (hg.ids_eq ▸ hm) heq

end Filled

section Inside

theorem inside_iff (hl : l ∈ g.loopForest.ids) (hm : m ∈ g.loopForest.ids) :
    g.loopForest.Inside l m ↔ g.loopForest.contains m (g.loopForest.get l).header = true := by
  constructor
  · exact fun h => h _ ((hg.finished.recorded l _).mpr (hg.natural hl).header_mem)
  · intro h b hb
    rw [hg.contains_iff_mem_loopBlocks hl] at hb
    rw [hg.finished.recorded] at h ⊢
    exact hg.loopBlocks_subset (hg.natural hm) h b hb

theorem around_iff (hl : l ∈ g.loopForest.ids) (hm : m ∈ g.loopForest.ids) :
    g.loopForest.Around l m ↔ g.loopForest.Inside l m := by
  have haround : g.loopForest.Around l m ↔ g.foundLoops.Around l m := by
    rw [LoopForest.Around, LoopForest.Around, hg.outer?_found]
  rw [haround, hg.discovered.around_iff hg (hg.ids_eq ▸ hl) (hg.ids_eq ▸ hm), hg.inside_iff hl hm,
    hg.contains_iff_mem_loopBlocks hm, ← hg.header_get, hg.body_eq]

theorem eq_of_inside (hl : l ∈ g.loopForest.ids) (hm : m ∈ g.loopForest.ids)
    (hlm : g.loopForest.Inside l m) (hml : g.loopForest.Inside m l) : l = m := by
  rw [hg.inside_iff hl hm, hg.finished.recorded] at hlm
  rw [hg.inside_iff hm hl, hg.finished.recorded] at hml
  exact hg.eq_of_header_eq hl hm ((hg.natural hl).header_eq (hg.natural hm) hml hlm)

theorem strictlyInside_iff (hl : l ∈ g.loopForest.ids) (hm : m ∈ g.loopForest.ids) :
    g.loopForest.StrictlyInside l m ↔ m ≠ l ∧ g.loopForest.Inside l m := by
  constructor
  · rintro ⟨hlm, hnot⟩
    exact ⟨fun heq => hnot (heq ▸ fun _ hb => hb), hlm⟩
  · rintro ⟨hne, hlm⟩
    exact ⟨hlm, fun hml => hne (hg.eq_of_inside hm hl hml hlm)⟩

theorem index_le_of_inside (hl : l ∈ g.loopForest.ids) (hm : m ∈ g.loopForest.ids)
    (hlm : g.loopForest.Inside l m) : l.index ≤ m.index :=
  hg.climbable.index_le_of_around ((hg.around_iff hl hm).mpr hlm)

theorem inside_of_le (hl : l ∈ g.loopForest.ids) (hm : m ∈ g.loopForest.ids)
    (hle : l.index ≤ m.index) (hlb : g.loopForest.contains l b = true)
    (hmb : g.loopForest.contains m b = true) : g.loopForest.Inside l m := by
  rw [hg.contains_iff_mem_loopBlocks hl, ← hg.body_eq] at hlb
  rw [hg.contains_iff_mem_loopBlocks hm, ← hg.body_eq] at hmb
  have hheader := hg.discovered.header_mem_of_le hg (hg.ids_eq ▸ hl) (hg.ids_eq ▸ hm) hle hlb hmb
  rw [hg.inside_iff hl hm, hg.contains_iff_mem_loopBlocks hm, ← hg.body_eq, hg.header_get]
  exact hheader

theorem disjoint_or_nested (hl : l ∈ g.loopForest.ids) (hm : m ∈ g.loopForest.ids) :
    (∀ b, ¬ (g.loopForest.contains l b = true ∧ g.loopForest.contains m b = true)) ∨
      g.loopForest.Inside l m ∨ g.loopForest.Inside m l := by
  by_cases hcommon : ∃ b, g.loopForest.contains l b = true ∧ g.loopForest.contains m b = true
  · obtain ⟨b, hlb, hmb⟩ := hcommon
    rcases Nat.le_total l.index m.index with hle | hle
    · exact .inr (.inl (hg.inside_of_le hl hm hle hlb hmb))
    · exact .inr (.inr (hg.inside_of_le hm hl hle hmb hlb))
  · exact .inl fun b hb => hcommon ⟨b, hb⟩

end Inside

section Queries

theorem innermost?_eq : g.loopForest.innermost? b =
    g.loopForest.ids.find? (g.loopForest.contains · b) := by
  rw [hg.filled.shape.innermost, hg.discovered.innermost, ← hg.ids_eq]
  refine List.find?_congr fun l hl => ?_
  rw [Bool.eq_iff_iff, decide_eq_true_eq, hg.contains_iff_mem_loopBlocks hl, hg.body_eq]

theorem innermost?_eq_some_iff : g.loopForest.innermost? b = some l ↔
    l ∈ g.loopForest.ids ∧ g.loopForest.contains l b = true ∧
      ∀ m ∈ g.loopForest.ids, g.loopForest.contains m b = true → g.loopForest.Inside l m := by
  rw [hg.innermost?_eq, LoopForest.find?_ids]
  refine and_congr_right fun hl => and_congr_right fun hlb => ?_
  refine forall₂_congr fun m hm => imp_congr_right fun hmb => ?_
  exact ⟨fun hle => hg.inside_of_le hl hm hle hlb hmb, hg.index_le_of_inside hl hm⟩

theorem innermost?_eq_none_iff : g.loopForest.innermost? b = none ↔
    ∀ l ∈ g.loopForest.ids, g.loopForest.contains l b = false := by
  simp [hg.innermost?_eq]

theorem outer?_eq (hl : l ∈ g.loopForest.ids) : g.loopForest.outer? l =
    g.loopForest.ids.find? fun m =>
      m ≠ l && g.loopForest.contains m (g.loopForest.get l).header := by
  rw [hg.filled.shape.outer, hg.discovered.outer l (hg.ids_eq ▸ hl), ← hg.ids_eq]
  refine List.find?_congr fun m hm => congrArg (decide (m ≠ l) && ·) ?_
  rw [Bool.eq_iff_iff, decide_eq_true_eq, hg.contains_iff_mem_loopBlocks hm, ← hg.body_eq,
    hg.header_get]

theorem outer?_eq_some_iff (hl : l ∈ g.loopForest.ids) : g.loopForest.outer? l = some m ↔
    m ∈ g.loopForest.ids ∧ g.loopForest.StrictlyInside l m ∧
      ∀ k ∈ g.loopForest.ids, g.loopForest.StrictlyInside l k → g.loopForest.Inside m k := by
  have haround {k : LoopId} (hk : k ∈ g.loopForest.ids) :
      (decide (k ≠ l) && g.loopForest.contains k (g.loopForest.get l).header) = true ↔
        g.loopForest.StrictlyInside l k := by
    rw [Bool.and_eq_true, decide_eq_true_eq, hg.strictlyInside_iff hl hk, hg.inside_iff hl hk]
  rw [hg.outer?_eq hl, LoopForest.find?_ids]
  refine and_congr_right fun hm => ?_
  rw [haround hm]
  refine and_congr_right fun hlm => forall₂_congr fun k hk => ?_
  rw [haround hk]
  refine imp_congr_right fun hlk => ⟨fun hle => ?_, hg.index_le_of_inside hm hk⟩
  exact hg.inside_of_le hm hk hle ((hg.inside_iff hl hm).mp hlm.1)
    ((hg.inside_iff hl hk).mp hlk.1)

theorem outer?_eq_none_iff (hl : l ∈ g.loopForest.ids) : g.loopForest.outer? l = none ↔
    ∀ m ∈ g.loopForest.ids, ¬ g.loopForest.StrictlyInside l m := by
  rw [hg.outer?_eq hl, List.find?_eq_none]
  refine forall₂_congr fun m hm => not_congr ?_
  rw [Bool.and_eq_true, decide_eq_true_eq, hg.strictlyInside_iff hl hm, hg.inside_iff hl hm]

/-- The level is the length of the way out. -/
theorem level_eq_length (hl : l ∈ g.loopForest.ids) :
    g.loopForest.level l = (g.loopForest.wayOut (some l)).length := by
  rw [hg.filled.shape.wayOut_eq, LoopForest.level, hg.get_eq hl]
  rfl

theorem level_eq (hl : l ∈ g.loopForest.ids) :
    g.loopForest.level l = match g.loopForest.outer? l with
      | none => 1
      | some m => g.loopForest.level m + 1 := by
  rw [hg.level_eq_length hl, hg.climbable.wayOut_some hl]
  cases ho : g.loopForest.outer? l with
  | none => simp [LoopForest.wayOut, LoopForest.climb_none]
  | some m =>
    have hm := (hg.climbable.outer l m ho).2
    simp [hg.level_eq_length hm]

theorem mem_wayOut (hl : l ∈ g.loopForest.ids) : m ∈ g.loopForest.wayOut (some l) ↔
    m ∈ g.loopForest.ids ∧ g.loopForest.Inside l m := by
  rw [hg.climbable.mem_wayOut hl]
  constructor
  · intro h
    have hm := hg.climbable.mem_ids_of_around hl h
    exact ⟨hm, (hg.around_iff hl hm).mp h⟩
  · exact fun ⟨hm, h⟩ => (hg.around_iff hl hm).mpr h

theorem nodup_wayOut (hl : l ∈ g.loopForest.ids) : (g.loopForest.wayOut (some l)).Nodup := by
  refine (hg.climbable.pairwise_wayOut hl).imp fun hlt => ?_
  rintro rfl
  exact Nat.lt_irrefl _ hlt

theorem level_lt (hl : l ∈ g.loopForest.ids) (hm : m ∈ g.loopForest.ids)
    (hlm : g.loopForest.StrictlyInside l m) :
    g.loopForest.level m < g.loopForest.level l := by
  have hnodup : (l :: g.loopForest.wayOut (some m)).Nodup :=
    List.nodup_cons.mpr ⟨fun hmem => hlm.2 ((hg.mem_wayOut hm).mp hmem).2, hg.nodup_wayOut hm⟩
  have hsubset : l :: g.loopForest.wayOut (some m) ⊆ g.loopForest.wayOut (some l) := by
    intro k hk
    rw [hg.mem_wayOut hl]
    rcases List.mem_cons.mp hk with rfl | hk
    · exact ⟨hl, fun _ hb => hb⟩
    · obtain ⟨hk, hmk⟩ := (hg.mem_wayOut hm).mp hk
      exact ⟨hk, fun b hb => hmk b (hlm.1 b hb)⟩
  rw [hg.level_eq_length hl, hg.level_eq_length hm, Int.ofNat_lt]
  exact (List.subperm_of_subset hnodup hsubset).length_le

theorem subloops_eq : g.loopForest.subloops l =
    g.loopForest.ids.filter fun m => g.loopForest.outer? m = some l := by
  rw [LoopForest.subloops, hg.outer?_found, hg.ids_eq]
  by_cases hl : l ∈ g.loopForest.ids
  · rw [hg.get_eq hl]
  · rw [LoopForest.get_of_not_mem hl, Loop.start, eq_comm, List.filter_eq_nil_iff]
    intro m _ ho
    rw [decide_eq_true_eq, ← hg.outer?_found] at ho
    exact hl (hg.climbable.outer m l ho).2

theorem hasNoInner_iff : g.loopForest.hasNoInner l = true ↔ g.loopForest.subloops l = [] := by
  by_cases hl : l ∈ g.loopForest.ids
  · have hsame : g.loopForest.hasNoInner l = g.foundLoops.hasNoInner l := by
      rw [LoopForest.hasNoInner, hg.get_eq hl, LoopForest.hasNoInner]
    rw [hsame, hg.discovered.noInner l (hg.ids_eq ▸ hl), hg.subloops_eq, hg.outer?_found, hg.ids_eq,
      List.filter_eq_nil_iff]
    simp
  · rw [LoopForest.hasNoInner, LoopForest.subloops, LoopForest.get_of_not_mem hl]
    exact iff_of_true rfl rfl

theorem innermost?_header (hl : l ∈ g.loopForest.ids) :
    g.loopForest.innermost? (g.loopForest.get l).header = some l := by
  have hself := (hg.finished.recorded l _).mpr (hg.natural hl).header_mem
  exact hg.innermost?_eq_some_iff.mpr
    ⟨hl, hself, fun m hm hmem => (hg.inside_iff hl hm).mpr hmem⟩

theorem isHeader_iff : g.loopForest.isHeader b = true ↔
    ∃ l ∈ g.loopForest.ids, (g.loopForest.get l).header = b := by
  unfold LoopForest.isHeader
  constructor
  · intro h
    split at h
    · rename_i l hl
      exact ⟨l, hg.climbable.mapped b l hl, decide_eq_true_eq.mp h⟩
    · cases h
  · rintro ⟨l, hl, rfl⟩
    rw [hg.innermost?_header hl]
    exact decide_eq_true rfl

omit hg in
theorem outerFirst_iff : g.loopForest.outerFirst l m = true ↔
    g.loopForest.level l < g.loopForest.level m ∨
      g.loopForest.level l = g.loopForest.level m ∧
        (g.loopForest.get l).header.index ≤ (g.loopForest.get m).header.index := by
  simp [LoopForest.outerFirst]

theorem pairwise_outerToInner :
    g.loopForest.outerToInner.Pairwise fun l m => ¬ g.loopForest.StrictlyInside l m := by
  have hsorted : g.loopForest.outerToInner.Pairwise (g.loopForest.outerFirst · · = true) := by
    apply List.pairwise_mergeSort
    · intro a b c hab hbc
      rw [outerFirst_iff] at hab hbc ⊢
      omega
    · intro a b
      rw [Bool.or_eq_true, outerFirst_iff, outerFirst_iff]
      omega
  rw [hg.finished.outerToInner_eq] at hsorted ⊢
  refine hsorted.imp_of_mem ?_
  intro l m hl hm hlm hinside
  have hl := (List.mergeSort_perm _ _).mem_iff.mp hl
  have hm := (List.mergeSort_perm _ _).mem_iff.mp hm
  have := hg.level_lt hl hm hinside
  rw [outerFirst_iff] at hlm
  omega

end Queries

end FlowGraph.Coherent

/-- The loops found in a graph without double edges, and their nesting, are exact. -/
theorem FlowGraph.Simple.loopForest_exact {g : FlowGraph} (hg : g.Simple) :
    g.loopForest.Exact g where
  header_iff h := by
    constructor
    · rintro ⟨l, hl, rfl⟩
      obtain ⟨t, ht, hedge⟩ := (hg.natural hl).back_edge
      have hr := (hg.natural hl).reachable t ((hg.natural hl).latch_mem t ht)
      exact ⟨t, hedge, hr, ((hg.natural hl).latch_iff t hr hedge).mp ht⟩
    · rintro ⟨t, ht⟩
      exact hg.exists_id (List.ne_nil_of_mem (hg.mem_latches_iff_backEdge.mpr ht))
  header_injective l hl m hm := hg.eq_of_header_eq hl hm
  id l hl := hg.id_get hl
  latches l hl t := by
    rw [hg.latches_get hl]
    exact hg.mem_latches_iff_backEdge
  latches_nodup l hl := by
    rw [hg.latches_get hl]
    exact (hg.nodup_preds _).filter _
  contains_iff l hl b := by
    rw [hg.contains_iff_mem_loopBlocks hl, hg.latches_get hl]
    simp only [hg.mem_loopBlocks_iff_wayAround, hg.mem_latches_iff_backEdge]
  mem_blocks l _ b := (hg.finished.recorded l b).symm
  blocks_ascending l hl := by
    rw [hg.blocks_get hl]
    exact pairwise_reachable.filter _
  disjoint_or_nested l hl m hm := hg.disjoint_or_nested hl hm
  innermost b l := hg.innermost?_eq_some_iff
  innermost_none b := hg.innermost?_eq_none_iff
  outer l hl m := hg.outer?_eq_some_iff hl
  outer_none l hl := hg.outer?_eq_none_iff hl
  level l hl := hg.level_eq hl
  level_eq_length l hl :=
    ⟨_, hg.nodup_wayOut hl, fun m => hg.mem_wayOut hl, hg.level_eq_length hl⟩
  mem_subloops l m := by
    rw [hg.subloops_eq, List.mem_filter, decide_eq_true_eq]
  subloops_ascending l := by
    rw [hg.subloops_eq]
    exact LoopForest.pairwise_ids.filter _
  hasNoInner l := hg.hasNoInner_iff
  isHeader b := hg.isHeader_iff
  outerToInner_perm := hg.finished.outerToInner_eq ▸ List.mergeSort_perm _ _
  outerToInner_order := hg.pairwise_outerToInner
  preheader l hl p := by
    rw [hg.preheader_get hl, hg.preheader?_eq_some_iff]
  preheader_dominates l hl p hp hne := by
    rw [hg.preheader_get hl, hg.preheader?_eq_some_iff] at hp
    refine (hg.natural hl).passes_preheader (fun q => ?_) hne
    rw [← hg.finished.recorded, Bool.not_eq_true]
    exact hp.1 q

/-- Whatever function has been built, irreducible regions, unreachable blocks and loops of
one block included, the loops found in it are exact. -/
theorem Func.Built.loops_exact {f : Func} (h : f.Built) : f.flow.loopForest.Exact f.flow :=
  h.simple.loopForest_exact

/-- Two edges lead back to block 1 and one from block 2 to itself. Blocks 5 and 6 are entered
at either, and nothing leads to block 7. -/
def tangled : Func :=
  Func.empty "tangled" .void
    |>.addParam "c"
    |>.addBlock "outer" |>.addBlock "inner" |>.addBlock "first" |>.addBlock "second"
    |>.addBlock "left" |>.addBlock "right" |>.addBlock "dead" |>.addBlock "exit"
    |>.setTerminator .entry (.jump ⟨1⟩)
    |>.setTerminator ⟨1⟩ (.branch ⟨0⟩ ⟨2⟩ ⟨5⟩)
    |>.setTerminator ⟨2⟩ (.branch ⟨0⟩ ⟨2⟩ ⟨3⟩)
    |>.setTerminator ⟨3⟩ (.branch ⟨0⟩ ⟨1⟩ ⟨4⟩)
    |>.setTerminator ⟨4⟩ (.branch ⟨0⟩ ⟨1⟩ ⟨6⟩)
    |>.setTerminator ⟨5⟩ (.jump ⟨6⟩)
    |>.setTerminator ⟨6⟩ (.branch ⟨0⟩ ⟨5⟩ ⟨8⟩)
    |>.setTerminator ⟨7⟩ (.jump ⟨6⟩)
    |>.setTerminator ⟨8⟩ (.ret none)

theorem tangled_built : tangled.Built := by
  have hstart : Func.Built (Func.empty "tangled" .void
      |>.addParam "c"
      |>.addBlock "outer" |>.addBlock "inner" |>.addBlock "first" |>.addBlock "second"
      |>.addBlock "left" |>.addBlock "right" |>.addBlock "dead" |>.addBlock "exit") := by
    repeat apply Func.Built.addBlock
    exact .addParam _ (.empty _ _)
  unfold tangled
  iterate 9
    refine Func.Built.setTerminator _ _ ?_ (by decide +kernel) (by decide +kernel) rfl
      (by decide +kernel)
  exact hstart

/-- The loop of block 2 stands before the loop of block 1, which has two latches and the entry
as preheader. -/
theorem tangled_loops_exact : tangled.Built ∧ tangled.flow.loopForest.Exact tangled.flow ∧
    tangled.flow.loopForest.loops =
      #[{ id := ⟨0⟩, outer := some ⟨1⟩, header := ⟨2⟩, level := 2, noInner := true,
          subloops := [], blocks := [⟨2⟩], latches := [⟨2⟩], preheader := none },
        { id := ⟨1⟩, outer := none, header := ⟨1⟩, level := 1, noInner := false,
          subloops := [⟨0⟩], blocks := [⟨1⟩, ⟨2⟩, ⟨3⟩, ⟨4⟩], latches := [⟨3⟩, ⟨4⟩],
          preheader := some .entry }] :=
  ⟨tangled_built, tangled_built.loops_exact, by decide +kernel⟩

end LoopBounds
