import LoopBounds.Proofs.Flow.Climb
import LoopBounds.Proofs.Flow.Nesting

/-!
# Loops in the order of their discovery

Headers are met after all headers that they dominate. The loops found so far can therefore be
told by their pointers: a block points to the first loop that it lies in, and a loop to the
first other one that its header lies in. Two loops with a common block are nested in the order
in which they were found, so the way out of a block passes exactly the loops around it.
-/

namespace LoopBounds

open FlowGraph

namespace LoopForest

variable {F : LoopForest} {g : FlowGraph} {l m : LoopId} {b : BlockId}

/-- What the loop with the header of `l` consists of. -/
def body (F : LoopForest) (g : FlowGraph) (l : LoopId) : List BlockId :=
  g.loopBlocks (F.get l).header

/-- The loops found so far have different headers, and all pointers lead to the first loop
that fits. -/
structure Discovered (F : LoopForest) (g : FlowGraph) : Prop where
  id : ∀ l ∈ F.ids, (F.get l).id = l
  latches : ∀ l ∈ F.ids, (F.get l).latches = g.latches g.dominators (F.get l).header
  unfilled : ∀ l ∈ F.ids,
    (F.get l).level = -1 ∧ (F.get l).subloops = [] ∧ (F.get l).blocks = []
  latched : ∀ l ∈ F.ids, g.latches g.dominators (F.get l).header ≠ []
  order : ∀ l ∈ F.ids, ∀ m ∈ F.ids, l.index < m.index →
    ¬ g.Dominates (F.get l).header (F.get m).header
  innermost : ∀ b, F.innermost? b = F.ids.find? fun l => b ∈ F.body g l
  outer : ∀ l ∈ F.ids, F.outer? l =
    F.ids.find? fun m => m ≠ l && decide ((F.get l).header ∈ F.body g m)
  noInner : ∀ l ∈ F.ids, F.hasNoInner l = true ↔ ∀ m ∈ F.ids, F.outer? m ≠ some l

namespace Discovered

variable (hF : F.Discovered g) (hg : g.Coherent)

theorem empty : LoopForest.empty.Discovered g where
  id _ hl := absurd hl List.not_mem_nil
  latches _ hl := absurd hl List.not_mem_nil
  unfilled _ hl := absurd hl List.not_mem_nil
  latched _ hl := absurd hl List.not_mem_nil
  order _ hl := absurd hl List.not_mem_nil
  innermost _ := rfl
  outer _ hl := absurd hl List.not_mem_nil
  noInner _ hl := absurd hl List.not_mem_nil

include hF hg

theorem natural (hl : l ∈ F.ids) : (g.naturalLoop (F.get l).header).Natural g :=
  hg.natural_naturalLoop (hF.latched l hl)

theorem header_mem (hl : l ∈ F.ids) : (F.get l).header ∈ F.body g l :=
  (hF.natural hg hl).header_mem

theorem body_subset (hm : m ∈ F.ids) (h : (F.get l).header ∈ F.body g m) :
    ∀ b ∈ F.body g l, b ∈ F.body g m := hg.loopBlocks_subset (hF.natural hg hm) h

theorem index_le_of_header_mem (hl : l ∈ F.ids) (hm : m ∈ F.ids)
    (h : (F.get l).header ∈ F.body g m) : l.index ≤ m.index := by
  by_contra hlt
  exact hF.order m hm l hl (Nat.lt_of_not_le hlt) ((hF.natural hg hm).dominates _ h)

/-- Of two loops with a block in common the earlier one is inside the later one: if it
were the other way round, the earlier header would dominate the later one. -/
theorem header_mem_of_le (hl : l ∈ F.ids) (hm : m ∈ F.ids) (hle : l.index ≤ m.index)
    (hbl : b ∈ F.body g l) (hbm : b ∈ F.body g m) : (F.get l).header ∈ F.body g m := by
  rcases Nat.eq_or_lt_of_le hle with heq | hlt
  · obtain rfl := LoopId.ext heq
    exact hF.header_mem hg hl
  · refine ((hF.natural hg hl).header_mem_or (hF.natural hg hm) hbl hbm).resolve_right ?_
    exact fun h => hF.order l hl m hm hlt ((hF.natural hg hl).dominates _ h)

theorem header_injective (hl : l ∈ F.ids) (hm : m ∈ F.ids)
    (heq : (F.get l).header = (F.get m).header) : l = m := by
  have hlm := hF.index_le_of_header_mem hg hl hm (heq ▸ hF.header_mem hg hm)
  have hml := hF.index_le_of_header_mem hg hm hl (heq ▸ hF.header_mem hg hl)
  exact LoopId.ext (Nat.le_antisymm hlm hml)

omit hg in
theorem outer?_eq_some_iff (hl : l ∈ F.ids) : F.outer? l = some m ↔
    m ∈ F.ids ∧ (m ≠ l ∧ (F.get l).header ∈ F.body g m) ∧
      ∀ k ∈ F.ids, k ≠ l ∧ (F.get l).header ∈ F.body g k → m.index ≤ k.index := by
  rw [hF.outer l hl, find?_ids]
  simp only [Bool.and_eq_true, decide_eq_true_eq]

theorem climbable : F.Climbable where
  mapped b l hb := by
    rw [hF.innermost] at hb
    exact List.mem_of_find?_eq_some hb
  outer l m ho := by
    have hl := mem_ids_of_outer? ho
    obtain ⟨hm, ⟨hne, hmem⟩, -⟩ := (hF.outer?_eq_some_iff hl).mp ho
    have hle := hF.index_le_of_header_mem hg hl hm hmem
    exact ⟨lt_of_le_of_ne hle fun heq => hne (LoopId.ext heq.symm), hm⟩

theorem around_iff (hl : l ∈ F.ids) (hm : m ∈ F.ids) :
    F.Around l m ↔ (F.get l).header ∈ F.body g m := by
  constructor
  · intro h
    induction h with
    | refl => exact hF.header_mem hg hl
    | @tail k m _ ho ih =>
      have hk := mem_ids_of_outer? ho
      have := ((hF.outer?_eq_some_iff hk).mp ho).2.1.2
      exact hF.body_subset hg hm this _ (ih hk)
  · refine (hF.climbable hg).induction
      (P := fun l => (F.get l).header ∈ F.body g m → F.Around l m) ?_ l hl
    intro l hl ih hmem
    by_cases hml : m = l
    · exact hml ▸ .refl
    · cases ho : F.outer? l with
      | none =>
        rw [hF.outer l hl, List.find?_eq_none] at ho
        exact absurd (by simp [hml, hmem]) (ho m hm)
      | some k =>
        obtain ⟨hk, ⟨-, hlk⟩, hfirst⟩ := (hF.outer?_eq_some_iff hl).mp ho
        have hkm := hF.header_mem_of_le hg hk hm (hfirst m hm ⟨hml, hmem⟩) hlk hmem
        exact .head ho (ih k ho hkm)

theorem contains_iff (hm : m ∈ F.ids) : F.contains m b = true ↔ b ∈ F.body g m := by
  rw [(hF.climbable hg).contains_iff]
  constructor
  · rintro ⟨l, hb, hlm⟩
    rw [hF.innermost, find?_ids, decide_eq_true_eq] at hb
    exact hF.body_subset hg hm ((hF.around_iff hg hb.1 hm).mp hlm) b hb.2.1
  · intro hmem
    cases hb : F.innermost? b with
    | none =>
      rw [hF.innermost, List.find?_eq_none] at hb
      exact absurd (decide_eq_true hmem) (hb m hm)
    | some l =>
      rw [hF.innermost, find?_ids, decide_eq_true_eq] at hb
      obtain ⟨hl, hbl, hfirst⟩ := hb
      have hle := hfirst m hm (decide_eq_true hmem)
      exact ⟨l, rfl, (hF.around_iff hg hl hm).mpr (hF.header_mem_of_le hg hl hm hle hbl hmem)⟩

end Discovered

end LoopForest

end LoopBounds
