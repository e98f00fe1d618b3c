import LoopBounds.Flow.Dominators
import LoopBounds.Proofs.Flow.Walk

/-!
# Dominance along trails

A trail is the list of blocks that control has run through since the entry, the latest
first. A block dominates another when it lies on every trail there. The computed
dominators are exactly this relation on the reachable blocks: taking a block out of the
graph leaves the trails that avoid it.
-/

namespace LoopBounds

namespace FlowGraph

/-- Edges are recorded at both ends and lead to blocks of the graph. -/
structure Coherent (g : FlowGraph) : Prop where
  edges : ∀ b c, c ∈ g.succs b ↔ b ∈ g.preds c
  target : ∀ b c, c ∈ g.succs b → c.index < g.size
  entry : 0 < g.size

/-- Moreover no edge is recorded twice. -/
structure Simple (g : FlowGraph) : Prop extends g.Coherent where
  nodup_succs : ∀ b, (g.succs b).Nodup
  nodup_preds : ∀ b, (g.preds b).Nodup

/-- The blocks run through since the entry, the latest first. -/
inductive Trail (g : FlowGraph) : List BlockId → Prop
  | entry : Trail g [.entry]
  | step {b c t} : Trail g (b :: t) → c ∈ g.succs b → Trail g (c :: b :: t)

def Reachable (g : FlowGraph) (b : BlockId) : Prop := ∃ t, g.Trail (b :: t)

/-- Every trail to `b` runs through `a`. -/
def Dominates (g : FlowGraph) (a b : BlockId) : Prop := ∀ t, g.Trail (b :: t) → a ∈ b :: t

variable {g : FlowGraph}

theorem mem_blocks {b : BlockId} : b ∈ g.blocks ↔ b.index < g.size := by
  simp only [blocks, List.mem_map, List.mem_range]
  constructor
  · rintro ⟨i, hi, rfl⟩
    exact hi
  · exact fun h => ⟨b.index, h, rfl⟩

theorem pairwise_blocks : g.blocks.Pairwise (·.index < ·.index) :=
  List.pairwise_map.mpr List.pairwise_lt_range

theorem pairwise_reachable : g.reachable.Pairwise (·.index < ·.index) :=
  pairwise_blocks.filter _

theorem nodup_of_pairwise {l : List BlockId} (h : l.Pairwise (·.index < ·.index)) : l.Nodup :=
  h.imp fun hlt => by
    rintro rfl
    exact lt_irrefl _ hlt

theorem Dominates.refl (b : BlockId) : g.Dominates b b := fun _ _ => List.mem_cons_self

theorem Trail.drop {u t : List BlockId} {b : BlockId} (h : g.Trail (u ++ b :: t)) :
    g.Trail (b :: t) := by
  induction u with
  | nil => exact h
  | cons c u ih =>
    apply ih
    cases ht : u ++ b :: t with
    | nil => simp at ht
    | cons d t =>
      rw [List.cons_append, ht] at h
      cases h with
      | step h _ => exact h

theorem Trail.append {u w w' : List BlockId} {b : BlockId} (h : g.Trail (u ++ b :: w))
    (hw : g.Trail (b :: w')) : g.Trail (u ++ b :: w') := by
  induction u with
  | nil => exact hw
  | cons c u ih =>
    cases u with
    | nil =>
      cases h with
      | step h hc => exact hw.step hc
    | cons d u =>
      cases h with
      | step h hc => exact (ih h).step hc

theorem Trail.reachable {t : List BlockId} {b : BlockId} (h : g.Trail t) (hb : b ∈ t) :
    g.Reachable b := by
  obtain ⟨t₁, t₂, rfl⟩ := List.append_of_mem hb
  exact ⟨t₂, h.drop⟩

theorem Reachable.succ {b c : BlockId} (h : g.Reachable b) (hc : c ∈ g.succs b) :
    g.Reachable c := by
  obtain ⟨t, h⟩ := h
  exact ⟨b :: t, h.step hc⟩

theorem Dominates.reachable {a b : BlockId} (h : g.Dominates a b) (hb : g.Reachable b) :
    g.Reachable a := by
  obtain ⟨t, ht⟩ := hb
  exact ht.reachable (h t ht)

theorem Dominates.trans {a b c : BlockId} (hab : g.Dominates a b) (hbc : g.Dominates b c) :
    g.Dominates a c := by
  intro t ht
  obtain ⟨t₁, t₂, h⟩ := List.append_of_mem (hbc t ht)
  rw [h] at ht ⊢
  exact List.mem_append_right _ (hab t₂ ht.drop)

/-- If `h` is another block that dominates a reachable `b`, some trail to `h` avoids `b`:
a trail to `b` runs through `h` first, and if it has met `b` before that, a shorter one
does. -/
theorem Dominates.exists_trail_avoiding {h b : BlockId} (hd : g.Dominates h b) (hne : b ≠ h)
    (hb : g.Reachable b) : ∃ t, g.Trail (h :: t) ∧ b ∉ h :: t := by
  obtain ⟨t, ht⟩ := hb
  induction hn : t.length using Nat.strong_induction_on generalizing t with
  | _ n ih =>
    rcases List.mem_cons.mp (hd t ht) with rfl | hmem
    · exact absurd rfl hne
    · obtain ⟨t₁, t₂, rfl⟩ := List.append_of_mem hmem
      have htrail : g.Trail (h :: t₂) := Trail.drop (u := b :: t₁) ht
      by_cases hb : b ∈ h :: t₂
      · have hb : b ∈ t₂ := (List.mem_cons.mp hb).resolve_left hne
        obtain ⟨u, w, rfl⟩ := List.append_of_mem hb
        refine ih w.length ?_ w (Trail.drop (u := h :: u) htrail) rfl
        subst hn
        simp only [List.length_append, List.length_cons]
        omega
      · exact ⟨t₂, htrail, hb⟩

theorem Dominates.antisymm {a b : BlockId} (hab : g.Dominates a b) (hba : g.Dominates b a)
    (hb : g.Reachable b) : a = b := by
  by_contra hne
  obtain ⟨t, ht, havoid⟩ := hab.exists_trail_avoiding (Ne.symm hne) hb
  exact havoid (hba t ht)

section Search

theorem reached_of_trail {region t : List BlockId} {b : BlockId} (h : g.Trail (b :: t))
    (hr : ∀ c ∈ b :: t, c ∈ region) : Reached region g.succs [.entry] b := by
  induction t generalizing b with
  | nil =>
    cases h
    exact .start List.mem_cons_self (hr _ List.mem_cons_self)
  | cons c t ih =>
    cases h with
    | step h hc =>
      have hsub : ∀ d ∈ c :: t, d ∈ region := fun d hd => hr d (List.mem_cons_of_mem _ hd)
      exact .step (ih h hsub) hc (hr b List.mem_cons_self)

theorem trail_of_reached {region : List BlockId} {b : BlockId}
    (h : Reached region g.succs [.entry] b) :
    ∃ t, g.Trail (b :: t) ∧ ∀ c ∈ b :: t, c ∈ region := by
  induction h with
  | start hs hr =>
    obtain rfl := List.mem_singleton.mp hs
    exact ⟨[], .entry, by simpa using hr⟩
  | step _ hy hr ih =>
    obtain ⟨t, ht, hsub⟩ := ih
    exact ⟨_, ht.step hy, List.forall_mem_cons.mpr ⟨hr, hsub⟩⟩

/-- A walk from the entry collects the ends of the trails in its region. -/
theorem mem_walk_entry {region : List BlockId} {b : BlockId} :
    b ∈ walk region g.succs [.entry] ↔
      ∃ t, g.Trail (b :: t) ∧ ∀ c ∈ b :: t, c ∈ region := by
  rw [mem_walk_iff]
  exact ⟨trail_of_reached, fun ⟨t, h, hr⟩ => reached_of_trail h hr⟩

end Search

namespace Coherent

variable (hg : g.Coherent)

include hg

theorem trail_index_lt {t : List BlockId} (h : g.Trail t) : ∀ b ∈ t, b.index < g.size := by
  induction h with
  | entry => simpa [BlockId.entry] using hg.entry
  | step _ hc ih => exact List.forall_mem_cons.mpr ⟨hg.target _ _ hc, ih⟩

theorem index_lt_of_reachable {b : BlockId} (hb : g.Reachable b) : b.index < g.size := by
  obtain ⟨t, ht⟩ := hb
  exact hg.trail_index_lt ht b List.mem_cons_self

theorem mem_reachable {b : BlockId} : b ∈ g.reachable ↔ g.Reachable b := by
  simp only [reachable, List.mem_filter, decide_eq_true_eq, mem_walk_entry, mem_blocks]
  constructor
  · rintro ⟨-, t, ht, -⟩
    exact ⟨t, ht⟩
  · rintro ⟨t, ht⟩
    have hin := hg.trail_index_lt ht
    exact ⟨hin b List.mem_cons_self, t, ht, hin⟩

theorem mem_reachableWithout {a b : BlockId} :
    b ∈ g.reachableWithout a ↔ ∃ t, g.Trail (b :: t) ∧ a ∉ b :: t := by
  simp only [reachableWithout, mem_walk_entry, List.mem_filter, mem_blocks, decide_eq_true_eq]
  constructor
  · rintro ⟨t, ht, h⟩
    exact ⟨t, ht, fun hmem => (h a hmem).2 rfl⟩
  · rintro ⟨t, ht, h⟩
    exact ⟨t, ht, fun c hc => ⟨hg.trail_index_lt ht c hc, fun heq => h (heq ▸ hc)⟩⟩

omit hg in
theorem below_eq {a : BlockId} : g.dominators.below a =
    if a ∈ g.reachable then g.reachable.filter (· ∉ g.reachableWithout a) else [] := by
  simp only [Dominators.below, dominators, List.getElem?_toArray, List.getElem?_map, blocks]
  by_cases ha : a.index < g.size
  · simp [ha]
  · have hout : a ∉ g.reachable := by
      simp only [reachable, List.mem_filter, mem_blocks]
      exact fun h => ha h.1
    simp [ha, hout]

/-- The computed dominators are the blocks on all trails. -/
theorem dominates_iff {a b : BlockId} :
    g.dominators.dominates a b = true ↔ g.Reachable a ∧ g.Reachable b ∧ g.Dominates a b := by
  rw [Dominators.dominates, decide_eq_true_eq, below_eq, ← hg.mem_reachable, ← hg.mem_reachable]
  by_cases ha : a ∈ g.reachable
  · rw [if_pos ha, List.mem_filter, decide_eq_true_eq, hg.mem_reachableWithout]
    simp only [ha, true_and, not_exists, not_and, not_not, Dominates]
  · simp [ha]

end Coherent

end FlowGraph

end LoopBounds
