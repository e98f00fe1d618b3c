import LoopBounds.Proofs.Flow.DominatorTree
import LoopBounds.Proofs.Flow.NaturalLoop

/-!
# How natural loops lie in each other

A loop consists of its header and of the blocks from which control can go to a latch
around the header. If a loop contains the header of another one, it contains all of that
loop, and two loops with a block in common are in this position one way or the other: the
headers dominate the common block, so one of them dominates the other.

A preheader is the only way into its loop, so control passes it before it comes to the
header for the first time.
-/

namespace LoopBounds

open FlowGraph

namespace FlowGraph

/-- Control can go from `b` to `c` without passing through `h`. -/
inductive WayAround (g : FlowGraph) (h : BlockId) : BlockId → BlockId → Prop
  | refl {b} : b ≠ h → WayAround g h b b
  | step {b c d} : b ≠ h → c ∈ g.succs b → WayAround g h c d → WayAround g h b d

/-- The edge from `t` to `h` leads back to a dominator. -/
def BackEdge (g : FlowGraph) (t h : BlockId) : Prop :=
  h ∈ g.succs t ∧ g.Reachable t ∧ g.Dominates h t

variable {g : FlowGraph} {b h p t : BlockId}

theorem WayAround.ne (hw : g.WayAround h b t) : b ≠ h := by
  cases hw with
  | refl hne => exact hne
  | step hne _ _ => exact hne

/-- When control comes to a block other than the entry for the first time, it comes from
a predecessor and has not been in the block. -/
theorem Trail.exists_arrival {w : List BlockId} (hw : g.Trail w) (hmem : h ∈ w)
    (hne : h ≠ .entry) :
    ∃ q u v, w = u ++ h :: q :: v ∧ h ∉ q :: v ∧ h ∈ g.succs q := by
  induction hw with
  | entry => exact absurd (List.mem_singleton.mp hmem) hne
  | @step q c v hv hc ih =>
    by_cases hin : h ∈ q :: v
    · obtain ⟨q', u, v', heq, hout, hq'⟩ := ih hin
      exact ⟨q', c :: u, v', by rw [heq, List.cons_append], hout, hq'⟩
    · obtain rfl := (List.mem_cons.mp hmem).resolve_right hin
      exact ⟨q, [], v, rfl, hin, hc⟩

namespace Coherent

variable (hg : g.Coherent)

include hg

theorem mem_latches_iff_backEdge : t ∈ g.latches g.dominators h ↔ g.BackEdge t h := by
  rw [hg.mem_latches]
  exact ⟨fun hl => ⟨hl.1, hl.2.2⟩, fun hb => ⟨hb.1, hb.2.1.succ hb.1, hb.2⟩⟩

/-- The walk backwards from the latches finds the blocks with a way around the header to
one of them. -/
theorem reached_iff_wayAround (hb : g.Reachable b) :
    Reached (g.reachable.filter (· ≠ h)) g.preds (g.latches g.dominators h) b ↔
      ∃ t, g.BackEdge t h ∧ g.WayAround h b t := by
  constructor
  · intro hr
    clear hb
    induction hr with
    | @start t ht hin =>
      exact ⟨t, hg.mem_latches_iff_backEdge.mp ht, .refl (hg.mem_reachable_ne.mp hin).2⟩
    | @step c b _ hedge hin ih =>
      obtain ⟨t, ht, hway⟩ := ih
      exact ⟨t, ht, .step (hg.mem_reachable_ne.mp hin).2 ((hg.edges b c).mpr hedge) hway⟩
  · rintro ⟨t, ht, hway⟩
    induction hway with
    | refl hne =>
      exact .start (hg.mem_latches_iff_backEdge.mpr ht) (hg.mem_reachable_ne.mpr ⟨hb, hne⟩)
    | @step b c t hne hedge _ ih =>
      exact .step (ih (hb.succ hedge) ht) ((hg.edges b c).mp hedge)
        (hg.mem_reachable_ne.mpr ⟨hb, hne⟩)

theorem mem_loopBlocks_iff_wayAround : b ∈ g.loopBlocks h ↔
    g.Reachable b ∧ (b = h ∨ ∃ t, g.BackEdge t h ∧ g.WayAround h b t) := by
  rw [hg.mem_loopBlocks]
  exact and_congr_right fun hb => or_congr_right (hg.reached_iff_wayAround hb)

/-- A loop that contains the header of another one contains all of that loop. The walk that
collects the inner loop never comes to the outer header, whose predecessors may lie outside
the outer loop: the two headers would dominate each other. -/
theorem loopBlocks_subset {l : Loop} (hl : l.Natural g) (hmem : h ∈ l.blocks) :
    ∀ b ∈ g.loopBlocks h, b ∈ l.blocks := by
  have hne {c : BlockId} (hc : Reached (g.reachable.filter (· ≠ h)) g.preds
      (g.latches g.dominators h) c) : c ≠ l.header := by
    rintro rfl
    have hdom := (hg.dominates_of_reached hc).antisymm (hl.dominates h hmem)
      (hl.reachable _ hl.header_mem)
    exact (hg.mem_reachable_ne.mp hc.mem_region).2 hdom.symm
  intro b hb
  rcases (hg.mem_loopBlocks.mp hb).2 with rfl | hr
  · exact hmem
  · clear hb
    induction hr with
    | @start t ht _ =>
      obtain ⟨hedge, hreach, hdom⟩ := hg.mem_latches_iff_backEdge.mp ht
      by_cases heq : h = l.header
      · subst heq
        exact hl.latch_mem t ((hl.latch_iff t hreach hedge).mpr hdom)
      · exact hl.entered t h hmem heq hreach hedge
    | @step c b hc hedge hin ih =>
      exact hl.entered b c ih (hne hc) (hg.mem_reachable_ne.mp hin).1
        ((hg.edges b c).mpr hedge)

end Coherent

end FlowGraph

namespace Loop.Natural

variable {g : FlowGraph} {l : Loop} (hl : l.Natural g)

include hl

theorem mem_of_dominates {a b : BlockId} (hb : b ∈ l.blocks) (hha : g.Dominates l.header a)
    (hab : g.Dominates a b) : a ∈ l.blocks := by
  obtain ⟨t, ht⟩ := hl.reachable b hb
  exact hl.lap_subset ht hb a (hl.mem_lap_of_between ht hb hha hab)

/-- Of two loops with a block in common, the one contains the header of the other. -/
theorem header_mem_or {m : Loop} {b : BlockId} (hm : m.Natural g) (hlb : b ∈ l.blocks)
    (hmb : b ∈ m.blocks) : l.header ∈ m.blocks ∨ m.header ∈ l.blocks := by
  have hld := hl.dominates b hlb
  have hmd := hm.dominates b hmb
  rcases hld.total hmd (hl.reachable b hlb) with h | h
  · exact .inr (hl.mem_of_dominates hlb h hmd)
  · exact .inl (hm.mem_of_dominates hmb h hld)

theorem header_eq {m : Loop} (hm : m.Natural g) (hml : m.header ∈ l.blocks)
    (hlm : l.header ∈ m.blocks) : l.header = m.header :=
  (hl.dominates _ hml).antisymm (hm.dominates _ hlm) (hm.reachable _ hm.header_mem)

end Loop.Natural

theorem eq_singleton_iff_of_nodup {α : Type} {l : List α} {x : α} (hl : l.Nodup) :
    l = [x] ↔ ∀ y, y ∈ l ↔ y = x := by
  rw [← List.perm_singleton, List.perm_ext_iff_of_nodup hl (List.nodup_singleton x)]
  simp

namespace FlowGraph.Simple

variable {g : FlowGraph} {h p : BlockId} {inside : BlockId → Bool} (hg : g.Simple)

include hg

/-- The preheader is the only predecessor from outside and has no other successor. -/
theorem preheader?_eq_some_iff : g.preheader? h inside = some p ↔
    (∀ q, h ∈ g.succs q ∧ inside q = false ↔ q = p) ∧ ∀ c, c ∈ g.succs p ↔ c = h := by
  have hpreds := eq_singleton_iff_of_nodup (x := p) ((hg.nodup_preds h).filter (!inside ·))
  simp only [List.mem_filter, Bool.not_eq_true', ← hg.edges] at hpreds
  rw [← hpreds, ← eq_singleton_iff_of_nodup (hg.nodup_succs p)]
  unfold preheader?
  split
  · rename_i q hq
    rw [hq]
    constructor
    · intro hp
      split_ifs at hp with hlen
      · obtain rfl := Option.some.inj hp
        obtain ⟨c, hc⟩ := List.length_eq_one_iff.mp hlen
        have hmem : q ∈ (g.preds h).filter (!inside ·) := hq ▸ List.mem_cons_self
        have hedge : h ∈ g.succs q := (hg.edges q h).mpr (List.mem_of_mem_filter hmem)
        rw [hc] at hedge ⊢
        exact ⟨rfl, by rw [List.mem_singleton.mp hedge]⟩
    · rintro ⟨heq, hsuccs⟩
      obtain ⟨rfl, -⟩ := List.cons.inj heq
      simp [hsuccs]
  · rename_i hnot
    simp only [reduceCtorEq, false_iff, not_and]
    exact fun heq => absurd heq (hnot p)

end FlowGraph.Simple

/-- Control passes the preheader before it comes to the header for the first time. -/
theorem Loop.Natural.passes_preheader {g : FlowGraph} {l : Loop} {p : BlockId}
    (hl : l.Natural g) (hp : ∀ q, l.header ∈ g.succs q ∧ q ∉ l.blocks ↔ q = p)
    (hne : l.header ≠ .entry) : g.Reachable p ∧ g.Dominates p l.header := by
  have hpass : ∀ t, g.Trail (l.header :: t) → p ∈ l.header :: t := by
    intro t ht
    obtain ⟨q, u, v, heq, hout, hedge⟩ := ht.exists_arrival List.mem_cons_self hne
    rw [heq] at ht ⊢
    have hq : g.Trail (q :: v) := Trail.drop (u := u ++ [l.header]) (by simpa using ht)
    have hmem : q ∉ l.blocks := fun hin => hout (hl.dominates q hin v hq)
    simp [(hp q).mp ⟨hedge, hmem⟩]
  exact ⟨Dominates.reachable hpass (hl.reachable _ hl.header_mem), hpass⟩

end LoopBounds
