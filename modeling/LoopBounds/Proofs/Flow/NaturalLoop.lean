import LoopBounds.Flow.Loops
import LoopBounds.Proofs.Flow.Dominance

/-!
# Natural loops and laps

The loop of a header is made up of the header and what a walk backwards from the latches
reaches around it. It is natural: the header dominates every block of the loop,
the only way in is through the header, and the edges back to the header are those from
inside. A trail goes through a loop in laps, each of which starts at the header. Within
one lap a block comes after all of its dominators that lie in the loop.
-/

namespace LoopBounds

open FlowGraph

def FlowGraph.loopBlocks (g : FlowGraph) (h : BlockId) : List BlockId :=
  let inside := walk (g.reachable.filter (· ≠ h)) g.preds (g.latches g.dominators h)
  g.reachable.filter fun b => b = h || b ∈ inside

/-- The loop with header `h`, apart from its place among the others. -/
def FlowGraph.naturalLoop (g : FlowGraph) (h : BlockId) : Loop :=
  { Loop.start ⟨0⟩ h (g.latches g.dominators h) with blocks := g.loopBlocks h }

namespace Loop

/-- How often a trail has come back to the header since it last entered the loop. -/
def iteration (l : Loop) : List BlockId → Nat
  | c :: b :: t =>
      if c = l.header then if b ∈ l.latches then l.iteration (b :: t) + 1 else 0
      else l.iteration (b :: t)
  | _ => 0

/-- The blocks run through since the trail last came to the header, the header included. -/
def lap (l : Loop) : List BlockId → List BlockId
  | [] => []
  | b :: t => if b = l.header then [b] else b :: l.lap t

/-- What makes `l` the natural loop of its header. -/
structure Natural (l : Loop) (g : FlowGraph) : Prop where
  header_mem : l.header ∈ l.blocks
  reachable : ∀ b ∈ l.blocks, g.Reachable b
  dominates : ∀ b ∈ l.blocks, g.Dominates l.header b
  entered : ∀ b c, c ∈ l.blocks → c ≠ l.header → g.Reachable b → c ∈ g.succs b → b ∈ l.blocks
  latch_iff : ∀ b, g.Reachable b → l.header ∈ g.succs b →
    (b ∈ l.latches ↔ g.Dominates l.header b)
  latch_mem : ∀ b ∈ l.latches, b ∈ l.blocks
  back_edge : ∃ b ∈ l.latches, l.header ∈ g.succs b

/-- Whether a loop is natural depends on its header, its blocks and its latches only. -/
theorem Natural.of_eq {g : FlowGraph} {l m : Loop} (hm : m.Natural g)
    (hheader : l.header = m.header) (hblocks : l.blocks = m.blocks)
    (hlatches : l.latches = m.latches) : l.Natural g := by
  cases l
  cases m
  obtain rfl : _ = _ := hheader
  obtain rfl : _ = _ := hblocks
  obtain rfl : _ = _ := hlatches
  exact ⟨hm.header_mem, hm.reachable, hm.dominates, hm.entered, hm.latch_iff, hm.latch_mem,
    hm.back_edge⟩

end Loop

namespace FlowGraph.Coherent

variable {g : FlowGraph} (hg : g.Coherent)

include hg

theorem mem_latches {h b : BlockId} :
    b ∈ g.latches g.dominators h ↔
      h ∈ g.succs b ∧ g.Reachable h ∧ g.Reachable b ∧ g.Dominates h b := by
  rw [latches, List.mem_filter, hg.dominates_iff, ← hg.edges]

theorem mem_loopBlocks {h b : BlockId} : b ∈ g.loopBlocks h ↔ g.Reachable b ∧
    (b = h ∨ Reached (g.reachable.filter (· ≠ h)) g.preds (g.latches g.dominators h) b) := by
  simp only [loopBlocks, List.mem_filter, Bool.or_eq_true, decide_eq_true_eq, mem_walk_iff,
    hg.mem_reachable]

theorem mem_reachable_ne {h b : BlockId} :
    b ∈ g.reachable.filter (· ≠ h) ↔ g.Reachable b ∧ b ≠ h := by
  rw [List.mem_filter, decide_eq_true_eq, hg.mem_reachable]

/-- A block from which a latch is reached around the header is dominated by the header. -/
theorem dominates_of_reached {h b : BlockId}
    (hb : Reached (g.reachable.filter (· ≠ h)) g.preds (g.latches g.dominators h) b) :
    g.Dominates h b := by
  induction hb with
  | start hs _ => exact (hg.mem_latches.mp hs).2.2.2
  | @step c b hc hb _ ih =>
    intro t ht
    have hne : h ≠ c := Ne.symm (hg.mem_reachable_ne.mp hc.mem_region).2
    exact (List.mem_cons.mp (ih (b :: t) (ht.step ((hg.edges b c).mpr hb)))).resolve_left hne

theorem natural_naturalLoop {h : BlockId} (hlatches : g.latches g.dominators h ≠ []) :
    (g.naturalLoop h).Natural g := by
  obtain ⟨a, ha⟩ := List.exists_mem_of_ne_nil _ hlatches
  have hh : g.Reachable h := (hg.mem_latches.mp ha).2.1
  refine ⟨?_, ?_, ?_, ?_, ?_, ?_, ?_⟩
  · exact hg.mem_loopBlocks.mpr ⟨hh, .inl rfl⟩
  · exact fun b hb => (hg.mem_loopBlocks.mp hb).1
  · intro b hb
    rcases (hg.mem_loopBlocks.mp hb).2 with rfl | hb
    · exact Dominates.refl b
    · exact hg.dominates_of_reached hb
  · intro b c hc hne hb hedge
    have hc := (hg.mem_loopBlocks.mp hc).2.resolve_left hne
    refine hg.mem_loopBlocks.mpr ⟨hb, ?_⟩
    by_cases hbh : b = h
    · exact .inl hbh
    · exact .inr (.step hc ((hg.edges b c).mp hedge) (hg.mem_reachable_ne.mpr ⟨hb, hbh⟩))
  · intro b hb hedge
    exact hg.mem_latches.trans ⟨fun h => h.2.2.2, fun h => ⟨hedge, hh, hb, h⟩⟩
  · intro b hb
    have hr := (hg.mem_latches.mp hb).2.2.1
    refine hg.mem_loopBlocks.mpr ⟨hr, ?_⟩
    by_cases hbh : b = h
    · exact .inl hbh
    · exact .inr (.start hb (hg.mem_reachable_ne.mpr ⟨hr, hbh⟩))
  · exact ⟨a, ha, (hg.mem_latches.mp ha).1⟩

end FlowGraph.Coherent

namespace Loop

variable {g : FlowGraph} {l : Loop}

theorem lap_eq {t : List BlockId} (h : l.header ∈ t) :
    ∃ u w, t = u ++ l.header :: w ∧ l.lap t = u ++ [l.header] := by
  induction t with
  | nil => cases h
  | cons b t ih =>
    by_cases hb : b = l.header
    · exact ⟨[], t, by rw [hb]; rfl, by rw [lap, if_pos hb, hb]; rfl⟩
    · obtain ⟨u, w, ht, hlap⟩ := ih ((List.mem_cons.mp h).resolve_left (Ne.symm hb))
      exact ⟨b :: u, w, by rw [ht]; rfl, by rw [lap, if_neg hb, hlap]; rfl⟩

namespace Natural

variable (hl : l.Natural g)

include hl

theorem header_mem_trail {b : BlockId} {t : List BlockId} (hb : b ∈ l.blocks)
    (ht : g.Trail (b :: t)) : l.header ∈ b :: t := hl.dominates b hb t ht

theorem mem_latches_iff {b : BlockId} (hb : g.Reachable b) (he : l.header ∈ g.succs b) :
    b ∈ l.latches ↔ b ∈ l.blocks :=
  ⟨hl.latch_mem b, fun h => (hl.latch_iff b hb he).mpr (hl.dominates b h)⟩

/-- Control comes into the loop through its header only. -/
theorem eq_header_of_edge {b c : BlockId} (hb : g.Reachable b) (he : c ∈ g.succs b)
    (hc : c ∈ l.blocks) (hout : b ∉ l.blocks) : c = l.header := by
  by_contra hne
  exact hout (hl.entered b c hc hne hb he)

theorem not_mem_of_dominates {a b : BlockId} (hb : g.Reachable b) (he : l.header ∈ g.succs b)
    (hout : b ∉ l.blocks) (hd : g.Dominates a b) : a ∉ l.blocks := fun ha =>
  hout (hl.latch_mem b ((hl.latch_iff b hb he).mpr ((hl.dominates a ha).trans hd)))

theorem eq_header_of_dominates {a : BlockId} (ha : a ∈ l.blocks)
    (hd : g.Dominates a l.header) : a = l.header :=
  (hl.dominates a ha).antisymm hd (hl.reachable a ha) |>.symm

/-- The current lap has run through all dominators of its block that the header dominates:
the trail before the lap may be exchanged for one that avoids them. -/
theorem mem_lap_of_between {a b : BlockId} {t : List BlockId} (ht : g.Trail (b :: t))
    (hb : b ∈ l.blocks) (hha : g.Dominates l.header a) (hab : g.Dominates a b) :
    a ∈ l.lap (b :: t) := by
  obtain ⟨u, w, heq, hlap⟩ := lap_eq (hl.header_mem_trail hb ht)
  rw [hlap]
  by_cases hne : a = l.header
  · exact hne ▸ List.mem_append_right _ List.mem_cons_self
  · obtain ⟨w', hw', havoid⟩ := hha.exists_trail_avoiding hne (hab.reachable ⟨t, ht⟩)
    have hglued : g.Trail (u ++ l.header :: w') := Trail.append (heq ▸ ht) hw'
    have hmem : a ∈ u ++ l.header :: w' := by
      cases u with
      | nil =>
        obtain ⟨rfl, -⟩ := List.cons.inj heq
        exact hab w' hw'
      | cons c u =>
        obtain ⟨rfl, -⟩ := List.cons.inj heq
        exact hab _ hglued
    exact List.mem_append_left _ ((List.mem_append.mp hmem).resolve_right havoid)

/-- The current lap has run through all dominators that lie in the loop. -/
theorem mem_lap_of_dominates {a b : BlockId} {t : List BlockId} (ht : g.Trail (b :: t))
    (hb : b ∈ l.blocks) (ha : a ∈ l.blocks) (hd : g.Dominates a b) :
    a ∈ l.lap (b :: t) := hl.mem_lap_of_between ht hb (hl.dominates a ha) hd

theorem lap_subset {b : BlockId} {t : List BlockId} (ht : g.Trail (b :: t))
    (hb : b ∈ l.blocks) : ∀ c ∈ l.lap (b :: t), c ∈ l.blocks := by
  induction t generalizing b with
  | nil =>
    intro c hc
    unfold Loop.lap Loop.lap at hc
    split at hc <;> simp_all
  | cons d t ih =>
    intro c hc
    unfold Loop.lap at hc
    by_cases hh : b = l.header
    · simp_all
    · rw [if_neg hh] at hc
      rcases List.mem_cons.mp hc with rfl | hc
      · exact hb
      · cases ht with
        | step ht hedge => exact ih ht (hl.entered d b hb hh ⟨t, ht⟩ hedge) c hc

section Entry

variable (hentry : ∀ b, BlockId.entry ∉ g.succs b)

include hentry

theorem entry_not_mem : BlockId.entry ∉ l.blocks := by
  intro hmem
  have hh : l.header = .entry := List.mem_singleton.mp (hl.dominates _ hmem [] .entry)
  obtain ⟨b, -, he⟩ := hl.back_edge
  exact hentry b (hh ▸ he)

theorem exists_way_in : ∃ b, b ∉ l.blocks ∧ g.Reachable b ∧ l.header ∈ g.succs b := by
  obtain ⟨t, ht⟩ := hl.reachable _ hl.header_mem
  suffices h : ∀ t, g.Trail t → ∀ c ∈ t.head?, c ∈ l.blocks →
      ∃ b, b ∉ l.blocks ∧ g.Reachable b ∧ l.header ∈ g.succs b from
    h _ ht _ rfl hl.header_mem
  intro t ht
  induction ht with
  | entry =>
    intro c hc hmem
    cases hc
    exact absurd hmem (hl.entry_not_mem hentry)
  | @step b c t ht he ih =>
    intro d hd hmem
    obtain rfl : c = d := Option.some.inj hd
    by_cases hb : b ∈ l.blocks
    · exact ih b rfl hb
    · exact ⟨b, hb, ⟨t, ht⟩, hl.eq_header_of_edge ⟨t, ht⟩ he hmem hb ▸ he⟩

end Entry

end Natural

end Loop

end LoopBounds
