import LoopBounds.Proofs.Flow.LoopForest

/-!
# Dominators are exact

The search for dominators follows the outgoing edges only, so nothing is asked of the
incoming ones. In every graph whose edges lead to its blocks the computed dominators are
those that the trails give, and the immediate ones span a tree of the reachable blocks.
-/

namespace LoopBounds

open Relation

def Dominators.Child (t : Dominators) (a c : BlockId) : Prop := c ∈ t.children a

/-- What `t` says about dominance is what the trails of `g` say. -/
structure Dominators.Exact (t : Dominators) (g : FlowGraph) : Prop where
  isReachable : ∀ b, t.isReachable b = true ↔ g.Reachable b
  dominates : ∀ a b, t.dominates a b = true ↔ g.Reachable a ∧ g.Reachable b ∧ g.Dominates a b
  isSome_idom? : ∀ b, (t.idom? b).isSome = true ↔ g.Reachable b ∧ b ≠ .entry
  idom? : ∀ a b, t.idom? b = some a ↔ g.ClosestDominator a b
  /-- There is only one block that can be meant by the closest. -/
  closest_unique : ∀ a a' b, g.ClosestDominator a b → g.ClosestDominator a' b → a = a'
  mem_children : ∀ a b, b ∈ t.children a ↔ t.idom? b = some a
  children_ascending : ∀ a, (t.children a).Pairwise (·.index < ·.index)
  /-- The children form a tree: only the entry has no parent, no other block has two, -/
  root : ∀ a, ¬ t.Child a .entry
  parent : ∀ b, g.Reachable b → b ≠ .entry → ∃! a, t.Child a b
  /-- no block is below itself, and the blocks below the entry are those it reaches. -/
  acyclic : ∀ b, ¬ TransGen t.Child b b
  spans : ∀ b, ReflTransGen t.Child .entry b ↔ g.Reachable b

namespace FlowGraph

variable {g : FlowGraph} {a b c : BlockId}

theorem ClosestDominator.ne_entry (h : g.ClosestDominator a b) : b ≠ .entry := by
  rintro rfl
  exact h.ne (List.mem_singleton.mp (h.dominates [] .entry))

namespace Coherent

variable (hg : g.Coherent)

include hg

theorem isSome_idom?_iff : (g.dominators.idom? b).isSome = true ↔ g.Reachable b ∧ b ≠ .entry := by
  rw [Option.isSome_iff_exists]
  constructor
  · rintro ⟨a, ha⟩
    have h := hg.idom?_eq_some_iff.mp ha
    exact ⟨h.reachable, h.ne_entry⟩
  · rintro ⟨hb, hne⟩
    obtain ⟨a, ha⟩ := hg.exists_closestDominator hb hne
    exact ⟨a, hg.idom?_eq_some_iff.mpr ha⟩

theorem ne_and_dominates_of_transGen (h : TransGen g.dominators.Child a b) :
    g.Reachable b ∧ a ≠ b ∧ g.Dominates a b := by
  induction h with
  | single h =>
    have h := hg.mem_children.mp h
    exact ⟨h.reachable, h.ne, h.dominates⟩
  | tail _ h ih =>
    obtain ⟨hb, -, hab⟩ := ih
    have h := hg.mem_children.mp h
    refine ⟨h.reachable, ?_, hab.trans h.dominates⟩
    rintro rfl
    exact h.ne (h.dominates.antisymm hab h.reachable)

theorem reflTransGen_child (hb : g.Reachable b) :
    ReflTransGen g.dominators.Child .entry b := by
  obtain ⟨t, ht⟩ := hb
  induction hn : t.length using Nat.strong_induction_on generalizing b t with
  | _ n ih =>
    by_cases hne : b = .entry
    · exact hne ▸ .refl
    · obtain ⟨d, hd⟩ := hg.exists_closestDominator ⟨t, ht⟩ hne
      obtain ⟨u, w, rfl⟩ :=
        List.append_of_mem ((List.mem_cons.mp (hd.dominates t ht)).resolve_left hd.ne)
      have hlength : w.length < n := by
        subst hn
        simp only [List.length_append, List.length_cons]
        omega
      have hpath := ih w.length hlength w (Trail.drop (u := b :: u) ht) rfl
      exact hpath.tail (hg.mem_children.mpr hd)

theorem reachable_of_reflTransGen (h : ReflTransGen g.dominators.Child .entry b) :
    g.Reachable b := by
  cases h with
  | refl => exact reachable_entry
  | tail _ h => exact (hg.mem_children.mp h).reachable

theorem exact_dominators : g.dominators.Exact g where
  isReachable b := hg.isReachable_iff
  dominates a b := hg.dominates_iff
  isSome_idom? b := hg.isSome_idom?_iff
  idom? a b := hg.idom?_eq_some_iff
  closest_unique a a' b := ClosestDominator.unique
  mem_children a b := hg.mem_children.trans hg.idom?_eq_some_iff.symm
  children_ascending a := pairwise_reachable.filter _
  root a h := (hg.mem_children.mp h).ne_entry rfl
  parent b hb hne := by
    obtain ⟨a, ha⟩ := hg.exists_closestDominator hb hne
    exact ⟨a, hg.mem_children.mpr ha, fun d hd => (hg.mem_children.mp hd).unique ha⟩
  acyclic b h := (hg.ne_and_dominates_of_transGen h).2.1 rfl
  spans b := ⟨hg.reachable_of_reflTransGen, hg.reflTransGen_child⟩

end Coherent

theorem ClosestDominator.congr {g' : FlowGraph} (htrails : ∀ t, g.Trail t ↔ g'.Trail t)
    (h : g.ClosestDominator a b) : g'.ClosestDominator a b where
  reachable := h.reachable.imp fun _ => (htrails _).mp
  ne := h.ne
  dominates t ht := h.dominates t ((htrails _).mpr ht)
  closest c hne hc t ht :=
    h.closest c hne (fun u hu => hc u ((htrails _).mp hu)) t ((htrails _).mpr ht)

end FlowGraph

theorem Dominators.Exact.congr {t : Dominators} {g g' : FlowGraph}
    (h : t.Exact g) (htrails : ∀ u, g.Trail u ↔ g'.Trail u) : t.Exact g' := by
  have hreach (b : BlockId) : g.Reachable b ↔ g'.Reachable b := by
    simp only [FlowGraph.Reachable, htrails]
  have hdom (a b : BlockId) : g.Dominates a b ↔ g'.Dominates a b := by
    simp only [FlowGraph.Dominates, htrails]
  have hclosest (a b : BlockId) : g.ClosestDominator a b ↔ g'.ClosestDominator a b :=
    ⟨.congr htrails, .congr fun u => (htrails u).symm⟩
  exact {
    isReachable := fun b => (h.isReachable b).trans (hreach b)
    dominates := fun a b => by rw [h.dominates, hreach, hreach, hdom]
    isSome_idom? := fun b => by rw [h.isSome_idom?, hreach]
    idom? := fun a b => (h.idom? a b).trans (hclosest a b)
    closest_unique := fun a a' b hab hab' =>
      h.closest_unique a a' b ((hclosest a b).mpr hab) ((hclosest a' b).mpr hab')
    mem_children := h.mem_children
    children_ascending := h.children_ascending
    root := h.root
    parent := fun b hb => h.parent b ((hreach b).mpr hb)
    acyclic := h.acyclic
    spans := fun b => (h.spans b).trans (hreach b) }

namespace FlowGraph

variable {g : FlowGraph} {b c : BlockId}

/-- There is an entry, and the edges out of blocks lead to blocks. -/
structure Closed (g : FlowGraph) : Prop where
  entry : 0 < g.size
  target : ∀ b c, b.index < g.size → c ∈ g.succs b → c.index < g.size

/-- The graph `g` with the edges out of its blocks recorded at both ends. -/
def mirrored (g : FlowGraph) : FlowGraph where
  size := g.size
  succs b := if b.index < g.size then g.succs b else []
  preds c := g.blocks.filter (c ∈ g.succs ·)

theorem mem_succs_mirrored : c ∈ g.mirrored.succs b ↔ b.index < g.size ∧ c ∈ g.succs b := by
  simp [mirrored]

namespace Closed

variable (hg : g.Closed)

include hg

theorem mirrored_coherent : g.mirrored.Coherent where
  edges b c := by
    rw [mem_succs_mirrored]
    simp [mirrored, mem_blocks]
  target b c h := hg.target b c (mem_succs_mirrored.mp h).1 (mem_succs_mirrored.mp h).2
  entry := hg.entry

theorem index_lt_of_trail {t : List BlockId} (h : g.Trail t) : ∀ b ∈ t, b.index < g.size := by
  induction h with
  | entry => simpa [BlockId.entry] using hg.entry
  | step _ hc ih =>
    exact List.forall_mem_cons.mpr ⟨hg.target _ _ (ih _ List.mem_cons_self) hc, ih⟩

theorem trail_mirrored_iff {t : List BlockId} : g.mirrored.Trail t ↔ g.Trail t := by
  constructor
  · intro h
    induction h with
    | entry => exact .entry
    | step _ hc ih => exact ih.step (mem_succs_mirrored.mp hc).2
  · intro h
    induction h with
    | entry => exact .entry
    | step ht hc ih =>
      have hlt := hg.index_lt_of_trail ht _ List.mem_cons_self
      exact ih.step (mem_succs_mirrored.mpr ⟨hlt, hc⟩)

theorem mem_walk_mirrored_iff {region : List BlockId} :
    b ∈ walk region g.mirrored.succs [.entry] ↔ b ∈ walk region g.succs [.entry] := by
  simp only [mem_walk_entry, hg.trail_mirrored_iff]

theorem dominators_mirrored : g.mirrored.dominators = g.dominators := by
  have hblocks : g.mirrored.blocks = g.blocks := rfl
  have hreachable : g.mirrored.reachable = g.reachable := by
    simp only [reachable, hblocks, hg.mem_walk_mirrored_iff]
  have hwithout (a b : BlockId) : b ∈ g.mirrored.reachableWithout a ↔
      b ∈ g.reachableWithout a := by
    simp only [reachableWithout, hblocks, hg.mem_walk_mirrored_iff]
  simp only [dominators, hblocks, hreachable, hwithout]

/-- The dominators of every graph are exact, whatever its incoming edges say. -/
theorem dominators_exact : g.dominators.Exact g := by
  rw [← hg.dominators_mirrored]
  exact hg.mirrored_coherent.exact_dominators.congr fun t => hg.trail_mirrored_iff

end Closed

end FlowGraph

/-- Block 6 is entered from blocks 4 and 5, so only block 1 is on all ways to it; block 7 is a
child of none. -/
theorem tangled_dominators_exact : tangled.flow.Closed ∧
    tangled.flow.dominators.Exact tangled.flow ∧
    tangled.flow.dominators.children ⟨1⟩ = [⟨2⟩, ⟨5⟩, ⟨6⟩] := by
  have hclosed : tangled.flow.Closed := ⟨by decide +kernel, fun b c _ h =>
    tangled_built.simple.target b c h⟩
  exact ⟨hclosed, hclosed.dominators_exact, by decide +kernel⟩

end LoopBounds
