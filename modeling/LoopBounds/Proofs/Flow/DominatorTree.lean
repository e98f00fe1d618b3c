import LoopBounds.Flow.Loops
import LoopBounds.Proofs.Flow.Dominance

/-!
# The dominator tree

The dominators of a reachable block form a chain, so a block other than the entry has one
closest strict dominator. These dominators span a tree below the entry. The walk down the
tree meets every reachable block once, and a block never before one that it dominates.
-/

namespace LoopBounds.FlowGraph

variable {g : FlowGraph} {a b c : BlockId}

theorem reachable_entry : g.Reachable .entry := ⟨[], .entry⟩

theorem Trail.entry_mem {t : List BlockId} (h : g.Trail t) : BlockId.entry ∈ t := by
  induction h with
  | entry => exact List.mem_cons_self
  | step _ _ ih => exact List.mem_cons_of_mem _ ih

theorem dominates_entry (b : BlockId) : g.Dominates .entry b := fun _ ht => ht.entry_mem

/-- A strict dominator dominates every way to the block. -/
theorem Dominates.of_succ (h : g.Dominates a c) (hne : a ≠ c) (hc : c ∈ g.succs b) :
    g.Dominates a b := fun t ht =>
  (List.mem_cons.mp (h (b :: t) (ht.step hc))).resolve_left hne

theorem exists_last {t : List BlockId} (h : a ∈ t) (b : BlockId) :
    ∃ u w c, t = u ++ c :: w ∧ (c = a ∨ c = b) ∧ a ∉ u ∧ b ∉ u := by
  induction t with
  | nil => cases h
  | cons d t ih =>
    by_cases hd : d = a ∨ d = b
    · exact ⟨[], t, d, rfl, hd, List.not_mem_nil, List.not_mem_nil⟩
    · rw [not_or] at hd
      obtain ⟨u, w, c, rfl, hc, ha, hb⟩ :=
        ih ((List.mem_cons.mp h).resolve_left (Ne.symm hd.1))
      refine ⟨d :: u, w, c, rfl, hc, ?_, ?_⟩
      · simp [ha, Ne.symm hd.1]
      · simp [hb, Ne.symm hd.2]

/-- The dominators of a reachable block form a chain: from the last of two that a trail
runs through, the trail to the block goes on without the other. -/
theorem Dominates.total (hac : g.Dominates a c) (hbc : g.Dominates b c) (hc : g.Reachable c) :
    g.Dominates a b ∨ g.Dominates b a := by
  by_contra hne
  simp only [not_or, Dominates, not_forall] at hne
  obtain ⟨⟨ta, hta, ha⟩, ⟨tb, htb, hb⟩⟩ := hne
  obtain ⟨t, ht⟩ := hc
  obtain ⟨u, w, d, heq, hd, hau, hbu⟩ := exists_last (hac t ht) b
  rw [heq] at ht
  have hglued {d : BlockId} {w w' : List BlockId} (heq : c :: t = u ++ d :: w)
      (ht : g.Trail (u ++ d :: w)) (hw : g.Trail (d :: w')) :
      ∃ t', u ++ d :: w' = c :: t' ∧ g.Trail (c :: t') := by
    have hglue := ht.append hw
    cases u with
    | nil =>
      obtain ⟨rfl, -⟩ := List.cons.inj heq
      exact ⟨w', rfl, hglue⟩
    | cons x u =>
      obtain ⟨rfl, -⟩ := List.cons.inj heq
      exact ⟨_, rfl, hglue⟩
  rcases hd with rfl | rfl
  · obtain ⟨t', ht', hglue⟩ := hglued heq ht htb
    have := hbc t' hglue
    rw [← ht'] at this
    exact (List.mem_append.mp this).elim hbu hb
  · obtain ⟨t', ht', hglue⟩ := hglued heq ht hta
    have := hac t' hglue
    rw [← ht'] at this
    exact (List.mem_append.mp this).elim hau ha

structure ClosestDominator (g : FlowGraph) (a b : BlockId) : Prop where
  reachable : g.Reachable b
  ne : a ≠ b
  dominates : g.Dominates a b
  closest : ∀ c, c ≠ b → g.Dominates c b → g.Dominates c a

namespace ClosestDominator

theorem reachable_left (h : g.ClosestDominator a b) : g.Reachable a :=
  h.dominates.reachable h.reachable

theorem unique {a' : BlockId} (h : g.ClosestDominator a b) (h' : g.ClosestDominator a' b) :
    a = a' :=
  (h'.closest a h.ne h.dominates).antisymm (h.closest a' h'.ne h'.dominates) h'.reachable_left

/-- The subtrees of two blocks with the same closest dominator have no block in common. -/
theorem eq_of_dominates {d : BlockId} (hb : g.ClosestDominator a b) (hc : g.ClosestDominator a c)
    (hbd : g.Dominates b d) (hcd : g.Dominates c d) (hd : g.Reachable d) : b = c := by
  by_contra hne
  rcases hbd.total hcd hd with h | h
  · have hba := hc.closest b hne h
    exact hb.ne (hb.dominates.antisymm hba hb.reachable)
  · have hca := hb.closest c (Ne.symm hne) h
    exact hc.ne (hc.dominates.antisymm hca hc.reachable)

end ClosestDominator

section Closest

variable {dominates : BlockId → BlockId → Bool} {candidates : List BlockId}

theorem closest_spec
    (hrefl : ∀ a ∈ candidates.filter (fun a => a ≠ b && dominates a b), dominates a a = true)
    (htrans : ∀ x y z, dominates x y = true → dominates y z = true → dominates x z = true)
    (htotal : ∀ x y, dominates x b = true → dominates y b = true →
      dominates x y = true ∨ dominates y x = true) :
    match closest dominates candidates b with
    | none => candidates.filter (fun a => a ≠ b && dominates a b) = []
    | some a => a ∈ candidates.filter (fun a => a ≠ b && dominates a b) ∧
        ∀ c ∈ candidates.filter (fun a => a ≠ b && dominates a b), dominates c a = true := by
  have hdom : ∀ a ∈ candidates.filter (fun a => a ≠ b && dominates a b),
      dominates a b = true := fun a ha => by simp_all
  unfold closest
  generalize candidates.filter (fun a => a ≠ b && dominates a b) = chain at hrefl hdom
  induction chain using List.reverseRecOn with
  | nil => rfl
  | append_singleton chain x ih =>
    have ih := ih (fun a ha => hrefl a (by simp [ha])) (fun a ha => hdom a (by simp [ha]))
    rw [List.foldl_append, List.foldl_cons, List.foldl_nil]
    revert ih
    cases chain.foldl _ none with
    | none =>
      rintro rfl
      simpa using hrefl x (by simp)
    | some old =>
      rintro ⟨hold, hall⟩
      dsimp only
      by_cases h : dominates old x = true
      · rw [if_pos h]
        refine ⟨by simp, ?_⟩
        intro c hc
        rcases List.mem_append.mp hc with hc | hc
        · exact htrans c old x (hall c hc) h
        · rw [List.mem_singleton.mp hc]
          exact hrefl x (by simp)
      · rw [if_neg h]
        refine ⟨List.mem_append_left _ hold, ?_⟩
        intro c hc
        rcases List.mem_append.mp hc with hc | hc
        · exact hall c hc
        · rw [List.mem_singleton.mp hc]
          exact (htotal old x (hdom old (by simp [hold])) (hdom x (by simp))).resolve_left h

end Closest

namespace Coherent

variable (hg : g.Coherent)

include hg

theorem isReachable_iff : g.dominators.isReachable b = true ↔ g.Reachable b := by
  rw [Dominators.isReachable, decide_eq_true_eq]
  exact hg.mem_reachable

theorem mem_below : b ∈ g.dominators.below a ↔
    g.Reachable a ∧ g.Reachable b ∧ g.Dominates a b := by
  rw [← hg.dominates_iff, Dominators.dominates, decide_eq_true_eq]

theorem mem_strictDominators : c ∈ g.reachable.filter
    (fun a => a ≠ b && g.dominators.dominates a b) ↔
    g.Reachable b ∧ c ≠ b ∧ g.Dominates c b := by
  simp only [List.mem_filter, Bool.and_eq_true, decide_eq_true_eq, hg.dominates_iff,
    hg.mem_reachable]
  exact ⟨fun h => ⟨h.2.2.2.1, h.2.1, h.2.2.2.2⟩,
    fun h => ⟨h.2.2.reachable h.1, h.2.1, h.2.2.reachable h.1, h.1, h.2.2⟩⟩

theorem idom?_eq_closest :
    g.dominators.idom? b = closest g.dominators.dominates g.reachable b := by
  by_cases hb : b.index < g.size
  · simp [Dominators.idom?, dominators, blocks, hb]
    rfl
  · have hout : ∀ c, c ∉ g.reachable.filter
        (fun a => a ≠ b && g.dominators.dominates a b) := fun c hc => by
      obtain ⟨t, ht⟩ := (hg.mem_strictDominators.mp hc).1
      exact hb (hg.trail_index_lt ht b List.mem_cons_self)
    have hnone : closest g.dominators.dominates g.reachable b = none := by
      unfold closest
      rw [List.eq_nil_iff_forall_not_mem.mpr hout]
      rfl
    rw [hnone]
    simp [Dominators.idom?, dominators, blocks, hb]

/-- The computed immediate dominator is the closest strict dominator, where there are
strict dominators at all. -/
theorem idom?_spec :
    match g.dominators.idom? b with
    | none => ∀ c, ¬ (g.Reachable b ∧ c ≠ b ∧ g.Dominates c b)
    | some a => g.ClosestDominator a b := by
  have hrefl : ∀ a ∈ g.reachable.filter (fun a => a ≠ b && g.dominators.dominates a b),
      g.dominators.dominates a a = true := fun a ha => by
    obtain ⟨hb, -, hd⟩ := hg.mem_strictDominators.mp ha
    exact hg.dominates_iff.mpr ⟨hd.reachable hb, hd.reachable hb, .refl a⟩
  have htrans : ∀ x y z, g.dominators.dominates x y = true → g.dominators.dominates y z = true →
      g.dominators.dominates x z = true := fun x y z hxy hyz => by
    rw [hg.dominates_iff] at hxy hyz ⊢
    exact ⟨hxy.1, hyz.2.1, hxy.2.2.trans hyz.2.2⟩
  have htotal : ∀ x y, g.dominators.dominates x b = true → g.dominators.dominates y b = true →
      g.dominators.dominates x y = true ∨ g.dominators.dominates y x = true := fun x y hx hy => by
    rw [hg.dominates_iff] at hx hy
    simp only [hg.dominates_iff, hx.1, hy.1, true_and]
    exact hx.2.2.total hy.2.2 hx.2.1
  have hspec := closest_spec hrefl htrans htotal
  rw [hg.idom?_eq_closest]
  revert hspec
  cases closest g.dominators.dominates g.reachable b with
  | none =>
    intro hnil c hc
    have := hg.mem_strictDominators.mpr hc
    rw [hnil] at this
    cases this
  | some a =>
    rintro ⟨ha, hall⟩
    obtain ⟨hb, hne, hd⟩ := hg.mem_strictDominators.mp ha
    refine ⟨hb, hne, hd, ?_⟩
    intro c hne hc
    exact (hg.dominates_iff.mp (hall c (hg.mem_strictDominators.mpr ⟨hb, hne, hc⟩))).2.2

theorem idom?_eq_some_iff : g.dominators.idom? b = some a ↔ g.ClosestDominator a b := by
  have hspec := hg.idom?_spec (b := b)
  revert hspec
  cases g.dominators.idom? b with
  | none =>
    intro hspec
    simp only [reduceCtorEq, false_iff]
    exact fun h => hspec a ⟨h.reachable, h.ne, h.dominates⟩
  | some d =>
    intro hd
    constructor
    · exact fun h => Option.some.inj h ▸ hd
    · exact fun h => congrArg some (hd.unique h)

/-- Every reachable block other than the entry has a closest strict dominator. -/
theorem exists_closestDominator (hb : g.Reachable b) (hne : b ≠ .entry) :
    ∃ a, g.ClosestDominator a b := by
  have hspec := hg.idom?_spec (b := b)
  revert hspec
  cases g.dominators.idom? b with
  | none => exact fun h => absurd ⟨hb, Ne.symm hne, dominates_entry b⟩ (h .entry)
  | some a => exact fun h => ⟨a, h⟩

theorem mem_children : b ∈ g.dominators.children a ↔ g.ClosestDominator a b := by
  rw [Dominators.children, List.mem_filter, decide_eq_true_eq, hg.idom?_eq_some_iff]
  exact ⟨fun h => h.2, fun h => ⟨hg.mem_reachable.mpr h.reachable, h⟩⟩

omit hg in
theorem nodup_children (a : BlockId) : (g.dominators.children a).Nodup :=
  nodup_of_pairwise (pairwise_reachable.filter _)

theorem exists_child (hb : g.Reachable b) (hne : a ≠ b) (hab : g.Dominates a b) :
    ∃ c ∈ g.dominators.children a, g.Dominates c b := by
  obtain ⟨t, ht⟩ := hb
  induction hn : t.length using Nat.strong_induction_on generalizing b t with
  | _ n ih =>
    have hentry : b ≠ .entry := by
      rintro rfl
      exact hne (List.mem_singleton.mp (hab [] .entry))
    obtain ⟨d, hd⟩ := hg.exists_closestDominator ⟨t, ht⟩ hentry
    by_cases hda : a = d
    · subst hda
      exact ⟨b, hg.mem_children.mpr hd, .refl b⟩
    · obtain ⟨u, w, rfl⟩ :=
        List.append_of_mem ((List.mem_cons.mp (hd.dominates t ht)).resolve_left hd.ne)
      have hlen : w.length < n := by
        subst hn
        simp only [List.length_append, List.length_cons]
        omega
      obtain ⟨c, hc, hcd⟩ := ih w.length hlen hda (hd.closest a hne hab) w
        (Trail.drop (u := b :: u) ht) rfl
      exact ⟨c, hc, hcd.trans hd.dominates⟩

section PostOrder

theorem dominates_of_mem_postOrder {depth : ℕ} (hb : g.Reachable b)
    (hc : c ∈ g.dominators.postOrder depth b) : g.Reachable c ∧ g.Dominates b c := by
  induction depth generalizing b with
  | zero => cases hc
  | succ depth ih =>
    rcases List.mem_append.mp hc with hc | hc
    · obtain ⟨x, hx, hc⟩ := List.mem_flatMap.mp hc
      have hx := hg.mem_children.mp hx
      obtain ⟨hr, hd⟩ := ih hx.reachable hc
      exact ⟨hr, hx.dominates.trans hd⟩
    · rw [List.mem_singleton.mp hc]
      exact ⟨hb, .refl b⟩

omit hg in
theorem nodup_below : (g.dominators.below a).Nodup := by
  rw [below_eq]
  split
  · exact nodup_of_pairwise (pairwise_reachable.filter _)
  · exact List.nodup_nil

theorem length_below_le : (g.dominators.below a).length ≤ g.size := by
  have hsubset : g.dominators.below a ⊆ g.blocks := fun c hc =>
    mem_blocks.mpr (hg.index_lt_of_reachable (hg.mem_below.mp hc).2.1)
  simpa [blocks] using (List.subperm_of_subset nodup_below hsubset).length_le

theorem length_below_lt (h : g.ClosestDominator a b) :
    (g.dominators.below b).length < (g.dominators.below a).length := by
  have hnodup : (a :: g.dominators.below b).Nodup := by
    refine List.nodup_cons.mpr ⟨fun hmem => ?_, nodup_below⟩
    have hba := (hg.mem_below.mp hmem).2.2
    exact h.ne (h.dominates.antisymm hba h.reachable)
  have hsubset : a :: g.dominators.below b ⊆ g.dominators.below a := by
    intro c hc
    rcases List.mem_cons.mp hc with rfl | hc
    · exact hg.mem_below.mpr ⟨h.reachable_left, h.reachable_left, .refl c⟩
    · obtain ⟨-, hr, hd⟩ := hg.mem_below.mp hc
      exact hg.mem_below.mpr ⟨h.reachable_left, hr, h.dominates.trans hd⟩
  exact (List.subperm_of_subset hnodup hsubset).length_le

/-- With as much depth as there are blocks below, the walk misses none of them. -/
theorem mem_postOrder {depth : ℕ} (hb : g.Reachable b)
    (hdepth : (g.dominators.below b).length ≤ depth) (hc : g.Reachable c)
    (hbc : g.Dominates b c) : c ∈ g.dominators.postOrder depth b := by
  induction depth generalizing b with
  | zero =>
    have hmem := hg.mem_below.mpr ⟨hb, hb, .refl b⟩
    rw [List.length_eq_zero_iff.mp (Nat.le_zero.mp hdepth)] at hmem
    cases hmem
  | succ depth ih =>
    by_cases hne : b = c
    · exact List.mem_append_right _ (by simp [hne])
    · obtain ⟨x, hx, hxc⟩ := hg.exists_child hc hne hbc
      have hx' := hg.mem_children.mp hx
      have := hg.length_below_lt hx'
      apply List.mem_append_left
      exact List.mem_flatMap.mpr ⟨x, hx, ih hx'.reachable (by omega) hxc⟩

/-- No block comes before one that it dominates, so in particular none comes twice. -/
theorem pairwise_postOrder {depth : ℕ} (hb : g.Reachable b) :
    (g.dominators.postOrder depth b).Pairwise fun x y => ¬ g.Dominates x y := by
  induction depth generalizing b with
  | zero => exact .nil
  | succ depth ih =>
    refine List.pairwise_append.mpr
      ⟨List.pairwise_flatMap.mpr ⟨?_, ?_⟩, List.pairwise_singleton _ _, ?_⟩
    · exact fun x hx => ih (hg.mem_children.mp hx).reachable
    · refine (nodup_children b).imp_of_mem ?_
      intro x y hx hy hne u hu w hw huw
      have hx := hg.mem_children.mp hx
      have hy := hg.mem_children.mp hy
      have hu := hg.dominates_of_mem_postOrder hx.reachable hu
      have hw := hg.dominates_of_mem_postOrder hy.reachable hw
      exact hne (hx.eq_of_dominates hy (hu.2.trans huw) hw.2 hw.1)
    · intro u hu y hy hub
      rw [List.mem_singleton.mp hy] at hub
      obtain ⟨x, hx, hux⟩ := List.mem_flatMap.mp hu
      have hx := hg.mem_children.mp hx
      have hxb := (hg.dominates_of_mem_postOrder hx.reachable hux).2.trans hub
      exact hx.ne (hx.dominates.antisymm hxb hx.reachable)

end PostOrder

end Coherent

end LoopBounds.FlowGraph
