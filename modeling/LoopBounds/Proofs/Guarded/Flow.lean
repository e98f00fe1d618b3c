import LoopBounds.Proofs.Guarded.Reads

/-!
# Guarded analyses of control

The searches in the flow graph read every block that they come to, and the immediate dominators
read the table of dominated blocks under its keys. In a flow graph that records its edges at both
ends, nothing of this is ever missing.
-/

namespace LoopBounds.Guarded

section Walk

variable (f : Func) (next : Block → List BlockId) (skip : BlockId → Bool)

/-- Adds to `seen` all blocks that can be reached from `work` along `next` without one to skip. -/
def walkFrom (seen : List BlockId) : List BlockId → Guarded (List BlockId)
  | [] => pure seen
  | b :: work =>
      if b ∈ seen ∨ skip b then walkFrom seen work
      else if b.index < f.blocks.size then walkFrom (b :: seen) (next (f.block b) ++ work)
      else throw (.noBlock b)
termination_by work => pending (fun b => next (f.block b)) seen f.blockIds + work.length
decreasing_by
  · simp
  · rename_i hseen hlt
    have hmem : b ∈ f.blockIds := FlowGraph.mem_blocks (g := f.flow).mpr hlt
    have := pending_cons_add_le (fun b => next (f.block b)) (not_or.mp hseen).1 hmem
    simp only [List.length_append, List.length_cons]
    omega

variable {f next skip}

theorem walkFrom_eq {region : List BlockId}
    (hregion : ∀ b, b ∈ region ↔ b.index < f.blocks.size ∧ skip b = false)
    (hnext : ∀ b, ∀ c ∈ next (f.block b), c.index < f.blocks.size) {seen work : List BlockId}
    (hwork : ∀ b ∈ work, b.index < f.blocks.size) : walkFrom f next skip seen work =
      pure (LoopBounds.walkFrom region (fun b => next (f.block b)) seen work) := by
  fun_induction walkFrom f next skip seen work with
  | case1 seen => rw [LoopBounds.walkFrom]
  | case2 seen b work h ih =>
    rw [LoopBounds.walkFrom, if_pos, ih fun c hc => hwork c (List.mem_cons_of_mem _ hc)]
    exact h.imp_right fun hskip hmem => by simp [((hregion b).mp hmem).2] at hskip
  | case3 seen b work h hlt ih =>
    rw [not_or, Bool.not_eq_true] at h
    rw [LoopBounds.walkFrom, if_neg, ih]
    · intro c hc
      rcases List.mem_append.mp hc with hc | hc
      · exact hnext b c hc
      · exact hwork c (List.mem_cons_of_mem _ hc)
    · rintro (hseen | hout)
      · exact h.1 hseen
      · exact hout ((hregion b).mpr ⟨hlt, h.2⟩)
  | case4 seen b work h hlt => exact absurd (hwork b List.mem_cons_self) hlt

end Walk

section Edges

variable {f : Func} (hf : f.flow.Coherent) {b c : BlockId}

include hf

theorem index_lt_of_mem_succs (hc : c ∈ (f.block b).succs) : c.index < f.blocks.size :=
  hf.target b c hc

theorem index_lt_of_mem_preds (hb : b ∈ (f.block c).preds) : b.index < f.blocks.size := by
  have hedge : c ∈ (f.block b).succs := (hf.edges b c).mpr hb
  by_contra hlt
  rw [Func.block_of_size_le (Nat.le_of_not_lt hlt)] at hedge
  exact List.not_mem_nil hedge

end Edges

section Dominators

variable (f : Func)

def reachable : Guarded (List BlockId) := do
  let seen ← walkFrom f Block.succs (fun _ => false) [] [.entry]
  return f.blockIds.filter (· ∈ seen)

def reachableWithout (a : BlockId) : Guarded (List BlockId) :=
  walkFrom f Block.succs (· = a) [] [.entry]

/-- The dominated blocks of all reachable ones. -/
abbrev DominanceTable := List (BlockId × List BlockId)

def below (table : DominanceTable) (a : BlockId) : Guarded (List BlockId) :=
  found .noKey (table.lookup a)

def closest (table : DominanceTable) (candidates : List BlockId) (b : BlockId) :
    Guarded (Option BlockId) := do
  let around ← candidates.filterM fun a => do return a ≠ b && b ∈ (← below table a)
  around.foldlM (fun best a =>
    match best with
    | none => pure (some a)
    | some old => do return if a ∈ (← below table old) then some a else some old) none

def dominators : Guarded Dominators := do
  let reachable ← Guarded.reachable f
  let table ← reachable.mapM fun a => do
    let left ← reachableWithout f a
    return (a, reachable.filter (· ∉ left))
  let immediate ← f.blockIds.mapM (closest table reachable)
  return ⟨reachable, (f.blockIds.map fun a => (table.lookup a).getD []).toArray,
    immediate.toArray⟩

variable {f} (hf : f.flow.Coherent) {a b : BlockId}

include hf

theorem reachable_eq : reachable f = pure f.flow.reachable := by
  have hregion (b : BlockId) : b ∈ f.flow.blocks ↔ b.index < f.blocks.size ∧ false = false := by
    simp [FlowGraph.mem_blocks, Func.flow]
  have hentry : ∀ b ∈ [BlockId.entry], b.index < f.blocks.size :=
    List.forall_mem_singleton.mpr hf.entry
  simp only [reachable, walkFrom_eq hregion (fun b c => index_lt_of_mem_succs hf) hentry, pure_bind]
  rfl

theorem reachableWithout_eq : reachableWithout f a = pure (f.flow.reachableWithout a) := by
  have hregion (b : BlockId) : b ∈ f.flow.blocks.filter (· ≠ a) ↔
      b.index < f.blocks.size ∧ decide (b = a) = false := by
    simp [List.mem_filter, FlowGraph.mem_blocks, Func.flow]
  exact walkFrom_eq hregion (fun b c => index_lt_of_mem_succs hf)
    (List.forall_mem_singleton.mpr hf.entry)

omit hf in
theorem closest_eq {table : DominanceTable} {t : Dominators} {candidates : List BlockId}
    (htable : ∀ a ∈ candidates, below table a = pure (t.below a)) :
    closest table candidates b = pure (LoopBounds.closest t.dominates candidates b) := by
  have hfilter : candidates.filterM (fun a => do return a ≠ b && b ∈ (← below table a)) =
      pure (candidates.filter fun a => a ≠ b && t.dominates a b) :=
    filterM_eq fun a ha => by simp [htable a ha, Dominators.dominates]
  rw [closest, hfilter, pure_bind]
  refine foldlM_eq (I := fun best => ∀ a ∈ best, a ∈ candidates) (fun best hbest a ha => ?_)
    (by simp)
  have ha := List.mem_of_mem_filter ha
  cases best with
  | none => exact ⟨rfl, by simpa using ha⟩
  | some old =>
    have hold := hbest old rfl
    simp only [htable old hold, Dominators.dominates, pure_bind, decide_eq_true_eq, true_and]
    split_ifs <;> simpa

omit hf in
theorem lookup_map_pair {β : Type} (l : List BlockId) (k : BlockId → β) :
    (l.map fun a => (a, k a)).lookup a = if a ∈ l then some (k a) else none := by
  induction l with
  | nil => rfl
  | cons c l ih =>
    by_cases ha : a = c
    · simp [ha]
    · simp [List.lookup_cons, beq_eq_false_iff_ne.mpr ha, ih, ha]

theorem dominators_eq : dominators f = pure f.flow.dominators := by
  let table : DominanceTable := f.flow.reachable.map fun a =>
    (a, f.flow.reachable.filter (· ∉ f.flow.reachableWithout a))
  have hlookup (a : BlockId) : (table.lookup a).getD [] = f.flow.dominators.below a := by
    rw [lookup_map_pair, FlowGraph.Coherent.below_eq]
    split_ifs <;> rfl
  have hbelow (a : BlockId) (ha : a ∈ f.flow.reachable) :
      below table a = pure (f.flow.dominators.below a) := by
    rw [← hlookup, below, lookup_map_pair, if_pos ha]
    rfl
  have htable : f.flow.reachable.mapM (fun a => do
      let left ← reachableWithout f a
      return (a, f.flow.reachable.filter (· ∉ left))) = pure table :=
    mapM_eq fun a _ => by simp [reachableWithout_eq hf]
  have himmediate : f.blockIds.mapM (closest table f.flow.reachable) = pure (f.blockIds.map
      fun b => LoopBounds.closest f.flow.dominators.dominates f.flow.reachable b) :=
    mapM_eq fun b _ => closest_eq hbelow
  simp only [dominators, reachable_eq hf, pure_bind, htable, himmediate, hlookup]
  simp only [FlowGraph.Coherent.below_eq]
  rfl

end Dominators

section PostOrder

variable (t : Dominators)

def postOrder : Nat → BlockId → Guarded (List BlockId)
  | 0, _ => throw .depth
  | depth + 1, b => do return (← (t.children b).flatMapM (postOrder depth)) ++ [b]

/-- The dominator tree is no deeper than it has blocks. -/
theorem postOrder_eq {f : Func} (hf : f.flow.Coherent) {depth : ℕ} {b : BlockId}
    (hb : f.flow.Reachable b) (hdepth : (f.flow.dominators.below b).length ≤ depth) :
    postOrder f.flow.dominators depth b = pure (f.flow.dominators.postOrder depth b) := by
  induction depth generalizing b with
  | zero =>
    have hmem := hf.mem_below.mpr ⟨hb, hb, .refl b⟩
    rw [List.length_eq_zero_iff.mp (Nat.le_zero.mp hdepth)] at hmem
    cases hmem
  | succ depth ih =>
    have hchildren : (f.flow.dominators.children b).flatMapM (postOrder f.flow.dominators depth) =
        pure ((f.flow.dominators.children b).flatMap (f.flow.dominators.postOrder depth)) := by
      refine flatMapM_eq fun c hc => ?_
      have hc := hf.mem_children.mp hc
      have := hf.length_below_lt hc
      exact ih hc.reachable (by omega)
    rw [postOrder, hchildren]
    rfl

end PostOrder

end LoopBounds.Guarded
