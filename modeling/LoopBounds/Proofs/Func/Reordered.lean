import LoopBounds.Proofs.Flow.Renamed
import LoopBounds.Proofs.Func.Valid

/-!
# Functions with their blocks in another order

Writing the blocks of a function in another order gives other positions to its blocks and
instructions, and the predecessors of a block may be listed in another order. Everything else
stays: what each instruction does, the instructions of each block in their order, and the sources
of each phi in theirs. Names and labels play no part. A valid function stays valid.
-/

namespace LoopBounds

/-- The instruction with other positions for the values and blocks that it refers to. -/
def Instr.rename (σ : InstrId → InstrId) (β : BlockId → BlockId) : Instr → Instr
  | .constant v => .constant v
  | .param n => .param n
  | .arith op x y => .arith op (σ x) (σ y)
  | .neg x => .neg (σ x)
  | .compare op x y => .compare op (σ x) (σ y)
  | .phi sources => .phi (sources.map (Prod.map σ β))
  | .jump t => .jump (β t)
  | .branch c t e => .branch (σ c) (β t) (β e)
  | .ret v => .ret (v.map σ)

namespace Instr

variable (σ : InstrId → InstrId) (β : BlockId → BlockId) (i : Instr)

@[simp] theorem operands_rename : (i.rename σ β).operands = i.operands.map σ := by
  cases i with
  | phi sources => simp [rename, operands]
  | ret v => cases v <;> rfl
  | _ => rfl

@[simp] theorem targets_rename : (i.rename σ β).targets = i.targets.map β := by
  cases i <;> rfl

@[simp] theorem isPhi_rename : (i.rename σ β).isPhi = i.isPhi := by
  cases i <;> rfl

@[simp] theorem isTerminator_rename : (i.rename σ β).isTerminator = i.isTerminator := by
  cases i <;> rfl

@[simp] theorem isLeaf_rename : (i.rename σ β).isLeaf = i.isLeaf := by
  cases i <;> rfl

@[simp] theorem constant?_rename : (i.rename σ β).constant? = i.constant? := by
  cases i <;> rfl

theorem rename_rename (σ' : InstrId → InstrId) (β' : BlockId → BlockId) :
    (i.rename σ β).rename σ' β' = i.rename (σ' ∘ σ) (β' ∘ β) := by
  cases i with
  | phi sources => simp [rename, Prod.map_comp_map]
  | ret v => simp [rename]
  | _ => rfl

theorem rename_id : i.rename id id = i := by
  cases i <;> simp [rename]

end Instr

namespace Func

/-- `g` is `f` with its blocks in another order, which gives the position `σ x` to instruction `x`
and the position `β b` to block `b`. The entry stays in front. -/
structure Reordered (f g : Func) (σ : Equiv.Perm InstrId) (β : Equiv.Perm BlockId) : Prop where
  entry : β .entry = .entry
  size : g.blocks.size = f.blocks.size
  index : ∀ b, (β b).index < g.blocks.size ↔ b.index < f.blocks.size
  params : g.params = f.params.map σ
  instr : ∀ x, g.instr (σ x) = (f.instr x).rename σ β
  home : ∀ x, g.home (σ x) = β (f.home x)
  phis : ∀ b, (g.block (β b)).phis = (f.block b).phis.map σ
  body : ∀ b, (g.block (β b)).body = (f.block b).body.map σ
  terminator : ∀ b, (g.block (β b)).terminator = (f.block b).terminator.map σ
  succs : ∀ b, (g.block (β b)).succs = (f.block b).succs.map β
  preds : ∀ b, (g.block (β b)).preds.Perm ((f.block b).preds.map β)

namespace Reordered

variable {f g : Func} {σ : Equiv.Perm InstrId} {β : Equiv.Perm BlockId} (h : f.Reordered g σ β)
variable {b : BlockId} {x y : InstrId}

include h

theorem symm : g.Reordered f σ.symm β.symm where
  entry := by rw [Equiv.symm_apply_eq, h.entry]
  size := h.size.symm
  index b := by rw [← h.index, Equiv.apply_symm_apply]
  params := by rw [h.params, List.map_map, Equiv.symm_comp_self, List.map_id]
  instr x := by
    have := congrArg (Instr.rename σ.symm β.symm) (h.instr (σ.symm x))
    rw [Instr.rename_rename, Equiv.symm_comp_self, Equiv.symm_comp_self, Instr.rename_id,
      Equiv.apply_symm_apply] at this
    exact this.symm
  home x := by rw [Equiv.eq_symm_apply, ← h.home, Equiv.apply_symm_apply]
  phis b := by
    have := congrArg (List.map σ.symm) (h.phis (β.symm b))
    rwa [List.map_map, Equiv.symm_comp_self, List.map_id, Equiv.apply_symm_apply, eq_comm] at this
  body b := by
    have := congrArg (List.map σ.symm) (h.body (β.symm b))
    rwa [List.map_map, Equiv.symm_comp_self, List.map_id, Equiv.apply_symm_apply, eq_comm] at this
  terminator b := by
    have := congrArg (Option.map σ.symm) (h.terminator (β.symm b))
    rwa [Option.map_map, Equiv.symm_comp_self, Option.map_id, id, Equiv.apply_symm_apply,
      eq_comm] at this
  succs b := by
    have := congrArg (List.map β.symm) (h.succs (β.symm b))
    rwa [List.map_map, Equiv.symm_comp_self, List.map_id, Equiv.apply_symm_apply, eq_comm] at this
  preds b := by
    have := (h.preds (β.symm b)).map β.symm
    rw [List.map_map, Equiv.symm_comp_self, List.map_id, Equiv.apply_symm_apply] at this
    exact this.symm

theorem flow : f.flow.Renamed g.flow β where
  entry := h.entry
  succs b c := by
    have hsuccs : g.flow.succs (β b) = (f.flow.succs b).map β := h.succs b
    rw [hsuccs, List.mem_map_of_injective β.injective]

theorem instrs : (g.block (β b)).instrs = (f.block b).instrs.map σ := by
  rw [Block.instrs, Block.instrs, h.phis, h.body, h.terminator, List.map_append, List.map_append]
  cases (f.block b).terminator <;> rfl

theorem values : (g.block (β b)).values = (f.block b).values.map σ := by
  rw [Block.values, Block.values, h.phis, h.body, List.map_append]

theorem mem_preds_iff {c : BlockId} : β c ∈ (g.block (β b)).preds ↔ c ∈ (f.block b).preds := by
  rw [(h.preds b).mem_iff, List.mem_map_of_injective β.injective]

theorem isLeaf : (g.instr (σ x)).isLeaf = (f.instr x).isLeaf := by
  rw [h.instr, Instr.isLeaf_rename]

theorem constant? : g.constant? (σ x) = f.constant? x := by
  rw [Func.constant?, h.instr, Instr.constant?_rename, Func.constant?]

theorem terminator? : g.terminator? (β b) = (f.terminator? b).map σ := h.terminator b

theorem listed_iff : g.Listed (σ x) ↔ f.Listed x := by
  rw [Listed, h.home, h.values, List.mem_map_of_injective σ.injective, Listed]

theorem availableAtEnd_iff : g.AvailableAtEnd (β b) (σ y) ↔ f.AvailableAtEnd b y := by
  rw [AvailableAtEnd, h.isLeaf, h.listed_iff, h.home, h.flow.dominates_iff, AvailableAtEnd]

theorem availableAfter {done : List InstrId} (hy : f.AvailableAfter done b y) :
    g.AvailableAfter (done.map σ) (β b) (σ y) := by
  rw [AvailableAfter, h.isLeaf, h.listed_iff, h.home, h.flow.dominates_iff,
    List.mem_map_of_injective σ.injective, β.injective.ne_iff]
  exact hy

theorem flow_coherent (hf : f.flow.Coherent) : g.flow.Coherent where
  edges := by
    refine β.surjective.forall.mpr fun b => β.surjective.forall.mpr fun c => ?_
    exact (h.flow.succs b c).trans ((hf.edges b c).trans h.mem_preds_iff.symm)
  target := by
    refine β.surjective.forall.mpr fun b => β.surjective.forall.mpr fun c hc => ?_
    exact (h.index c).mpr (hf.target b c ((h.flow.succs b c).mp hc))
  entry := lt_of_lt_of_eq hf.entry h.size.symm

theorem coherent (hf : f.Coherent) : g.Coherent where
  flow := h.flow_coherent hf.flow
  target := by
    refine β.surjective.forall.mpr fun b y c hy hc => ?_
    rw [h.terminator, Option.map_eq_some_iff] at hy
    obtain ⟨y, hy, rfl⟩ := hy
    rw [h.instr, Instr.targets_rename, List.mem_map] at hc
    obtain ⟨c, hc, rfl⟩ := hc
    exact (h.flow.succs b c).mpr (hf.target b y c hy hc)
  home := by
    refine β.surjective.forall.mpr fun b => ?_
    rw [h.instrs, List.forall_mem_map]
    exact fun x hx => by rw [h.home, hf.home b x hx]
  phi := by
    refine β.surjective.forall.mpr fun b => ?_
    rw [h.phis, List.forall_mem_map]
    intro x hx
    obtain ⟨sources, hsources⟩ := hf.phi b x hx
    exact ⟨_, by rw [h.instr, hsources, Instr.rename]⟩
  body := by
    refine β.surjective.forall.mpr fun b => ?_
    rw [h.body, List.forall_mem_map]
    intro x hx
    rw [h.instr, Instr.isPhi_rename, Instr.isTerminator_rename, Instr.isLeaf_rename]
    exact hf.body b x hx
  terminator := by
    refine β.surjective.forall.mpr fun b y hy => ?_
    rw [h.terminator, Option.map_eq_some_iff] at hy
    obtain ⟨y, hy, rfl⟩ := hy
    rw [h.instr, Instr.isTerminator_rename]
    exact hf.terminator b y hy
  param := by
    rw [h.params, List.forall_mem_map]
    exact fun x hx => h.isLeaf.trans (hf.param x hx)
  nodup := by
    refine β.surjective.forall.mpr fun b => ?_
    rw [h.instrs]
    exact (hf.nodup b).map σ.injective

theorem oneSourceEach {sources : List (InstrId × BlockId)} (hs : f.OneSourceEach b sources) :
    g.OneSourceEach (β b) (sources.map (Prod.map σ β)) := by
  have hblocks : (sources.map (Prod.map σ β)).map Prod.snd = (sources.map Prod.snd).map β := by
    simp
  rw [OneSourceEach, hblocks]
  refine ⟨hs.1.map β.injective, β.surjective.forall.mpr fun p => ?_⟩
  rw [List.mem_map_of_injective β.injective, h.mem_preds_iff]
  exact hs.2 p

theorem valid (hf : f.Valid) : g.Valid where
  toCoherent := h.coherent hf.toCoherent
  terminated := by
    refine β.surjective.forall.mpr fun b hb => ?_
    rw [h.terminator, ne_eq, Option.map_eq_none_iff]
    exact hf.terminated b ((h.index b).mp hb)
  sources := by
    refine β.surjective.forall.mpr fun b => ?_
    rw [h.phis, List.forall_mem_map]
    intro x hx sources hsources
    obtain ⟨sources', hsources'⟩ := hf.phi b x hx
    rw [h.instr, hsources', Instr.rename, Instr.phi.injEq] at hsources
    exact hsources ▸ h.oneSourceEach (hf.sources b x hx sources' hsources')
  entry := by
    have := h.preds .entry
    rw [hf.entry, h.entry] at this
    exact this.eq_nil
  source_available := by
    refine β.surjective.forall.mpr fun b => ?_
    rw [h.phis, List.forall_mem_map]
    intro x hx sources hsources
    obtain ⟨sources', hsources'⟩ := hf.phi b x hx
    rw [h.instr, hsources', Instr.rename, Instr.phi.injEq] at hsources
    subst hsources
    rw [List.forall_mem_map]
    intro s hs
    exact h.availableAtEnd_iff.mpr (hf.source_available b x hx sources' hsources' s hs)
  operand_available := by
    refine β.surjective.forall.mpr fun b done' x' rest' heq hphi => ?_
    rw [h.instrs, List.map_eq_append_iff] at heq
    obtain ⟨done, rest, heq, rfl, hrest⟩ := heq
    rw [List.map_eq_cons_iff] at hrest
    obtain ⟨x, rest, rfl, rfl, rfl⟩ := hrest
    rw [h.instr, Instr.isPhi_rename] at hphi
    rw [h.instr, Instr.operands_rename, List.forall_mem_map]
    exact fun y hy => h.availableAfter (hf.operand_available b done x rest heq hphi y hy)

end Reordered

/-- The function with its blocks at other positions. The table of instructions stays as it is. -/
def reorder (f : Func) (β : Equiv.Perm BlockId) : Func :=
  { f with
    blocks := Array.ofFn fun i : Fin f.blocks.size =>
      let b := f.block (β.symm ⟨i⟩)
      { b with preds := b.preds.map β, succs := b.succs.map β }
    nodes := f.nodes.map fun n => { n with block := β n.block, instr := n.instr.rename id β }
    pooled := fun v x hx => by
      obtain ⟨n, hn, hv⟩ := Option.map_eq_some_iff.mp (f.pooled v x hx)
      simp [hn, hv, Instr.rename]
    named := fun m hm => by
      obtain ⟨n, hn, rfl⟩ := Array.mem_map.mp hm
      exact f.named n hn }

section Reorder

variable {f : Func} {β : Equiv.Perm BlockId} (hentry : β .entry = .entry)
variable (hrange : ∀ b : BlockId, (β b).index < f.blocks.size ↔ b.index < f.blocks.size)

include hrange in
theorem block_reorder (b : BlockId) : (f.reorder β).block (β b) =
    { f.block b with preds := (f.block b).preds.map β, succs := (f.block b).succs.map β } := by
  by_cases hb : b.index < f.blocks.size
  · have hβ := (hrange b).mpr hb
    have hsymm : β.symm ⟨(β b).index⟩ = b := β.symm_apply_apply b
    simp [block, reorder, hβ, hsymm]
  · have hβ : f.blocks.size ≤ (β b).index := Nat.le_of_not_lt fun h => hb ((hrange b).mp h)
    have hb := Nat.le_of_not_lt hb
    simp [block, reorder, hb, hβ, Block.vacant]

include hentry in
theorem node_reorder (x : InstrId) : (f.reorder β).node x =
    { f.node x with block := β (f.node x).block, instr := (f.node x).instr.rename id β } := by
  unfold node reorder
  rw [Array.getElem?_map]
  cases f.nodes[x.index]? with
  | none => simp [Node.vacant, hentry, Instr.rename]
  | some n => rfl

include hentry hrange

theorem reordered_reorder : f.Reordered (f.reorder β) (Equiv.refl _) β where
  entry := hentry
  size := by simp [reorder]
  index b := by simpa [reorder] using hrange b
  params := by simp [reorder]
  instr x := congrArg Node.instr (node_reorder hentry x)
  home x := congrArg Node.block (node_reorder hentry x)
  phis b := by simp [block_reorder hrange]
  body b := by simp [block_reorder hrange]
  terminator b := by simp [block_reorder hrange]
  succs b := by simp [block_reorder hrange]
  preds b := by simp [block_reorder hrange]

omit hentry hrange in
theorem reordered_swap {b c : BlockId} (hb : b ≠ .entry ∧ b.index < f.blocks.size)
    (hc : c ≠ .entry ∧ c.index < f.blocks.size) :
    f.Reordered (f.reorder (Equiv.swap b c)) (Equiv.refl _) (Equiv.swap b c) := by
  refine reordered_reorder (Equiv.swap_apply_of_ne_of_ne hb.1.symm hc.1.symm) fun d => ?_
  rw [Equiv.swap_apply_def]
  split_ifs with hdb hdc
  · exact iff_of_true hc.2 (hdb ▸ hb.2)
  · exact iff_of_true hb.2 (hdc ▸ hc.2)
  · exact Iff.rfl

end Reorder

end Func

end LoopBounds
