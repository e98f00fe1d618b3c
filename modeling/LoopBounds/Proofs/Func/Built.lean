import LoopBounds.Func.Basic
import LoopBounds.Proofs.Flow.Dominance

/-!
# Functions that the operations build

A function starts empty, and every operation adds to it: a parameter, a constant, a block,
an instruction, one more source of a phi, a terminator with its edges. Only terminators
touch the flow graph. Whatever has been built so far, the graph records each edge once at
either end.
-/

namespace LoopBounds.Func

/-- The functions that the operations build up from an empty one. Blocks have to exist when
they are used; values may be used before they are there, as the sources of phis are. -/
inductive Built : Func → Prop
  | empty (name : String) (returns : ResultType) : Built (.empty name returns)
  | addParam {f} (name : String) : Built f → Built (f.addParam name)
  | addConstant {f} (v : Int32) : Built f → Built (f.addConstant v).2
  | addBlock {f} (label : String) : Built f → Built (f.addBlock label)
  | renameBlock {f} (b : BlockId) (label : String) :
      Built f → b.index < f.blocks.size → Built (f.renameBlock b label)
  | addPhi {f} (b : BlockId) (name : Option String) (sources : List (InstrId × BlockId)) :
      Built f → b.index < f.blocks.size → Built (f.addPhi b name sources)
  | addPhiSource {f} (x value : InstrId) (source : BlockId) :
      Built f → (f.instr x).isPhi = true → Built (f.addPhiSource x value source)
  | addInstr {f} (b : BlockId) (name : Option String) (i : Instr) :
      Built f → b.index < f.blocks.size → i.isPhi = false → i.isTerminator = false →
      i.isLeaf = false → Built (f.addInstr b name i)
  | setTerminator {f} (b : BlockId) (i : Instr) :
      Built f → b.index < f.blocks.size → f.terminator? b = none → i.isTerminator = true →
      (∀ t ∈ i.targets, t.index < f.blocks.size) → Built (f.setTerminator b i)

variable {f : Func} {b c s t : BlockId}

section Lookup

@[simp] theorem block_addNode (f : Func) (b c : BlockId) (name : Option String) (i : Instr) :
    (f.addNode b name i).block c = f.block c := by
  cases name <;> rfl

@[simp] theorem size_addNode (f : Func) (b : BlockId) (name : Option String) (i : Instr) :
    (f.addNode b name i).blocks.size = f.blocks.size := by
  cases name <;> rfl

@[simp] theorem size_modifyBlock (f : Func) (b : BlockId) (g : Block → Block) :
    (f.modifyBlock b g).blocks.size = f.blocks.size := by
  simp [modifyBlock]

theorem block_modifyBlock (f : Func) (g : Block → Block) (b c : BlockId) :
    (f.modifyBlock b g).block c =
      if b = c ∧ c.index < f.blocks.size then g (f.block c) else f.block c := by
  cases b
  cases c
  simp only [block, modifyBlock, Array.getElem?_modify, BlockId.mk.injEq]
  split_ifs <;> simp_all

theorem block_of_size_le (h : f.blocks.size ≤ b.index) : f.block b = Block.vacant := by
  simp [block, Array.getElem?_eq_none h]

theorem block_addBlock (f : Func) (label : String) (b : BlockId) :
    (f.addBlock label).block b =
      if b = f.nextBlock then { label := label } else f.block b := by
  cases b
  simp only [block, addBlock, Array.getElem?_push, nextBlock, BlockId.mk.injEq]
  split_ifs <;> rfl

end Lookup

section Flow

@[simp] theorem flow_addNode (f : Func) (b : BlockId) (name : Option String) (i : Instr) :
    (f.addNode b name i).flow = f.flow := by
  cases name <;> rfl

theorem flow_modifyBlock {g : Block → Block} (hs : ∀ bb, (g bb).succs = bb.succs)
    (hp : ∀ bb, (g bb).preds = bb.preds) : (f.modifyBlock b g).flow = f.flow := by
  simp only [flow, size_modifyBlock, FlowGraph.mk.injEq, true_and]
  constructor
  · funext c
    rw [block_modifyBlock]
    split_ifs <;> simp [hs]
  · funext c
    rw [block_modifyBlock]
    split_ifs <;> simp [hp]

@[simp] theorem flow_addParam (f : Func) (name : String) : (f.addParam name).flow = f.flow :=
  rfl

@[simp] theorem flow_addConstant (f : Func) (v : Int32) : (f.addConstant v).2.flow = f.flow := by
  unfold addConstant
  split <;> rfl

@[simp] theorem flow_renameBlock (f : Func) (b : BlockId) (label : String) :
    (f.renameBlock b label).flow = f.flow := flow_modifyBlock (fun _ => rfl) fun _ => rfl

@[simp] theorem flow_addPhi (f : Func) (b : BlockId) (name : Option String)
    (sources : List (InstrId × BlockId)) : (f.addPhi b name sources).flow = f.flow := by
  rw [addPhi, flow_modifyBlock, flow_addNode] <;> exact fun _ => rfl

@[simp] theorem flow_addPhiSource (f : Func) (x value : InstrId) (source : BlockId) :
    (f.addPhiSource x value source).flow = f.flow := rfl

@[simp] theorem flow_addInstr (f : Func) (b : BlockId) (name : Option String) (i : Instr) :
    (f.addInstr b name i).flow = f.flow := by
  rw [addInstr, flow_modifyBlock, flow_addNode] <;> exact fun _ => rfl

/-- A new block has no edges, as a missing one. -/
theorem flow_addBlock (f : Func) (label : String) :
    (f.addBlock label).flow = { f.flow with size := f.flow.size + 1 } := by
  have hnew : f.block f.nextBlock = Block.vacant := block_of_size_le (Nat.le_refl _)
  simp only [flow, FlowGraph.mk.injEq]
  refine ⟨by simp [addBlock], ?_, ?_⟩
  · funext b
    rw [block_addBlock]
    split_ifs with h
    · rw [h, hnew]
      rfl
    · rfl
  · funext b
    rw [block_addBlock]
    split_ifs with h
    · rw [h, hnew]
      rfl
    · rfl

@[simp] theorem size_link (f : Func) (s t : BlockId) :
    (f.link s t).blocks.size = f.blocks.size := by
  unfold link
  split_ifs <;> simp

theorem succs_link (hs : s.index < f.blocks.size) :
    ((f.link s t).block b).succs = if s = b ∧ t ∉ (f.block s).succs
      then (f.block b).succs ++ [t] else (f.block b).succs := by
  unfold link
  split_ifs with hmem h h
  · exact absurd hmem h.2
  · rfl
  · obtain ⟨rfl, -⟩ := h
    rw [block_modifyBlock, block_modifyBlock]
    split_ifs <;> simp_all
  · rw [block_modifyBlock, block_modifyBlock]
    split_ifs <;> simp_all

theorem preds_link (ht : t.index < f.blocks.size) :
    ((f.link s t).block b).preds = if t = b ∧ t ∉ (f.block s).succs
      then (f.block b).preds ++ [s] else (f.block b).preds := by
  unfold link
  split_ifs with hmem h h
  · exact absurd hmem h.2
  · rfl
  · obtain ⟨rfl, -⟩ := h
    rw [block_modifyBlock, block_modifyBlock]
    split_ifs <;> simp_all
  · rw [block_modifyBlock, block_modifyBlock]
    split_ifs <;> simp_all

end Flow

section Simple

open FlowGraph

theorem simple_empty (name : String) (returns : ResultType) :
    (Func.empty name returns).flow.Simple := by
  have hblock : ∀ b, ((Func.empty name returns).block b).succs = [] ∧
      ((Func.empty name returns).block b).preds = [] := by
    intro b
    simp only [block, empty]
    cases b.index <;> simp [Block.vacant]
  refine ⟨⟨?_, ?_, by simp [flow, empty]⟩, ?_, ?_⟩
  · intro b c
    simp [flow, hblock]
  · intro b c
    simp [flow, hblock]
  · intro b
    simp [flow, hblock]
  · intro b
    simp [flow, hblock]

theorem simple_addBlock (h : f.flow.Simple) (label : String) :
    (f.addBlock label).flow.Simple := by
  rw [flow_addBlock]
  exact ⟨⟨h.edges, fun b c hc => Nat.lt_succ_of_lt (h.target b c hc), Nat.succ_pos _⟩,
    h.nodup_succs, h.nodup_preds⟩

theorem simple_link (h : f.flow.Simple) (hs : s.index < f.blocks.size)
    (ht : t.index < f.blocks.size) : (f.link s t).flow.Simple := by
  have hedges : ∀ b c, c ∈ (f.block b).succs ↔ b ∈ (f.block c).preds := h.edges
  refine ⟨⟨?_, ?_, ?_⟩, ?_, ?_⟩
  · intro b c
    simp only [flow, succs_link hs, preds_link ht]
    by_cases hmem : t ∈ (f.block s).succs
    · simp [hmem, hedges]
    · by_cases hb : s = b <;> by_cases hc : t = c <;> simp_all [eq_comm]
  · intro b c hc
    simp only [flow, size_link, succs_link hs] at hc ⊢
    split_ifs at hc with hb
    · rcases List.mem_append.mp hc with hc | hc
      · exact h.target b c hc
      · exact List.mem_singleton.mp hc ▸ ht
    · exact h.target b c hc
  · simpa [flow] using h.entry
  · intro b
    simp only [flow, succs_link hs]
    split_ifs with hb
    · obtain ⟨rfl, hmem⟩ := hb
      simpa using (h.nodup_succs s).concat hmem
    · exact h.nodup_succs b
  · intro b
    simp only [flow, preds_link ht]
    split_ifs with hb
    · obtain ⟨rfl, hmem⟩ := hb
      rw [hedges] at hmem
      simpa using (h.nodup_preds t).concat hmem
    · exact h.nodup_preds b

theorem simple_foldl_link {targets : List BlockId} (h : f.flow.Simple)
    (hs : s.index < f.blocks.size) (ht : ∀ t ∈ targets, t.index < f.blocks.size) :
    (targets.foldl (fun g t => g.link s t) f).flow.Simple := by
  induction targets generalizing f with
  | nil => exact h
  | cons t targets ih =>
    apply ih (simple_link h hs (ht t List.mem_cons_self))
    · simpa using hs
    · simpa using fun u hu => ht u (List.mem_cons_of_mem _ hu)

theorem simple_setTerminator {i : Instr} (h : f.flow.Simple) (hb : b.index < f.blocks.size)
    (ht : ∀ t ∈ i.targets, t.index < f.blocks.size) : (f.setTerminator b i).flow.Simple := by
  have hflow : ((f.addNode b none i).modifyBlock b fun bb =>
      { bb with terminator := some f.nextId }).flow = f.flow := by
    rw [flow_modifyBlock, flow_addNode] <;> exact fun _ => rfl
  apply simple_foldl_link
  · rw [hflow]
    exact h
  · simpa using hb
  · simpa using ht

/-- Whatever has been built, the flow graph records each edge once at either end. -/
theorem Built.simple (h : f.Built) : f.flow.Simple := by
  induction h with
  | empty name returns => exact simple_empty name returns
  | addBlock label _ ih => exact simple_addBlock ih label
  | setTerminator b i _ hb _ _ ht ih => exact simple_setTerminator ih hb ht
  | addParam name _ ih => simpa using ih
  | addConstant v _ ih => simpa using ih
  | renameBlock b label _ _ ih => simpa using ih
  | addPhi b name sources _ _ ih => simpa using ih
  | addPhiSource x value source _ _ ih => simpa using ih
  | addInstr b name i _ _ _ _ _ ih => simpa using ih

end Simple

end LoopBounds.Func
