import LoopBounds.Proofs.Func.Built
import LoopBounds.Proofs.Func.Valid

/-!
# Functions that have grown

Code for bounds is appended to blocks that are already there. The old nodes keep their
positions, and apart from the new code at the end of some bodies the blocks stay as they were.
Such a function is valid if the old one was and every new instruction finds its operands.
-/

namespace LoopBounds

/-- Instructions of which code for bounds consists. -/
def Instr.IsCode : Instr → Prop
  | .arith op _ _ => op = .add ∨ op = .sub
  | .neg _ | .compare .. => True
  | _ => False

theorem Instr.IsCode.kind {i : Instr} (h : i.IsCode) :
    i.isPhi = false ∧ i.isTerminator = false ∧ i.isLeaf = false := by
  cases i <;> first | exact ⟨rfl, rfl, rfl⟩ | cases h

theorem Instr.IsCode.targets {i : Instr} (h : i.IsCode) : i.targets = [] := by
  cases i <;> first | rfl | cases h

namespace Func

variable {f g h : Func} {b c : BlockId} {x y : InstrId} {i : Instr} {name : Option String}
variable {v : Int32}

/-- Every position that a block lists has a node. -/
def Filled (f : Func) : Prop := ∀ b, ∀ x ∈ (f.block b).instrs, x.index < f.nodes.size

/-- The block `b` of `g` is that of `f` with code at the end of its body. -/
structure ExtendsBlock (f g : Func) (b : BlockId) (code : List InstrId) : Prop where
  block : g.block b = { f.block b with body := (f.block b).body ++ code }
  nodup : code.Nodup
  new : ∀ x ∈ code, f.nodes.size ≤ x.index ∧ x.index < g.nodes.size
  home : ∀ x ∈ code, g.home x = b
  isCode : ∀ x ∈ code, (g.instr x).IsCode

/-- The function `g` is `f` with further nodes, and with code at the end of some bodies. -/
structure Extends (f g : Func) : Prop where
  size : f.nodes.size ≤ g.nodes.size
  node : ∀ x, x.index < f.nodes.size → g.node x = f.node x
  name : g.name = f.name
  returns : g.returns = f.returns
  params : g.params = f.params
  blocks : g.blocks.size = f.blocks.size
  block : ∀ b, ∃ code, f.ExtendsBlock g b code

section Steps

theorem node_of_push {n : Node} (h : g.nodes = f.nodes.push n) (x : InstrId) :
    g.node x = if x = f.nextId then n else f.node x := by
  obtain ⟨k⟩ := x
  simp only [node, h, Array.getElem?_push, nextId, InstrId.mk.injEq]
  split_ifs <;> rfl

theorem nodes_addNode (f : Func) (b : BlockId) (name : Option String) (i : Instr) :
    (f.addNode b name i).nodes =
      f.nodes.push ⟨name.getD (temporaryName f.freshTemporary), b, i⟩ := by
  cases name <;> rfl

theorem nodes_pushConstant (f : Func) (v : Int32) : (f.pushConstant v).nodes =
    f.nodes.push ⟨constantName v, .entry, .constant v⟩ := rfl

theorem node_addNode (f : Func) (b : BlockId) (name : Option String) (i : Instr) (x : InstrId) :
    (f.addNode b name i).node x =
      if x = f.nextId then ⟨name.getD (temporaryName f.freshTemporary), b, i⟩ else f.node x :=
  node_of_push (nodes_addNode f b name i) x

theorem node_addNode_of_lt (hx : x.index < f.nodes.size) :
    (f.addNode b name i).node x = f.node x := by
  rw [node_addNode, if_neg]
  rintro rfl
  exact lt_irrefl _ hx

theorem instr_addNode_nextId : (f.addNode b name i).instr f.nextId = i := by
  rw [instr, node_addNode, if_pos rfl]

theorem home_addNode_nextId : (f.addNode b name i).home f.nextId = b := by
  rw [home, node_addNode, if_pos rfl]

theorem nodes_size_addNode : (f.addNode b name i).nodes.size = f.nodes.size + 1 := by
  rw [nodes_addNode, Array.size_push]

theorem extends_refl (f : Func) : f.Extends f where
  size := le_rfl
  node _ _ := rfl
  name := rfl
  returns := rfl
  params := rfl
  blocks := rfl
  block b := ⟨[], by simp, List.nodup_nil, by simp, by simp, by simp⟩

theorem extends_of_push {n : Node} (hnodes : g.nodes = f.nodes.push n)
    (hblocks : g.blocks = f.blocks) (hname : g.name = f.name) (hreturns : g.returns = f.returns)
    (hparams : g.params = f.params) : f.Extends g where
  size := by simp [hnodes]
  node x hx := by
    rw [node_of_push hnodes, if_neg]
    rintro rfl
    exact lt_irrefl _ hx
  name := hname
  returns := hreturns
  params := hparams
  blocks := by rw [hblocks]
  block c := ⟨[], by simp [block, hblocks], List.nodup_nil, by simp, by simp, by simp⟩

theorem extends_addNode (f : Func) (b : BlockId) (name : Option String) (i : Instr) :
    f.Extends (f.addNode b name i) := by
  apply extends_of_push (nodes_addNode f b name i) <;> cases name <;> rfl

theorem extends_addConstant (f : Func) (v : Int32) : f.Extends (f.addConstant v).2 := by
  unfold addConstant
  split
  · exact extends_refl f
  · exact extends_of_push (nodes_pushConstant f v) rfl rfl rfl rfl

theorem blocks_addConstant (f : Func) (v : Int32) : (f.addConstant v).2.blocks = f.blocks := by
  unfold addConstant
  split <;> rfl

@[simp] theorem block_addConstant (f : Func) (v : Int32) (b : BlockId) :
    (f.addConstant v).2.block b = f.block b := by
  rw [block, blocks_addConstant, ← block]

theorem instr_of_findConstant? (h : f.findConstant? v = some x) : f.instr x = .constant v := by
  obtain ⟨n, hn, hv⟩ := Option.map_eq_some_iff.mp (f.pooled v x h)
  rw [instr, node, hn, Option.getD_some, hv]

theorem instr_pushConstant_nextId (f : Func) (v : Int32) :
    (f.pushConstant v).instr f.nextId = .constant v := by
  rw [instr, node_of_push (nodes_pushConstant f v), if_pos rfl]

theorem instr_addConstant (f : Func) (v : Int32) :
    (f.addConstant v).2.instr (f.addConstant v).1 = .constant v := by
  unfold addConstant
  split
  · exact instr_of_findConstant? ‹_›
  · exact instr_pushConstant_nextId f v

theorem isLeaf_addConstant (f : Func) (v : Int32) :
    ((f.addConstant v).2.instr (f.addConstant v).1).isLeaf = true := by
  rw [instr_addConstant]
  rfl

theorem nodes_size_addInstr (f : Func) (b : BlockId) (name : Option String) (i : Instr) :
    (f.addInstr b name i).nodes.size = f.nodes.size + 1 := by
  rw [addInstr, modifyBlock, nodes_size_addNode]

theorem nextId_lt_addInstr (f : Func) (b : BlockId) (name : Option String) (i : Instr) :
    f.nextId.index < (f.addInstr b name i).nodes.size := by
  rw [nodes_size_addInstr]
  exact Nat.lt_succ_self f.nodes.size

theorem eq_nextId (hx : ¬ x.index < f.nodes.size) (hlt : x.index < f.nodes.size + 1) :
    x = f.nextId :=
  congrArg InstrId.mk (Nat.le_antisymm (Nat.le_of_lt_succ hlt) (Nat.le_of_not_lt hx))

theorem block_addInstr (f : Func) (b c : BlockId) (name : Option String) (i : Instr) :
    (f.addInstr b name i).block c = if b = c ∧ c.index < f.blocks.size
      then { f.block c with body := (f.block c).body ++ [f.nextId] } else f.block c := by
  rw [addInstr, block_modifyBlock, block_addNode, size_addNode]

theorem extends_addInstr (f : Func) (b : BlockId) (name : Option String) (hi : i.IsCode) :
    f.Extends (f.addInstr b name i) where
  size := (extends_addNode f b name i).size
  node := (extends_addNode f b name i).node
  name := (extends_addNode f b name i).name
  returns := (extends_addNode f b name i).returns
  params := (extends_addNode f b name i).params
  blocks := by rw [addInstr, size_modifyBlock, size_addNode]
  block c := by
    by_cases hc : b = c ∧ c.index < f.blocks.size
    · obtain ⟨rfl, hb⟩ := hc
      refine ⟨[f.nextId], ?_, by simp, ?_, ?_, ?_⟩
      · rw [block_addInstr, if_pos ⟨rfl, hb⟩]
      · simp [addInstr, modifyBlock, nodes_size_addNode, nextId]
      · simp only [List.mem_singleton, forall_eq]
        exact home_addNode_nextId (f := f)
      · simp only [List.mem_singleton, forall_eq]
        exact instr_addNode_nextId (f := f) ▸ hi
    · refine ⟨[], ?_, by simp, by simp, by simp, by simp⟩
      rw [block_addInstr, if_neg hc]
      simp

theorem availableAtEnd_addInstr (name : Option String) (i : Instr) (hb : b.index < f.blocks.size) :
    (f.addInstr b name i).AvailableAtEnd b f.nextId := by
  have hhome : (f.addInstr b name i).home f.nextId = b := home_addNode_nextId (f := f)
  rw [AvailableAtEnd, Listed, hhome, block_addInstr, if_pos ⟨rfl, hb⟩]
  exact .inr ⟨by simp [Block.values], .refl b⟩

end Steps

namespace Extends

variable (hfg : f.Extends g)

include hfg

theorem instr (hx : x.index < f.nodes.size) : g.instr x = f.instr x :=
  congrArg Node.instr (hfg.node x hx)

theorem home (hx : x.index < f.nodes.size) : g.home x = f.home x :=
  congrArg Node.block (hfg.node x hx)

theorem trans (hgh : g.Extends h) : f.Extends h where
  size := hfg.size.trans hgh.size
  node x hx := (hgh.node x (hx.trans_le hfg.size)).trans (hfg.node x hx)
  name := hgh.name.trans hfg.name
  returns := hgh.returns.trans hfg.returns
  params := hgh.params.trans hfg.params
  blocks := hgh.blocks.trans hfg.blocks
  block b := by
    obtain ⟨u, hu⟩ := hfg.block b
    obtain ⟨w, hw⟩ := hgh.block b
    refine ⟨u ++ w, ?_, ?_, ?_, ?_, ?_⟩
    · rw [hw.block, hu.block]
      simp
    · refine List.nodup_append.mpr ⟨hu.nodup, hw.nodup, fun x hx y hy => ?_⟩
      rintro rfl
      exact absurd (hu.new x hx).2 (Nat.not_lt.mpr (hw.new x hy).1)
    · refine List.forall_mem_append.mpr ⟨fun x hx => ?_, fun x hx => ?_⟩
      · exact ⟨(hu.new x hx).1, (hu.new x hx).2.trans_le hgh.size⟩
      · exact ⟨hfg.size.trans (hw.new x hx).1, (hw.new x hx).2⟩
    · refine List.forall_mem_append.mpr ⟨fun x hx => ?_, hw.home⟩
      rw [hgh.home (hu.new x hx).2, hu.home x hx]
    · refine List.forall_mem_append.mpr ⟨fun x hx => ?_, hw.isCode⟩
      rw [hgh.instr (hu.new x hx).2]
      exact hu.isCode x hx

theorem phis (b : BlockId) : (g.block b).phis = (f.block b).phis := by
  obtain ⟨code, hcode⟩ := hfg.block b
  rw [hcode.block]

theorem terminator (b : BlockId) : (g.block b).terminator = (f.block b).terminator := by
  obtain ⟨code, hcode⟩ := hfg.block b
  rw [hcode.block]

theorem body_subset (b : BlockId) : (f.block b).body ⊆ (g.block b).body := by
  obtain ⟨code, hcode⟩ := hfg.block b
  rw [hcode.block]
  exact List.subset_append_left _ _

theorem values_subset (b : BlockId) : (f.block b).values ⊆ (g.block b).values := by
  intro x hx
  rw [Block.values, hfg.phis]
  exact (List.mem_append.mp hx).elim (List.mem_append_left _)
    fun hx => List.mem_append_right _ (hfg.body_subset b hx)

theorem flow : g.flow = f.flow := by
  simp only [Func.flow, FlowGraph.mk.injEq]
  refine ⟨hfg.blocks, ?_, ?_⟩
  · funext b
    obtain ⟨code, hcode⟩ := hfg.block b
    rw [hcode.block]
  · funext b
    obtain ⟨code, hcode⟩ := hfg.block b
    rw [hcode.block]

end Extends

/-- Decides whether every listed position has a node. -/
def filledCheck (f : Func) : Bool :=
  f.blocks.toList.all fun b => b.instrs.all (·.index < f.nodes.size)

theorem filled_of_check (h : f.filledCheck = true) : f.Filled := by
  intro b x hx
  have hb := index_lt_of_mem_instrs hx
  rw [block, Array.getElem?_eq_getElem hb, Option.getD_some] at hx
  simp only [filledCheck, List.all_eq_true, decide_eq_true_eq] at h
  exact h _ (Array.getElem_mem_toList hb) x hx

section Index

theorem index_lt_of_isLeaf (hx : (f.instr x).isLeaf = true) : x.index < f.nodes.size := by
  by_contra hlt
  simp [instr, node, Array.getElem?_eq_none (Nat.le_of_not_lt hlt), Node.vacant,
    Instr.isLeaf] at hx

theorem index_lt_addConstant (f : Func) (v : Int32) :
    (f.addConstant v).1.index < (f.addConstant v).2.nodes.size :=
  index_lt_of_isLeaf (isLeaf_addConstant f v)

variable (hfill : f.Filled)

include hfill

theorem Filled.index_lt_of_listed (hx : f.Listed x) : x.index < f.nodes.size :=
  hfill _ x (List.mem_append_left _ hx)

theorem Filled.index_lt_of_availableAtEnd (h : f.AvailableAtEnd b y) :
    y.index < f.nodes.size :=
  h.elim index_lt_of_isLeaf fun h => hfill.index_lt_of_listed h.1

end Index

section Linked

/-- The tables fit together, and every operand is a leaf or is listed itself. -/
structure Linked (f : Func) : Prop extends f.Coherent where
  operand : ∀ b, ∀ x ∈ (f.block b).instrs, ∀ y ∈ (f.instr x).operands,
    (f.instr y).isLeaf = true ∨ f.Listed y

theorem Coherent.mem_phis (hf : f.Coherent) (hx : x ∈ (f.block b).instrs)
    (hphi : (f.instr x).isPhi = true) : x ∈ (f.block b).phis := by
  rcases List.mem_append.mp hx with hx | hx
  · refine (List.mem_append.mp hx).resolve_right fun hx => ?_
    rw [(hf.body b x hx).1] at hphi
    cases hphi
  · have hterm := hf.terminator b x (Option.mem_toList.mp hx)
    cases hi : f.instr x with
    | phi =>
      rw [hi] at hterm
      cases hterm
    | _ =>
      rw [hi] at hphi
      cases hphi

theorem Valid.linked (hf : f.Valid) : f.Linked where
  toCoherent := hf.toCoherent
  operand b x hx y hy := by
    cases hphi : (f.instr x).isPhi with
    | true =>
      have hmem := hf.mem_phis hx hphi
      obtain ⟨sources, hsources⟩ := hf.phi b x hmem
      rw [hsources] at hy
      obtain ⟨s, hs, rfl⟩ := List.mem_map.mp hy
      exact (hf.source_available b x hmem sources hsources s hs).imp_right And.left
    | false =>
      obtain ⟨done, rest, heq⟩ := List.append_of_mem hx
      rcases hf.operand_available b done x rest heq hphi y hy with h | h | h
      · exact .inl h
      · exact .inr (hf.listed_of_mem_done heq h).1
      · exact .inr h.1

theorem Linked.operand_index_lt (hf : f.Linked) (hfill : f.Filled) (hx : x ∈ (f.block b).instrs)
    (hy : y ∈ (f.instr x).operands) : y.index < f.nodes.size :=
  (hf.operand b x hx y hy).elim index_lt_of_isLeaf hfill.index_lt_of_listed

end Linked

namespace Extends

variable (hfg : f.Extends g) (hfill : f.Filled)

include hfg

theorem mem_instrs (hx : x ∈ (g.block b).instrs) : x ∈ (f.block b).instrs ∨
    f.nodes.size ≤ x.index ∧ x.index < g.nodes.size ∧ g.home x = b ∧ (g.instr x).IsCode ∧
      x ∈ (g.block b).body := by
  obtain ⟨code, hcode⟩ := hfg.block b
  rw [hcode.block] at hx ⊢
  simp only [Block.instrs, List.mem_append] at hx ⊢
  rcases hx with (hx | hx | hx) | hx
  · exact .inl (.inl (.inl hx))
  · exact .inl (.inl (.inr hx))
  · exact .inr ⟨(hcode.new x hx).1, (hcode.new x hx).2, hcode.home x hx, hcode.isCode x hx,
      .inr hx⟩
  · exact .inl (.inr hx)

/-- A value of the old function that is there in the new one has been there before. -/
theorem availableAtEnd_of_lt (hy : y.index < f.nodes.size) (h : g.AvailableAtEnd b y) :
    f.AvailableAtEnd b y := by
  rw [AvailableAtEnd, Listed, hfg.instr hy, hfg.home hy, hfg.flow] at h
  refine h.imp id fun h => ⟨?_, h.2⟩
  obtain ⟨code, hcode⟩ := hfg.block (f.home y)
  have hmem := h.1
  rw [Block.values, hcode.block, ← List.append_assoc, List.mem_append] at hmem
  exact hmem.resolve_right fun hy' => absurd hy (Nat.not_lt.mpr (hcode.new y hy').1)

include hfill

theorem filled : g.Filled := by
  intro b x hx
  rcases hfg.mem_instrs hx with h | h
  · exact (hfill b x h).trans_le hfg.size
  · exact h.2.1

theorem filter_instrs (b : BlockId) :
    (g.block b).instrs.filter (fun x => x.index < f.nodes.size) = (f.block b).instrs := by
  obtain ⟨code, hcode⟩ := hfg.block b
  have hold {l : List InstrId} (hl : l ⊆ (f.block b).instrs) :
      l.filter (fun x => x.index < f.nodes.size) = l :=
    List.filter_eq_self.mpr fun x hx => decide_eq_true (hfill b x (hl hx))
  have hnew : code.filter (fun x => x.index < f.nodes.size) = [] :=
    List.filter_eq_nil_iff.mpr fun x hx => by simpa using (hcode.new x hx).1
  rw [hcode.block]
  simp only [Block.instrs, List.filter_append, hnew, List.append_nil]
  rw [hold (l := (f.block b).phis), hold (l := (f.block b).body),
    hold (l := (f.block b).terminator.toList)]
  · exact fun x hx => List.mem_append_right _ hx
  · exact fun x hx => List.mem_append_left _ (List.mem_append_right _ hx)
  · exact fun x hx => List.mem_append_left _ (List.mem_append_left _ hx)

theorem listed (hx : f.Listed x) : g.Listed x := by
  rw [Listed, hfg.home (hfill.index_lt_of_listed hx)]
  exact hfg.values_subset _ hx

theorem availableAtEnd (h : f.AvailableAtEnd b y) : g.AvailableAtEnd b y := by
  have hy := hfill.index_lt_of_availableAtEnd h
  rw [AvailableAtEnd, hfg.instr hy, hfg.home hy, hfg.flow]
  exact h.imp id fun h => ⟨hfg.listed hfill h.1, h.2⟩

theorem availableAfter {done done' : List InstrId} (h : f.AvailableAfter done b y)
    (hsub : done ⊆ done') : g.AvailableAfter done' b y := by
  rcases h with hleaf | hdone | ⟨hlisted, hne, hd⟩
  · exact .inl (by rwa [hfg.instr (index_lt_of_isLeaf hleaf)])
  · exact .inr (.inl (hsub hdone))
  · have hy := hfill.index_lt_of_listed hlisted
    refine .inr (.inr ⟨hfg.listed hfill hlisted, ?_, ?_⟩)
    · rwa [hfg.home hy]
    · rwa [hfg.home hy, hfg.flow]

theorem nodup_instrs (hnodup : (f.block b).instrs.Nodup) : (g.block b).instrs.Nodup := by
  obtain ⟨code, hcode⟩ := hfg.block b
  have hperm : (g.block b).instrs.Perm ((f.block b).instrs ++ code) := by
    rw [hcode.block]
    simp only [Block.instrs, List.append_assoc]
    exact (List.perm_append_comm.append_left _).append_left _
  refine hperm.nodup_iff.mpr (List.nodup_append.mpr ⟨hnodup, hcode.nodup, fun x hx y hy => ?_⟩)
  rintro rfl
  exact absurd (hfill b x hx) (Nat.not_lt.mpr (hcode.new x hy).1)

theorem coherent (hf : f.Coherent) : g.Coherent where
  flow := hfg.flow ▸ hf.flow
  target b y c hy hc := by
    rw [hfg.terminator] at hy
    rw [hfg.instr (hfill b y (List.mem_append_right _ (by simp [hy])))] at hc
    exact (congrArg (c ∈ ·.succs b) hfg.flow).mpr (hf.target b y c hy hc)
  home b x hx := by
    rcases hfg.mem_instrs hx with h | h
    · rw [hfg.home (hfill b x h), hf.home b x h]
    · exact h.2.2.1
  phi b x hx := by
    rw [hfg.phis] at hx
    rw [hfg.instr (hfill b x (List.mem_append_left _ (List.mem_append_left _ hx)))]
    exact hf.phi b x hx
  body b x hx := by
    obtain ⟨code, hcode⟩ := hfg.block b
    rw [hcode.block] at hx
    rcases List.mem_append.mp hx with hx | hx
    · rw [hfg.instr (hfill b x (List.mem_append_left _ (List.mem_append_right _ hx)))]
      exact hf.body b x hx
    · exact (hcode.isCode x hx).kind
  terminator b y hy := by
    rw [hfg.terminator] at hy
    rw [hfg.instr (hfill b y (List.mem_append_right _ (by simp [hy])))]
    exact hf.terminator b y hy
  param x hx := by
    rw [hfg.params] at hx
    have hleaf := hf.param x hx
    rwa [hfg.instr (index_lt_of_isLeaf hleaf)]
  nodup b := hfg.nodup_instrs hfill (hf.nodup b)

/-- A function that has grown is valid if its new instructions find their operands. -/
theorem valid (hf : f.Valid)
    (hnew : ∀ b done x rest, (g.block b).instrs = done ++ x :: rest → f.nodes.size ≤ x.index →
      ∀ y ∈ (g.instr x).operands, g.AvailableAfter done b y) : g.Valid where
  toCoherent := hfg.coherent hfill hf.toCoherent
  terminated b hb := by
    rw [hfg.terminator]
    exact hf.terminated b (hfg.blocks ▸ hb)
  sources b x hx sources hphi := by
    rw [hfg.phis] at hx
    rw [hfg.instr (hfill b x (List.mem_append_left _ (List.mem_append_left _ hx)))] at hphi
    have hone := hf.sources b x hx sources hphi
    exact ⟨hone.1, fun p => (hone.2 p).trans (iff_of_eq (congrArg (p ∈ ·.preds b) hfg.flow.symm))⟩
  entry := (congrArg (·.preds .entry) hfg.flow).trans hf.entry
  source_available b x hx sources hphi s hs := by
    rw [hfg.phis] at hx
    rw [hfg.instr (hfill b x (List.mem_append_left _ (List.mem_append_left _ hx)))] at hphi
    exact hfg.availableAtEnd hfill (hf.source_available b x hx sources hphi s hs)
  operand_available b done x rest heq hphi y hy := by
    by_cases hx : x.index < f.nodes.size
    · have hold := hfg.filter_instrs hfill b
      rw [heq, List.filter_append, List.filter_cons_of_pos (by simpa using hx)] at hold
      rw [hfg.instr hx] at hphi hy
      exact hfg.availableAfter hfill (hf.operand_available b _ x _ hold.symm hphi y hy)
        (List.filter_subset_self _)
    · exact hnew b done x rest heq (Nat.le_of_not_lt hx) y hy

end Extends

section Append

variable (hf : f.Valid) (hfill : f.Filled)

include hf hfill

theorem valid_addConstant (v : Int32) : (f.addConstant v).2.Valid := by
  refine (extends_addConstant f v).valid hfill hf fun b done x rest heq hx => ?_
  have hmem : x ∈ (f.block b).instrs := by
    rw [← block_addConstant f v, heq]
    exact List.mem_append_right _ List.mem_cons_self
  exact absurd (hfill b x hmem) (Nat.not_lt.mpr hx)

theorem valid_addInstr (hi : i.IsCode) (hops : ∀ y ∈ i.operands, f.AvailableAtEnd b y) :
    (f.addInstr b name i).Valid := by
  have hext := extends_addInstr f b name hi
  refine hext.valid hfill hf fun c done x rest heq hx y hy => ?_
  have hmem : x ∈ ((f.addInstr b name i).block c).instrs :=
    heq ▸ List.mem_append_right _ List.mem_cons_self
  have hold {z : InstrId} (hz : z ∈ (f.block c).instrs) : z ≠ x := by
    rintro rfl
    exact absurd (hfill c z hz) (Nat.not_lt.mpr hx)
  rw [block_addInstr] at hmem heq
  split_ifs at hmem heq with hc
  · obtain ⟨rfl, -⟩ := hc
    have hvalues : (f.block b).values ++ f.nextId :: (f.block b).terminator.toList =
        done ++ x :: rest := by
      simpa [Block.instrs, Block.values] using heq
    obtain rfl : x = f.nextId := by
      have : x ∈ (f.block b).values ++ f.nextId :: (f.block b).terminator.toList :=
        hvalues ▸ List.mem_append_right _ List.mem_cons_self
      rcases List.mem_append.mp this with h | h
      · exact absurd rfl (hold (List.mem_append_left _ h))
      · rcases List.mem_cons.mp h with h | h
        · exact h
        · exact absurd rfl (hold (List.mem_append_right _ h))
    have hdone : (f.block b).values ⊆ done := by
      rcases List.append_eq_append_iff.mp hvalues with ⟨u, rfl, -⟩ | ⟨u, heq, hu⟩
      · exact List.subset_append_left _ _
      · cases u with
        | nil => simp [heq]
        | cons z u =>
          obtain ⟨rfl, -⟩ := List.cons.inj hu
          have hmem : f.nextId ∈ (f.block b).values :=
            heq ▸ List.mem_append_right _ List.mem_cons_self
          exact absurd rfl (hold (List.mem_append_left _ hmem))
    have hinstr : (f.addInstr b name i).instr f.nextId = i := instr_addNode_nextId
    rw [hinstr] at hy
    rcases hops y hy with hleaf | ⟨hlisted, hd⟩
    · exact .inl (by rwa [hext.instr (index_lt_of_isLeaf hleaf)])
    · by_cases hhome : f.home y = b
      · exact .inr (.inl (hdone (hhome ▸ hlisted)))
      · have hy := hfill.index_lt_of_listed hlisted
        refine .inr (.inr ⟨hext.listed hfill hlisted, ?_, ?_⟩)
        · rwa [hext.home hy]
        · rwa [hext.home hy, hext.flow]
  · exact absurd rfl (hold hmem)

end Append

end Func

end LoopBounds
