import LoopBounds.Proofs.Func.Append

/-!
# Built functions are coherent

An operation that adds an instruction gives it the last node and lists it in one block, where
its kind belongs. So the tables of a built function fit together: every listed position has a
node that names the block, and the edges are those of the terminators.
-/

namespace LoopBounds.Func

variable {f g : Func} {b c s t : BlockId} {ts : List BlockId} {x : InstrId} {i : Instr}

section Coherence

/-- Coherence depends on the kinds of the nodes, their homes and targets, and on what the blocks
list. -/
theorem Coherent.congr (hf : f.Coherent) (hflow : g.flow.Coherent)
    (hhome : ∀ x, g.home x = f.home x)
    (hphi : ∀ x, (g.instr x).isPhi = (f.instr x).isPhi)
    (hterm : ∀ x, (g.instr x).isTerminator = (f.instr x).isTerminator)
    (hleaf : ∀ x, (g.instr x).isLeaf = (f.instr x).isLeaf)
    (htargets : ∀ x, (g.instr x).targets = (f.instr x).targets)
    (hparams : g.params = f.params)
    (hlists : ∀ c, (g.block c).phis = (f.block c).phis ∧ (g.block c).body = (f.block c).body ∧
      (g.block c).terminator = (f.block c).terminator ∧ (g.block c).succs = (f.block c).succs) :
    g.Coherent := by
  have hinstrs (c : BlockId) : (g.block c).instrs = (f.block c).instrs := by
    rw [Block.instrs, (hlists c).1, (hlists c).2.1, (hlists c).2.2.1]
    rfl
  have hisPhi {x : InstrId} (hx : (f.instr x).isPhi = true) :
      ∃ sources, g.instr x = .phi sources := by
    rw [← hphi] at hx
    cases hi : g.instr x with
    | phi sources => exact ⟨sources, rfl⟩
    | _ =>
      rw [hi] at hx
      cases hx
  exact {
    flow := hflow
    target := fun b y c hy hc => by
      rw [(hlists b).2.2.1] at hy
      rw [htargets] at hc
      exact (hlists b).2.2.2 ▸ hf.target b y c hy hc
    home := fun b x hx => (hhome x).trans (hf.home b x (hinstrs b ▸ hx))
    phi := fun b x hx => by
      obtain ⟨sources, hx⟩ := hf.phi b x ((hlists b).1 ▸ hx)
      exact hisPhi (by rw [hx]; rfl)
    body := fun b x hx => by
      rw [hphi, hterm, hleaf]
      exact hf.body b x ((hlists b).2.1 ▸ hx)
    terminator := fun b y hy => (hterm y).trans (hf.terminator b y ((hlists b).2.2.1 ▸ hy))
    param := fun x hx => (hleaf x).trans (hf.param x (hparams ▸ hx))
    nodup := fun b => hinstrs b ▸ hf.nodup b }

/-- The function `g` is `f` with one more node, which block `b` lists where its kind belongs. -/
structure Places (f g : Func) (b : BlockId) (i : Instr) : Prop where
  nodes : ∃ name, g.nodes = f.nodes.push ⟨name, b, i⟩ ∧ g.names = f.names.insert name
  params : g.params = f.params
  pool : g.pool = f.pool
  phis : ∀ c, ∀ x ∈ (g.block c).phis,
    x ∈ (f.block c).phis ∨ x = f.nextId ∧ c = b ∧ i.isPhi = true
  body : ∀ c, ∀ x ∈ (g.block c).body, x ∈ (f.block c).body ∨
    x = f.nextId ∧ c = b ∧ i.isPhi = false ∧ i.isTerminator = false ∧ i.isLeaf = false
  terminator : ∀ c x, (g.block c).terminator = some x →
    (f.block c).terminator = some x ∨ x = f.nextId ∧ c = b ∧ i.isTerminator = true
  instrs : ∀ c, (g.block c).instrs.Perm (f.block c).instrs ∨
    c = b ∧ (g.block c).instrs.Perm (f.nextId :: (f.block c).instrs)
  succs : ∀ c, (f.block c).succs ⊆ (g.block c).succs
  targets : ∀ t ∈ i.targets, t ∈ (g.block b).succs

namespace Places

variable (h : f.Places g b i)

include h

theorem node (x : InstrId) :
    ∃ name, g.node x = if x = f.nextId then ⟨name, b, i⟩ else f.node x := by
  obtain ⟨name, hnodes, -⟩ := h.nodes
  exact ⟨name, node_of_push hnodes x⟩

theorem node_of_lt (hx : x.index < f.nodes.size) : g.node x = f.node x := by
  obtain ⟨name, hnode⟩ := h.node x
  rw [hnode, if_neg]
  rintro rfl
  exact lt_irrefl _ hx

theorem home_nextId : g.home f.nextId = b := by
  obtain ⟨name, hnode⟩ := h.node f.nextId
  rw [home, hnode, if_pos rfl]

theorem instr_nextId : g.instr f.nextId = i := by
  obtain ⟨name, hnode⟩ := h.node f.nextId
  rw [instr, hnode, if_pos rfl]

theorem size : g.nodes.size = f.nodes.size + 1 := by
  obtain ⟨name, hnodes, -⟩ := h.nodes
  rw [hnodes, Array.size_push]

theorem mem_instrs (hx : x ∈ (g.block c).instrs) :
    x ∈ (f.block c).instrs ∨ x = f.nextId ∧ c = b := by
  rcases h.instrs c with hperm | ⟨hc, hperm⟩
  · exact .inl (hperm.mem_iff.mp hx)
  · exact (List.mem_cons.mp (hperm.mem_iff.mp hx)).symm.imp_right fun hx => ⟨hx, hc⟩

variable (hfill : f.Filled)

include hfill

theorem filled : g.Filled := by
  intro c x hx
  rw [h.size]
  rcases h.mem_instrs hx with hx | ⟨rfl, -⟩
  · exact Nat.lt_succ_of_lt (hfill c x hx)
  · exact Nat.lt_succ_self _

theorem coherent (hf : f.Coherent) (hflow : g.flow.Coherent) : g.Coherent where
  flow := hflow
  target c y t hy ht := by
    rcases h.terminator c y hy with hy | ⟨rfl, rfl, -⟩
    · have hlt := hfill c y (List.mem_append_right _ (Option.mem_toList.mpr hy))
      rw [instr, h.node_of_lt hlt] at ht
      exact h.succs c (hf.target c y t hy ht)
    · exact h.targets t (h.instr_nextId ▸ ht)
  home c x hx := by
    rcases h.mem_instrs hx with hx | ⟨rfl, rfl⟩
    · rw [Func.home, h.node_of_lt (hfill c x hx)]
      exact hf.home c x hx
    · exact h.home_nextId
  phi c x hx := by
    rcases h.phis c x hx with hx | ⟨rfl, -, hi⟩
    · have hlt := hfill c x (List.mem_append_left _ (List.mem_append_left _ hx))
      rw [instr, h.node_of_lt hlt]
      exact hf.phi c x hx
    · rw [h.instr_nextId]
      cases i with
      | phi sources => exact ⟨sources, rfl⟩
      | _ => cases hi
  body c x hx := by
    rcases h.body c x hx with hx | ⟨rfl, -, hi⟩
    · have hlt := hfill c x (List.mem_append_left _ (List.mem_append_right _ hx))
      rw [instr, h.node_of_lt hlt]
      exact hf.body c x hx
    · rwa [h.instr_nextId]
  terminator c y hy := by
    rcases h.terminator c y hy with hy | ⟨rfl, -, hi⟩
    · have hlt := hfill c y (List.mem_append_right _ (Option.mem_toList.mpr hy))
      rw [instr, h.node_of_lt hlt]
      exact hf.terminator c y hy
    · rwa [h.instr_nextId]
  param x hx := by
    have hleaf := hf.param x (h.params ▸ hx)
    rwa [instr, h.node_of_lt (index_lt_of_isLeaf hleaf)]
  nodup c := by
    rcases h.instrs c with hperm | ⟨-, hperm⟩
    · exact hperm.nodup_iff.mpr (hf.nodup c)
    · refine hperm.nodup_iff.mpr (List.nodup_cons.mpr ⟨fun hmem => ?_, hf.nodup c⟩)
      exact lt_irrefl _ (hfill c _ hmem)

end Places

end Coherence

section Operations

theorem places_addPhi (f : Func) (b : BlockId) (name : Option String)
    (sources : List (InstrId × BlockId)) : f.Places (f.addPhi b name sources) b (.phi sources) := by
  have hblock (c : BlockId) : (f.addPhi b name sources).block c =
      if b = c ∧ c.index < f.blocks.size
        then { f.block c with phis := (f.block c).phis ++ [f.nextId] } else f.block c := by
    rw [addPhi, block_modifyBlock, block_addNode, size_addNode]
  have hhead := sameHead_addNode f b name
  refine ⟨⟨_, nodes_addNode f b name _, names_addNode f b name _⟩, (hhead _).params,
    (hhead _).pool, fun c x hx => ?_, fun c x hx => ?_, fun c x hx => ?_, fun c => ?_,
    fun c => ?_, fun t ht => ?_⟩
  · rw [hblock] at hx
    split_ifs at hx with hc
    · exact (List.mem_append.mp hx).imp_right fun hx => ⟨List.mem_singleton.mp hx, hc.1.symm, rfl⟩
    · exact .inl hx
  · rw [hblock] at hx
    split_ifs at hx <;> exact .inl hx
  · rw [hblock] at hx
    split_ifs at hx <;> exact .inl hx
  · rw [hblock]
    split_ifs with hc
    · refine .inr ⟨hc.1.symm, ?_⟩
      simp only [Block.instrs, List.append_assoc, List.singleton_append]
      exact List.perm_middle
    · exact .inl (.refl _)
  · rw [hblock]
    split_ifs <;> exact fun _ h => h
  · cases ht

theorem places_addInstr (f : Func) (b : BlockId) (name : Option String)
    (hphi : i.isPhi = false) (hterm : i.isTerminator = false) (hleaf : i.isLeaf = false) :
    f.Places (f.addInstr b name i) b i := by
  have hhead := sameHead_addNode f b name
  refine ⟨⟨_, nodes_addNode f b name _, names_addNode f b name _⟩, (hhead _).params,
    (hhead _).pool, fun c x hx => ?_, fun c x hx => ?_, fun c x hx => ?_, fun c => ?_,
    fun c => ?_, fun t ht => ?_⟩
  · rw [block_addInstr] at hx
    split_ifs at hx <;> exact .inl hx
  · rw [block_addInstr] at hx
    split_ifs at hx with hc
    · exact (List.mem_append.mp hx).imp_right fun hx =>
        ⟨List.mem_singleton.mp hx, hc.1.symm, hphi, hterm, hleaf⟩
    · exact .inl hx
  · rw [block_addInstr] at hx
    split_ifs at hx <;> exact .inl hx
  · rw [block_addInstr]
    split_ifs with hc
    · refine .inr ⟨hc.1.symm, ?_⟩
      simp only [Block.instrs, List.append_assoc, List.singleton_append]
      rw [← List.append_assoc, ← List.append_assoc]
      exact List.perm_middle
    · exact .inl (.refl _)
  · rw [block_addInstr]
    split_ifs <;> exact fun _ h => h
  · cases i with
    | jump | branch | ret => cases hterm
    | _ => cases ht

theorem subset_succs_foldl_link (hs : s.index < f.blocks.size) (c : BlockId) :
    (f.block c).succs ⊆ ((ts.foldl (fun g t => g.link s t) f).block c).succs := by
  induction ts generalizing f with
  | nil => exact List.Subset.refl _
  | cons t ts ih =>
    refine List.Subset.trans ?_ (ih (by simpa using hs))
    rw [succs_link hs]
    split_ifs
    · exact List.subset_append_left _ _
    · exact List.Subset.refl _

theorem mem_succs_foldl_link (hs : s.index < f.blocks.size) (ht : t ∈ ts) :
    t ∈ ((ts.foldl (fun g t => g.link s t) f).block s).succs := by
  induction ts generalizing f with
  | nil => cases ht
  | cons u ts ih =>
    have hs' : s.index < (f.link s u).blocks.size := by simpa using hs
    rcases List.mem_cons.mp ht with rfl | ht
    · refine subset_succs_foldl_link hs' s ?_
      rw [succs_link hs]
      split_ifs with hmem
      · exact List.mem_append_right _ (List.mem_singleton_self t)
      · simpa using hmem
    · exact ih hs' ht

theorem places_setTerminator (hb : b.index < f.blocks.size) (hnone : f.terminator? b = none)
    (hi : i.isTerminator = true) : f.Places (f.setTerminator b i) b i := by
  have hb' : b.index < ((f.addNode b none i).modifyBlock b
      fun bb => { bb with terminator := some f.nextId }).blocks.size := by simpa using hb
  have hsuccs (c : BlockId) : (((f.addNode b none i).modifyBlock b
      fun bb => { bb with terminator := some f.nextId }).block c).succs = (f.block c).succs := by
    rw [block_modifyBlock, block_addNode]
    split_ifs <;> rfl
  have hblock := exists_block_setTerminator i hb
  have hhead := sameHead_foldl_link ((f.addNode b none i).modifyBlock b
    fun bb => { bb with terminator := some f.nextId }) b i.targets
  refine ⟨⟨temporaryName f.freshTemporary, ?_, ?_⟩, hhead.params, hhead.pool, fun c x hx => ?_,
    fun c x hx => ?_, fun c x hx => ?_, fun c => ?_, fun c => ?_,
    fun t ht => mem_succs_foldl_link hb' ht⟩
  · rw [setTerminator, nodes_foldl_link]
    exact nodes_addNode f b none i
  · rw [setTerminator, names_foldl_link]
    exact names_addNode f b none i
  · obtain ⟨ss, ps, heq⟩ := hblock c
    rw [heq] at hx
    exact .inl hx
  · obtain ⟨ss, ps, heq⟩ := hblock c
    rw [heq] at hx
    exact .inl hx
  · obtain ⟨ss, ps, heq⟩ := hblock c
    rw [heq] at hx
    dsimp only at hx
    split_ifs at hx with hc
    · exact .inr ⟨(Option.some.inj hx).symm, hc, hi⟩
    · exact .inl hx
  · obtain ⟨ss, ps, heq⟩ := hblock c
    rw [heq]
    by_cases hc : c = b
    · subst hc
      refine .inr ⟨rfl, ?_⟩
      rw [terminator?] at hnone
      simp only [Block.instrs, if_true, Option.toList_some, hnone, Option.toList_none,
        List.append_nil]
      exact List.perm_append_singleton _ _
    · simp only [if_neg hc]
      exact .inl (.refl _)
  · rw [← hsuccs]
    exact subset_succs_foldl_link hb' c

end Operations

section Built

theorem Filled.congr (hfill : f.Filled) (hsize : f.nodes.size ≤ g.nodes.size)
    (hinstrs : ∀ c, (g.block c).instrs = (f.block c).instrs) : g.Filled :=
  fun c x hx => (hfill c x (hinstrs c ▸ hx)).trans_le hsize

theorem lists_addBlock (label : String) (c : BlockId) :
    ((f.addBlock label).block c).phis = (f.block c).phis ∧
      ((f.addBlock label).block c).body = (f.block c).body ∧
      ((f.addBlock label).block c).terminator = (f.block c).terminator ∧
      ((f.addBlock label).block c).succs = (f.block c).succs := by
  have hnew : f.block f.nextBlock = Block.vacant := block_of_size_le (Nat.le_refl _)
  rw [block_addBlock]
  split_ifs with hc
  · rw [hc, hnew]
    exact ⟨rfl, rfl, rfl, rfl⟩
  · exact ⟨rfl, rfl, rfl, rfl⟩

theorem lists_renameBlock (b : BlockId) (label : String) (c : BlockId) :
    ((f.renameBlock b label).block c).phis = (f.block c).phis ∧
      ((f.renameBlock b label).block c).body = (f.block c).body ∧
      ((f.renameBlock b label).block c).terminator = (f.block c).terminator ∧
      ((f.renameBlock b label).block c).succs = (f.block c).succs := by
  rw [renameBlock, block_modifyBlock]
  split_ifs <;> exact ⟨rfl, rfl, rfl, rfl⟩

theorem node_addPhiSource (f : Func) (x value : InstrId) (source : BlockId) (y : InstrId) :
    (f.addPhiSource x value source).node y = f.node y ∨
      ∃ sources, f.instr y = .phi sources ∧ (f.addPhiSource x value source).node y =
        { f.node y with instr := .phi (sources ++ [(value, source)]) } := by
  obtain ⟨k⟩ := y
  simp only [node, instr, addPhiSource, Array.getElem?_modify]
  split_ifs with hk
  · cases hn : f.nodes[k]? with
    | none => exact .inl rfl
    | some n =>
      obtain ⟨name, b, i⟩ := n
      cases i with
      | phi sources => exact .inr ⟨sources, rfl, rfl⟩
      | _ => exact .inl rfl
  · exact .inl rfl

/-- Whatever has been built, every listed position has a node, and the tables fit together. -/
theorem Built.coherent_and_filled (h : f.Built) : f.Coherent ∧ f.Filled := by
  have hflow : f.flow.Coherent := h.simple.toCoherent
  induction h with
  | empty name returns =>
    have hblock (c : BlockId) : ((Func.empty name returns).block c).phis = [] ∧
        ((Func.empty name returns).block c).body = [] ∧
        ((Func.empty name returns).block c).terminator = none := by
      simp only [block, Func.empty]
      cases c.index <;> simp [Block.vacant]
    have hinstrs (c : BlockId) : ((Func.empty name returns).block c).instrs = [] := by
      simp [Block.instrs, hblock]
    exact ⟨⟨hflow, by simp [hblock], by simp [hinstrs], by simp [hblock], by simp [hblock],
      by simp [hblock], by simp [Func.empty], by simp [hinstrs]⟩, by simp [Filled, hinstrs]⟩
  | @addParam f name hf ih =>
    obtain ⟨hcoherent, hfill⟩ := ih hf.simple.toCoherent
    have hext := extends_addNode f .entry (some name) (.param f.params.length)
    have hnode := hext.coherent hfill hcoherent
    refine ⟨⟨hflow, hnode.target, hnode.home, hnode.phi, hnode.body, hnode.terminator, ?_,
      hnode.nodup⟩, hext.filled hfill⟩
    intro x hx
    rcases List.mem_append.mp hx with hx | hx
    · exact hnode.param x hx
    · obtain rfl := List.mem_singleton.mp hx
      have hinstr : (f.addParam name).instr f.nextId = .param f.params.length :=
        instr_addNode_nextId (f := f)
      rw [hinstr]
      rfl
  | @addConstant f v hf ih =>
    obtain ⟨hcoherent, hfill⟩ := ih hf.simple.toCoherent
    have hext := extends_addConstant f v
    exact ⟨hext.coherent hfill hcoherent, hext.filled hfill⟩
  | addBlock label hf ih =>
    obtain ⟨hcoherent, hfill⟩ := ih hf.simple.toCoherent
    refine ⟨hcoherent.congr hflow (fun _ => rfl) (fun _ => rfl) (fun _ => rfl) (fun _ => rfl)
      (fun _ => rfl) rfl (lists_addBlock label), hfill.congr le_rfl fun c => ?_⟩
    rw [Block.instrs, (lists_addBlock label c).1, (lists_addBlock label c).2.1,
      (lists_addBlock label c).2.2.1]
    rfl
  | renameBlock b label hf hb ih =>
    obtain ⟨hcoherent, hfill⟩ := ih hf.simple.toCoherent
    refine ⟨hcoherent.congr hflow (fun _ => rfl) (fun _ => rfl) (fun _ => rfl) (fun _ => rfl)
      (fun _ => rfl) rfl (lists_renameBlock b label), hfill.congr le_rfl fun c => ?_⟩
    rw [Block.instrs, (lists_renameBlock b label c).1, (lists_renameBlock b label c).2.1,
      (lists_renameBlock b label c).2.2.1]
    rfl
  | @addPhi f b name sources hf hb ih =>
    obtain ⟨hcoherent, hfill⟩ := ih hf.simple.toCoherent
    have hplaces := places_addPhi f b name sources
    exact ⟨hplaces.coherent hfill hcoherent hflow, hplaces.filled hfill⟩
  | @addPhiSource f x value source hf hx ih =>
    obtain ⟨hcoherent, hfill⟩ := ih hf.simple.toCoherent
    have hnode := node_addPhiSource f x value source
    refine ⟨hcoherent.congr hflow (fun y => ?_) (fun y => ?_) (fun y => ?_) (fun y => ?_)
      (fun y => ?_) rfl fun _ => ⟨rfl, rfl, rfl, rfl⟩, hfill.congr (by simp [Func.addPhiSource])
      fun _ => rfl⟩
    all_goals
      rcases hnode y with heq | ⟨sources, hphi, heq⟩
    all_goals
      simp only [home, instr, heq] at *
    all_goals
      rw [hphi]
      rfl
  | @addInstr f b name i hf hb hphi hterm hleaf ih =>
    obtain ⟨hcoherent, hfill⟩ := ih hf.simple.toCoherent
    have hplaces := places_addInstr f b name hphi hterm hleaf
    exact ⟨hplaces.coherent hfill hcoherent hflow, hplaces.filled hfill⟩
  | setTerminator b i hf hb hnone hterm ht ih =>
    obtain ⟨hcoherent, hfill⟩ := ih hf.simple.toCoherent
    have hplaces := places_setTerminator hb hnone hterm
    exact ⟨hplaces.coherent hfill hcoherent hflow, hplaces.filled hfill⟩

theorem Built.coherent (h : f.Built) : f.Coherent := h.coherent_and_filled.1

theorem Built.filled (h : f.Built) : f.Filled := h.coherent_and_filled.2

end Built

end LoopBounds.Func
