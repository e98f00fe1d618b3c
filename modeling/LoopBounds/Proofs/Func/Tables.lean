import LoopBounds.Proofs.Func.Coherent

/-!
# The tables of a function agree

A function records much of what it says twice. An edge stands at both of its ends and in a
terminator; an instruction names its block and is listed there; a constant is in the pool, a
parameter in the list of parameters, and a name in the set of names. Every operation updates
these records one by one, and after each of them they agree.
-/

namespace LoopBounds

/-- The list of a block in which instruction `i` has its place. -/
def Block.listFor (bb : Block) (i : Instr) : List InstrId :=
  if i.isPhi then bb.phis else if i.isTerminator then bb.terminator.toList else bb.body

theorem Block.listFor_subset (bb : Block) (i : Instr) : bb.listFor i ⊆ bb.instrs := by
  unfold listFor instrs
  split_ifs
  · exact fun x hx => List.mem_append_left _ (List.mem_append_left _ hx)
  · exact List.subset_append_right _ _
  · exact fun x hx => List.mem_append_left _ (List.mem_append_right _ hx)

namespace Func

/-- What a function records about edges, places, constants, parameters and names agrees. -/
structure Consistent (f : Func) : Prop where
  edges : ∀ b c, c ∈ (f.block b).succs ↔ b ∈ (f.block c).preds
  nodup_succs : ∀ b, (f.block b).succs.Nodup
  nodup_preds : ∀ b, (f.block b).preds.Nodup
  /-- The successors are the targets of the terminator, each once. -/
  succs : ∀ b, (f.block b).succs =
    ((f.terminator? b).elim [] fun y => (f.instr y).targets).eraseDups
  listed : ∀ b, ∀ x ∈ (f.block b).instrs, x.index < f.nodes.size
  /-- Constants and parameters stand in no list, anything else once in its own block. -/
  occurs : ∀ x b, x.index < f.nodes.size → (f.block b).instrs.count x =
    if (f.instr x).isLeaf = false ∧ b = f.home x then 1 else 0
  kind : ∀ x, x.index < f.nodes.size → (f.instr x).isLeaf = false →
    x ∈ (f.block (f.home x)).listFor (f.instr x)
  /-- There is one node for a constant at most, to which the pool leads. -/
  constant : ∀ v x, f.findConstant? v = some x ↔ f.instr x = .constant v
  /-- The parameters are listed in the order of their positions. -/
  param : ∀ k x, f.params[k]? = some x ↔ f.instr x = .param k
  /-- The names in use are those of the nodes. -/
  names : ∀ s, f.usesName s = true ↔ ∃ x, x.index < f.nodes.size ∧ f.nameOf x = s

variable {f g : Func} {b c s t : BlockId} {ts : List BlockId} {x y : InstrId} {i j : Instr}
variable {name : Option String}

section Leaves

variable {v : Int32}

theorem findConstant?_eq_some (h : f.findConstant? v = some x) :
    x.index < f.nodes.size ∧ f.instr x = .constant v :=
  have hinstr := instr_of_findConstant? h
  ⟨index_lt_of_isLeaf (by rw [hinstr]; rfl), hinstr⟩

/-- Every constant that is there is found. -/
def ConstantsPooled (f : Func) : Prop := ∀ v x, f.instr x = .constant v → f.findConstant? v = some x

/-- The parameters are listed in the order of their positions. -/
def ParamsInOrder (f : Func) : Prop := ∀ k x, f.params[k]? = some x ↔ f.instr x = .param k

/-- Constants and parameters are the same in both functions. -/
def SameLeaves (f g : Func) : Prop :=
  ∀ x i, i.isLeaf = true → (g.instr x = i ↔ f.instr x = i)

theorem ConstantsPooled.findConstant?_eq_some_iff (hf : f.ConstantsPooled) :
    f.findConstant? v = some x ↔ f.instr x = .constant v :=
  ⟨instr_of_findConstant?, hf v x⟩

theorem ConstantsPooled.unique (hf : f.ConstantsPooled) (hx : f.instr x = .constant v)
    (hy : f.instr y = .constant v) : x = y :=
  Option.some.inj ((hf v x hx).symm.trans (hf v y hy))

theorem SameLeaves.constantsPooled (h : f.SameLeaves g) (hpool : g.pool = f.pool)
    (hf : f.ConstantsPooled) : g.ConstantsPooled := fun v x hx => by
  rw [findConstant?, hpool]
  exact hf v x ((h x _ rfl).mp hx)

theorem SameLeaves.paramsInOrder (h : f.SameLeaves g) (hparams : g.params = f.params)
    (hf : f.ParamsInOrder) : g.ParamsInOrder := fun k x => by
  rw [hparams, hf k x, h x _ rfl]

theorem instr_eq_of_nextId (f : Func) : f.instr f.nextId = .ret none := by
  simp [instr, node, nextId, Node.vacant]

theorem instr_of_nodes_push {n : Node} (h : g.nodes = f.nodes.push n) (x : InstrId) :
    g.instr x = if x = f.nextId then n.instr else f.instr x := by
  rw [instr, node_of_push h]
  split_ifs <;> rfl

theorem Places.sameLeaves (h : f.Places g b i) (hi : i.isLeaf = false) : f.SameLeaves g := by
  intro x j hj
  obtain ⟨name, hnodes, -⟩ := h.nodes
  rw [instr_of_nodes_push hnodes]
  split_ifs with hx
  · rw [hx, instr_eq_of_nextId]
    constructor
    · rintro rfl
      exact absurd hj (by simp [hi])
    · rintro rfl
      cases hj
  · rfl

theorem sameLeaves_addPhiSource (f : Func) (x value : InstrId) (source : BlockId) :
    f.SameLeaves (f.addPhiSource x value source) := by
  intro y i hi
  rcases node_addPhiSource f x value source y with heq | ⟨sources, hphi, heq⟩
  · rw [instr, heq]
    rfl
  · rw [hphi, instr, heq]
    refine iff_of_false ?_ ?_ <;>
    · rintro rfl
      cases hi

/-- A further node that is no constant leaves the pool as it is. -/
theorem ConstantsPooled.push {n : Node} (hf : f.ConstantsPooled) (h : g.nodes = f.nodes.push n)
    (hpool : g.pool = f.pool) (hn : ∀ v, n.instr ≠ .constant v) : g.ConstantsPooled := by
  intro v x hx
  rw [instr_of_nodes_push h] at hx
  split_ifs at hx with hxn
  · exact absurd hx (hn v)
  · rw [findConstant?, hpool]
    exact hf v x hx

theorem findConstant?_pushConstant (f : Func) (v w : Int32) :
    (f.pushConstant v).findConstant? w = if w = v then some f.nextId else f.findConstant? w := by
  have hpool : (f.pushConstant v).pool = (v, f.nextId) :: f.pool := rfl
  rw [findConstant?, hpool, List.lookup_cons]
  split_ifs with hw
  · simp [hw]
  · rw [beq_false_of_ne hw]
    rfl

theorem constantsPooled_addConstant (hf : f.ConstantsPooled) (v : Int32) :
    (f.addConstant v).2.ConstantsPooled := by
  unfold addConstant
  split
  · exact hf
  · rename_i hnone
    intro w x hx
    dsimp only at hx ⊢
    rw [instr_of_nodes_push (nodes_pushConstant f v)] at hx
    rw [findConstant?_pushConstant]
    split_ifs at hx with hxn
    · rw [if_pos (Instr.constant.inj hx).symm, hxn]
    · rw [if_neg, hf w x hx]
      -- the constant was not there
      rintro rfl
      rw [hf w x hx] at hnone
      cases hnone

theorem paramsInOrder_addConstant (hf : f.ParamsInOrder) (v : Int32) :
    (f.addConstant v).2.ParamsInOrder := by
  unfold addConstant
  split
  · exact hf
  · intro k x
    dsimp only
    rw [instr_of_nodes_push (nodes_pushConstant f v)]
    have hparams : (f.pushConstant v).params = f.params := rfl
    rw [hparams]
    split_ifs with hx
    · rw [hx]
      exact iff_of_false (fun h => by simpa [instr_eq_of_nextId] using (hf k _).mp h) nofun
    · exact hf k x

theorem paramsInOrder_addParam (hf : f.ParamsInOrder) (name : String) :
    (f.addParam name).ParamsInOrder := by
  intro k x
  have hparams : (f.addParam name).params = f.params ++ [f.nextId] := rfl
  have hnot : f.params[k]? ≠ some f.nextId := fun h => by
    simpa [instr_eq_of_nextId] using (hf k _).mp h
  have hinstr : (f.addParam name).instr x =
      if x = f.nextId then .param f.params.length else f.instr x :=
    instr_of_nodes_push (nodes_addNode f .entry (some name) (.param f.params.length)) x
  rw [hparams, hinstr]
  rcases lt_trichotomy k f.params.length with hk | rfl | hk
  · rw [List.getElem?_append_left hk]
    split_ifs with hx
    · rw [hx]
      exact iff_of_false hnot fun h => absurd (Instr.param.inj h) (Nat.ne_of_gt hk)
    · exact hf k x
  · rw [List.getElem?_append_right (Nat.le_refl _), Nat.sub_self, List.getElem?_cons_zero]
    split_ifs with hx
    · simp [hx]
    · refine iff_of_false (fun h => hx (Option.some.inj h).symm) fun h => ?_
      have hlist := (hf _ x).mpr h
      simp at hlist
  · rw [List.getElem?_eq_none (by simpa using hk)]
    split_ifs with hx
    · simpa using Nat.ne_of_lt hk
    · simpa [List.getElem?_eq_none (Nat.le_of_lt hk)] using hf k x

/-- Whatever has been built, the pool holds the constants, and the parameters are listed in the
order of their positions. -/
theorem Built.constantsPooled_and_paramsInOrder (h : f.Built) :
    f.ConstantsPooled ∧ f.ParamsInOrder := by
  have hplaced {f g : Func} {b : BlockId} {i : Instr} (h : f.Places g b i)
      (hi : i.isLeaf = false) (ih : f.ConstantsPooled ∧ f.ParamsInOrder) :
      g.ConstantsPooled ∧ g.ParamsInOrder :=
    ⟨(h.sameLeaves hi).constantsPooled h.pool ih.1, (h.sameLeaves hi).paramsInOrder h.params ih.2⟩
  induction h with
  | empty name returns =>
    have hvacant (x : InstrId) : (Func.empty name returns).instr x = .ret none := by
      simp [instr, node, Func.empty, Node.vacant]
    have hparams : (Func.empty name returns).params = [] := rfl
    exact ⟨fun v x hx => by simp [hvacant] at hx, fun k x => by simp [hvacant, hparams]⟩
  | @addParam f name _ ih =>
    have hnodes := nodes_addNode f .entry (some name) (.param f.params.length)
    refine ⟨ih.1.push hnodes rfl ?_, paramsInOrder_addParam ih.2 name⟩
    intro v hv
    cases hv
  | addConstant v _ ih =>
    exact ⟨constantsPooled_addConstant ih.1 v, paramsInOrder_addConstant ih.2 v⟩
  | addBlock label _ ih => exact ih
  | renameBlock b label _ _ ih => exact ih
  | @addPhi f b name sources _ _ ih => exact hplaced (places_addPhi f b name sources) rfl ih
  | @addPhiSource f x value source _ _ ih =>
    have hsame := sameLeaves_addPhiSource f x value source
    exact ⟨hsame.constantsPooled rfl ih.1, hsame.paramsInOrder rfl ih.2⟩
  | @addInstr f b name i _ _ hphi hterm hleaf ih =>
    exact hplaced (places_addInstr f b name hphi hterm hleaf) hleaf ih
  | setTerminator b i _ hb hnone hterm _ ih =>
    have hleaf : i.isLeaf = false := by simpa using Instr.not_isLeaf_of_isTerminator hterm
    exact hplaced (places_setTerminator hb hnone hterm) hleaf ih

theorem Built.constantsPooled (h : f.Built) : f.ConstantsPooled :=
  h.constantsPooled_and_paramsInOrder.1

end Leaves

section Names

/-- Every name in use is that of a node. -/
def NamesOfNodes (f : Func) : Prop := ∀ s ∈ f.names, ∃ n ∈ f.nodes, n.name = s

theorem NamesOfNodes.push {n : Node} (hf : f.NamesOfNodes) (hnodes : g.nodes = f.nodes.push n)
    (hnames : g.names = f.names.insert n.name) : g.NamesOfNodes := by
  intro s hs
  rw [hnames, List.mem_insert_iff] at hs
  rw [hnodes]
  rcases hs with rfl | hs
  · exact ⟨n, Array.mem_push_self, rfl⟩
  · obtain ⟨m, hm, hname⟩ := hf s hs
    exact ⟨m, Array.mem_push_of_mem n hm, hname⟩

theorem Places.namesOfNodes (h : f.Places g b i) (hf : f.NamesOfNodes) : g.NamesOfNodes := by
  obtain ⟨name, hnodes, hnames⟩ := h.nodes
  exact hf.push hnodes hnames

theorem NamesOfNodes.addPhiSource (hf : f.NamesOfNodes) (x value : InstrId) (source : BlockId) :
    (f.addPhiSource x value source).NamesOfNodes := by
  intro s hs
  obtain ⟨n, hn, rfl⟩ := hf s hs
  obtain ⟨k, hk, rfl⟩ := Array.mem_iff_getElem.mp hn
  have hk' : k < (f.addPhiSource x value source).nodes.size := by simpa [Func.addPhiSource] using hk
  refine ⟨_, Array.getElem_mem hk', ?_⟩
  simp only [Func.addPhiSource, Array.getElem_modify]
  split_ifs
  · exact Node.name_addSource _ _ _
  · rfl

/-- Whatever has been built, no name is in use that no node has. -/
theorem Built.namesOfNodes (h : f.Built) : f.NamesOfNodes := by
  induction h with
  | empty name returns => exact nofun
  | @addParam f name _ ih =>
    exact ih.push (nodes_addNode f .entry (some name) (.param f.params.length)) rfl
  | @addConstant f v _ ih =>
    unfold Func.addConstant
    split
    · exact ih
    · exact ih.push (nodes_pushConstant f v) rfl
  | addBlock label _ ih => exact ih
  | renameBlock b label _ _ ih => exact ih
  | @addPhi f b name sources _ _ ih => exact (places_addPhi f b name sources).namesOfNodes ih
  | addPhiSource x value source _ _ ih => exact ih.addPhiSource x value source
  | @addInstr f b name i _ _ hphi hterm hleaf ih =>
    exact (places_addInstr f b name hphi hterm hleaf).namesOfNodes ih
  | setTerminator b i _ hb hnone hterm _ ih =>
    exact (places_setTerminator hb hnone hterm).namesOfNodes ih

theorem usesName_nameOf (hx : x.index < f.nodes.size) : f.usesName (f.nameOf x) = true := by
  rw [usesName, decide_eq_true_eq, nameOf, node, Array.getElem?_eq_getElem hx]
  exact f.named _ (Array.getElem_mem hx)

/-- The names in use are those of the nodes. -/
theorem NamesOfNodes.usesName_iff (hf : f.NamesOfNodes) {s : String} :
    f.usesName s = true ↔ ∃ x, x.index < f.nodes.size ∧ f.nameOf x = s := by
  constructor
  · intro h
    obtain ⟨n, hn, rfl⟩ := hf s (of_decide_eq_true h)
    obtain ⟨k, hk, rfl⟩ := Array.mem_iff_getElem.mp hn
    exact ⟨⟨k⟩, hk, by rw [nameOf, node, Array.getElem?_eq_getElem hk, Option.getD_some]⟩
  · rintro ⟨x, hx, rfl⟩
    exact usesName_nameOf hx

end Names

section Places

/-- Every instruction but the leaves stands in the list of its kind, in its own block. -/
def InPlace (f : Func) : Prop := ∀ x, x.index < f.nodes.size → (f.instr x).isLeaf = false →
  x ∈ (f.block (f.home x)).listFor (f.instr x)

theorem listFor_subset_append (hnone : i.isTerminator = true → f.terminator? b = none)
    (hb : b.index < f.blocks.size) (c : BlockId) (j : Instr) :
    (f.block c).listFor j ⊆ ((f.append b name i).block c).listFor j := by
  cases hphi : i.isPhi with
  | true =>
    rw [block_append_of_isPhi f b name hphi]
    split_ifs
    · unfold Block.listFor
      split_ifs
      · exact List.subset_append_left _ _
      · exact List.Subset.refl _
      · exact List.Subset.refl _
    · exact List.Subset.refl _
  | false =>
    cases hterm : i.isTerminator with
    | true =>
      obtain ⟨ss, ps, hblock⟩ := exists_block_setTerminator i hb c
      rw [append_of_isTerminator f b name hterm, hblock]
      unfold Block.listFor
      dsimp only
      split_ifs with _ _ hc
      · exact List.Subset.refl _
      · have hempty : (f.block c).terminator = none := hc ▸ hnone hterm
        simp [hempty]
      · exact List.Subset.refl _
      · exact List.Subset.refl _
    | false =>
      rw [block_append_of_ordinary f b name hphi hterm]
      split_ifs
      · unfold Block.listFor
        split_ifs
        · exact List.Subset.refl _
        · exact List.Subset.refl _
        · exact List.subset_append_left _ _
      · exact List.Subset.refl _

theorem nextId_mem_listFor_append (f : Func) (name : Option String)
    (hb : b.index < f.blocks.size) : f.nextId ∈ ((f.append b name i).block b).listFor i := by
  cases hphi : i.isPhi with
  | true =>
    rw [block_append_of_isPhi f b name hphi, if_pos ⟨rfl, hb⟩]
    simp [Block.listFor, hphi]
  | false =>
    cases hterm : i.isTerminator with
    | true =>
      obtain ⟨ss, ps, hblock⟩ := exists_block_setTerminator i hb b
      rw [append_of_isTerminator f b name hterm, hblock]
      simp [Block.listFor, hphi, hterm]
    | false =>
      rw [block_append_of_ordinary f b name hphi hterm, if_pos ⟨rfl, hb⟩]
      simp [Block.listFor, hphi, hterm]

theorem inPlace_append (hf : f.InPlace) (h : f.Places (f.append b name i) b i)
    (hnone : i.isTerminator = true → f.terminator? b = none) (hb : b.index < f.blocks.size) :
    (f.append b name i).InPlace := by
  intro x hx hleaf
  by_cases hold : x.index < f.nodes.size
  · have hnode := h.node_of_lt hold
    rw [instr, hnode] at hleaf ⊢
    rw [home, hnode]
    exact listFor_subset_append hnone hb _ _ (hf x hold hleaf)
  · obtain rfl : x = f.nextId := by
      obtain ⟨k⟩ := x
      rw [h.size] at hx
      exact congrArg InstrId.mk (Nat.le_antisymm (Nat.le_of_lt_succ hx) (Nat.le_of_not_lt hold))
    rw [h.home_nextId, h.instr_nextId]
    exact nextId_mem_listFor_append f name hb

theorem inPlace_addNode (hf : f.InPlace) (b : BlockId) (name : Option String)
    (hi : i.isLeaf = true) : (f.addNode b name i).InPlace := by
  intro x hx hleaf
  have hne : x ≠ f.nextId := by
    rintro rfl
    rw [instr_addNode_nextId, hi] at hleaf
    cases hleaf
  have hold : x.index < f.nodes.size := by
    obtain ⟨k⟩ := x
    rw [nodes_size_addNode] at hx
    exact lt_of_le_of_ne (Nat.le_of_lt_succ hx) fun h => hne (congrArg InstrId.mk h)
  have hnode : (f.addNode b name i).node x = f.node x := node_addNode_of_lt hold
  rw [instr, hnode] at hleaf ⊢
  rw [home, hnode, block_addNode]
  exact hf x hold hleaf

theorem InPlace.congr (hf : f.InPlace) (hsize : g.nodes.size = f.nodes.size)
    (hhome : ∀ x, g.home x = f.home x) (hphi : ∀ x, (g.instr x).isPhi = (f.instr x).isPhi)
    (hterm : ∀ x, (g.instr x).isTerminator = (f.instr x).isTerminator)
    (hleaf : ∀ x, (g.instr x).isLeaf = (f.instr x).isLeaf)
    (hlists : ∀ c, (g.block c).phis = (f.block c).phis ∧ (g.block c).body = (f.block c).body ∧
      (g.block c).terminator = (f.block c).terminator) : g.InPlace := by
  intro x hx hl
  have hplace := hf x (hsize ▸ hx) (hleaf x ▸ hl)
  unfold Block.listFor at hplace ⊢
  rwa [hphi, hterm, hhome, (hlists _).1, (hlists _).2.1, (hlists _).2.2]

theorem kind_addPhiSource (f : Func) (x value : InstrId) (source : BlockId) (y : InstrId) :
    (f.addPhiSource x value source).home y = f.home y ∧
      ((f.addPhiSource x value source).instr y).isPhi = (f.instr y).isPhi ∧
      ((f.addPhiSource x value source).instr y).isTerminator = (f.instr y).isTerminator ∧
      ((f.addPhiSource x value source).instr y).isLeaf = (f.instr y).isLeaf ∧
      ((f.addPhiSource x value source).instr y).targets = (f.instr y).targets := by
  rcases node_addPhiSource f x value source y with heq | ⟨sources, hphi, heq⟩
  · simp only [home, instr, heq, and_self]
  · rw [hphi, home, instr, heq]
    exact ⟨rfl, rfl, rfl, rfl, rfl⟩

/-- Whatever has been built, every instruction but the leaves stands in the list of its kind. -/
theorem Built.inPlace (h : f.Built) : f.InPlace := by
  induction h with
  | empty name returns => exact fun x hx => absurd hx (Nat.not_lt_zero _)
  | addParam name _ ih => exact inPlace_addNode ih _ _ rfl
  | addConstant v _ ih =>
    unfold Func.addConstant
    split
    · exact ih
    · exact inPlace_addNode ih _ _ rfl
  | addBlock label _ ih =>
    exact ih.congr rfl (fun _ => rfl) (fun _ => rfl) (fun _ => rfl) (fun _ => rfl) fun c =>
      ⟨(lists_addBlock label c).1, (lists_addBlock label c).2.1, (lists_addBlock label c).2.2.1⟩
  | renameBlock b label _ _ ih =>
    exact ih.congr rfl (fun _ => rfl) (fun _ => rfl) (fun _ => rfl) (fun _ => rfl) fun c =>
      ⟨(lists_renameBlock b label c).1, (lists_renameBlock b label c).2.1,
        (lists_renameBlock b label c).2.2.1⟩
  | @addPhi f b name sources _ hb ih =>
    exact inPlace_append (i := .phi sources) ih (places_addPhi f b name sources) nofun hb
  | @addPhiSource f x value source _ _ ih =>
    have hkind := kind_addPhiSource f x value source
    exact ih.congr (by simp [Func.addPhiSource]) (fun y => (hkind y).1) (fun y => (hkind y).2.1)
      (fun y => (hkind y).2.2.1) (fun y => (hkind y).2.2.2.1) fun _ => ⟨rfl, rfl, rfl⟩
  | @addInstr f b name i _ hb hphi hterm hleaf ih =>
    have happend : f.append b name i = f.addInstr b name i := by
      cases i with
      | phi => cases hphi
      | jump | branch | ret => cases hterm
      | _ => rfl
    have hplaces := places_addInstr f b name hphi hterm hleaf
    rw [← happend] at hplaces ⊢
    exact inPlace_append ih hplaces (fun h => by rw [hterm] at h; cases h) hb
  | @setTerminator f b i _ hb hnone hterm _ ih =>
    have hplaces := places_setTerminator hb hnone hterm
    rw [← append_of_isTerminator f b none hterm] at hplaces ⊢
    exact inPlace_append ih hplaces (fun _ => hnone) hb

end Places

section Successors

/-- The targets of the terminator of a block; none before it has one. -/
def targetsOf (f : Func) (b : BlockId) : List BlockId :=
  (f.terminator? b).elim [] fun y => (f.instr y).targets

/-- The successors of a block are the targets of its terminator, each once. -/
def SuccsAreTargets (f : Func) : Prop := ∀ b, (f.block b).succs = (f.targetsOf b).eraseDups

theorem succs_foldl_link_self (hs : s.index < f.blocks.size) :
    ((ts.foldl (fun g t => g.link s t) f).block s).succs =
      (f.block s).succs ++ (ts.filter (· ∉ (f.block s).succs)).eraseDups := by
  induction ts generalizing f with
  | nil => simp
  | cons t ts ih =>
    rw [List.foldl_cons, ih (by simpa using hs), succs_link hs]
    by_cases ht : t ∈ (f.block s).succs
    · rw [if_neg fun h => h.2 ht, List.filter_cons_of_neg (by simpa using ht)]
    · rw [if_pos ⟨rfl, ht⟩, List.filter_cons_of_pos (by simpa using ht), List.eraseDups_cons,
        List.filter_filter, List.append_assoc, List.singleton_append]
      congr 3
      refine List.filter_congr fun u _ => ?_
      rw [Bool.eq_iff_iff]
      simp [and_comm]

theorem SuccsAreTargets.congr (hf : f.SuccsAreTargets)
    (hlists : ∀ c, (g.block c).terminator = (f.block c).terminator ∧
      (g.block c).succs = (f.block c).succs)
    (htargets : ∀ c y, (f.block c).terminator = some y →
      (g.instr y).targets = (f.instr y).targets) : g.SuccsAreTargets := by
  intro c
  rw [(hlists c).2, hf c, targetsOf, targetsOf, terminator?, terminator?, (hlists c).1]
  cases hy : (f.block c).terminator with
  | none => rfl
  | some y => rw [Option.elim_some, Option.elim_some, htargets c y hy]

theorem SuccsAreTargets.addNode {name : Option String} (ih : f.SuccsAreTargets)
    (hf : f.Filled) (hnodes : g.nodes = (f.addNode b name i).nodes)
    (hlists : ∀ c, (g.block c).terminator = (f.block c).terminator ∧
      (g.block c).succs = (f.block c).succs) : g.SuccsAreTargets := by
  refine ih.congr hlists fun c y hy => ?_
  have hlt := hf c y (List.mem_append_right _ (Option.mem_toList.mpr hy))
  have hnode : (f.addNode b name i).node y = f.node y := node_addNode_of_lt hlt
  rw [instr, instr, node, hnodes, ← node, hnode]

/-- A block that had no terminator gets the targets of the new one, each once. -/
theorem SuccsAreTargets.setTerminator (ih : f.SuccsAreTargets) (hf : f.Filled)
    (hb : b.index < f.blocks.size) (hnone : f.terminator? b = none)
    (hterm : i.isTerminator = true) : (f.setTerminator b i).SuccsAreTargets := by
  intro c
  obtain ⟨ss, ps, hblock⟩ := exists_block_setTerminator i hb c
  have hplaces := places_setTerminator hb hnone hterm
  by_cases hc : c = b
  · subst hc
    have hempty : (f.block c).succs = [] := by
      rw [ih c, targetsOf, hnone]
      rfl
    have htargets : (f.setTerminator c i).targetsOf c = i.targets := by
      rw [targetsOf, terminator?, hblock, if_pos rfl, Option.elim_some, hplaces.instr_nextId]
    have hstart : (((f.addNode c none i).modifyBlock c
        fun bb => { bb with terminator := some f.nextId }).block c).succs = [] := by
      rw [block_modifyBlock, block_addNode, if_pos ⟨rfl, by simpa using hb⟩]
      exact hempty
    rw [htargets, Func.setTerminator, succs_foldl_link_self (by simpa using hb), hstart]
    simp
  · have htargets : (f.setTerminator b i).targetsOf c = f.targetsOf c := by
      rw [targetsOf, targetsOf, terminator?, terminator?, hblock, if_neg hc]
      cases hy : (f.block c).terminator with
      | none => rfl
      | some y =>
        have hlt := hf c y (List.mem_append_right _ (Option.mem_toList.mpr hy))
        rw [Option.elim_some, Option.elim_some, instr, instr, hplaces.node_of_lt hlt]
    rw [succs_setTerminator i hb hc, htargets, ih c]

/-- Whatever has been built, the successors of a block are the targets of its terminator. -/
theorem Built.succsAreTargets (h : f.Built) : f.SuccsAreTargets := by
  induction h with
  | empty name returns =>
    intro b
    have hblock : (Func.empty name returns).block b = { label := BlockId.entryLabel } ∨
        (Func.empty name returns).block b = Block.vacant := by
      simp only [block, Func.empty]
      cases b.index <;> simp
    rcases hblock with hblock | hblock <;> rw [targetsOf, terminator?, hblock] <;> rfl
  | addParam name hf ih => exact ih.addNode hf.filled rfl fun _ => ⟨rfl, rfl⟩
  | addConstant v hf ih =>
    unfold Func.addConstant
    split
    · exact ih
    · exact ih.addNode hf.filled rfl fun _ => ⟨rfl, rfl⟩
  | addBlock label _ ih => exact ih.congr (fun c => (lists_addBlock label c).2.2) fun _ _ _ => rfl
  | renameBlock b label _ _ ih =>
    exact ih.congr (fun c => (lists_renameBlock b label c).2.2) fun _ _ _ => rfl
  | @addPhi f b name sources hf _ ih =>
    refine ih.addNode hf.filled rfl fun c => ?_
    rw [Func.addPhi, block_modifyBlock, block_addNode]
    split_ifs <;> exact ⟨rfl, rfl⟩
  | @addPhiSource f x value source _ _ ih =>
    exact ih.congr (fun _ => ⟨rfl, rfl⟩) fun c y _ =>
      (kind_addPhiSource f x value source y).2.2.2.2
  | @addInstr f b name i hf _ _ _ _ ih =>
    refine ih.addNode hf.filled rfl fun c => ?_
    rw [block_addInstr]
    split_ifs <;> exact ⟨rfl, rfl⟩
  | setTerminator b i hf hb hnone hterm _ ih => exact ih.setTerminator hf.filled hb hnone hterm

end Successors

/-- Leaves are neither phis nor terminators. -/
theorem Coherent.isLeaf_of_mem_instrs (hf : f.Coherent) (hx : x ∈ (f.block b).instrs) :
    (f.instr x).isLeaf = false := by
  rcases List.mem_append.mp hx with hx | hx
  · rcases List.mem_append.mp hx with hx | hx
    · obtain ⟨sources, hphi⟩ := hf.phi b x hx
      rw [hphi]
      rfl
    · exact (hf.body b x hx).2.2
  · have hterm := hf.terminator b x (Option.mem_toList.mp hx)
    cases hi : f.instr x with
    | constant | param =>
      rw [hi] at hterm
      cases hterm
    | _ => rfl

/-- Whatever has been built, the tables agree. -/
theorem Built.consistent (h : f.Built) : f.Consistent where
  edges := h.simple.edges
  nodup_succs := h.simple.nodup_succs
  nodup_preds := h.simple.nodup_preds
  succs := h.succsAreTargets
  listed := h.filled
  occurs x b hx := by
    split_ifs with hplace
    · obtain ⟨hleaf, rfl⟩ := hplace
      refine List.count_eq_one_of_mem (h.coherent.nodup _) ?_
      exact Block.listFor_subset _ _ (h.inPlace x hx hleaf)
    · refine List.count_eq_zero_of_not_mem fun hmem => hplace ?_
      exact ⟨h.coherent.isLeaf_of_mem_instrs hmem, (h.coherent.home b x hmem).symm⟩
  kind := h.inPlace
  constant _ _ := h.constantsPooled.findConstant?_eq_some_iff
  param := h.constantsPooled_and_paramsInOrder.2
  names _ := h.namesOfNodes.usesName_iff

end Func

end LoopBounds
