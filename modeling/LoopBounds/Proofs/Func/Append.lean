import LoopBounds.Proofs.Func.Growth

/-!
# Adding a line

An instruction that is added to a block gets the last node, and the block lists it where its
kind belongs. Terminators also add edges: the blocks that they lead to become successors, and
the block becomes a predecessor of each of them once.
-/

namespace LoopBounds.Func

variable {f : Func} {s b c t : BlockId} {ts : List BlockId}

theorem exists_foldl_link (f : Func) (s : BlockId) (ts : List BlockId) :
    ∃ blocks, ts.foldl (fun g t => g.link s t) f = { f with blocks := blocks } := by
  induction ts generalizing f with
  | nil => exact ⟨f.blocks, rfl⟩
  | cons t ts ih =>
    obtain ⟨blocks, hblocks⟩ := ih (f.link s t)
    refine ⟨blocks, hblocks.trans ?_⟩
    unfold link
    split_ifs <;> rfl

@[simp] theorem nodes_foldl_link (f : Func) (s : BlockId) (ts : List BlockId) :
    (ts.foldl (fun g t => g.link s t) f).nodes = f.nodes := by
  obtain ⟨blocks, hblocks⟩ := f.exists_foldl_link s ts
  rw [hblocks]

@[simp] theorem names_foldl_link (f : Func) (s : BlockId) (ts : List BlockId) :
    (ts.foldl (fun g t => g.link s t) f).names = f.names := by
  obtain ⟨blocks, hblocks⟩ := f.exists_foldl_link s ts
  rw [hblocks]

theorem names_addNode (f : Func) (b : BlockId) (name : Option String) (i : Instr) :
    (f.addNode b name i).names =
      f.names.insert (name.getD (temporaryName f.freshTemporary)) := by
  cases name <;> rfl

theorem nodes_append (f : Func) (b : BlockId) {name : Option String} {i : Instr}
    (h : i.isTerminator = true → name = none) : (f.append b name i).nodes =
      f.nodes.push ⟨name.getD (temporaryName f.freshTemporary), b, i⟩ := by
  cases i with
  | jump | branch | ret =>
    obtain rfl := h rfl
    simp [append, setTerminator, Instr.isTerminator, modifyBlock, nodes_addNode]
  | _ => simp [append, addPhi, addInstr, Instr.isTerminator, modifyBlock, nodes_addNode]

theorem exists_block_foldl_link (f : Func) (s : BlockId) (ts : List BlockId) (c : BlockId) :
    ∃ ss ps, (ts.foldl (fun g t => g.link s t) f).block c =
      { f.block c with succs := ss, preds := ps } := by
  induction ts generalizing f with
  | nil => exact ⟨_, _, rfl⟩
  | cons t ts ih =>
    obtain ⟨ss, ps, hblock⟩ := ih (f.link s t)
    refine ⟨ss, ps, ?_⟩
    rw [List.foldl_cons, hblock, link]
    split_ifs
    · rfl
    · rw [block_modifyBlock, block_modifyBlock]
      split_ifs <;> rfl

theorem size_foldl_link (f : Func) (s : BlockId) (ts : List BlockId) :
    (ts.foldl (fun g t => g.link s t) f).blocks.size = f.blocks.size := by
  induction ts generalizing f with
  | nil => rfl
  | cons t ts ih => rw [List.foldl_cons, ih, size_link]

theorem succs_foldl_link (hs : s.index < f.blocks.size) (hc : s ≠ c) :
    ((ts.foldl (fun g t => g.link s t) f).block c).succs = (f.block c).succs := by
  induction ts generalizing f with
  | nil => rfl
  | cons t ts ih =>
    rw [List.foldl_cons, ih (by simpa using hs), succs_link hs, if_neg fun h => hc h.1]

/-- A block gets the new predecessor once, however often it is a target. -/
theorem preds_foldl_link (hs : s.index < f.blocks.size) (ht : ∀ t ∈ ts, t.index < f.blocks.size) :
    ((ts.foldl (fun g t => g.link s t) f).block c).preds =
      (f.block c).preds ++ if c ∈ ts ∧ c ∉ (f.block s).succs then [s] else [] := by
  induction ts generalizing f with
  | nil => simp
  | cons t ts ih =>
    rw [List.foldl_cons, ih (by simpa using hs)
      (by simpa using fun u hu => ht u (List.mem_cons_of_mem _ hu)),
      preds_link (ht t List.mem_cons_self), succs_link hs]
    by_cases hmem : t ∈ (f.block s).succs
    · by_cases hc : t = c
      · subst hc
        simp [hmem]
      · simp [hmem, Ne.symm hc]
    · by_cases hc : t = c
      · subst hc
        simp [hmem]
      · simp [hmem, hc, Ne.symm hc]

theorem exists_block_setTerminator (i : Instr) (hb : b.index < f.blocks.size) (c : BlockId) :
    ∃ ss ps, (f.setTerminator b i).block c =
      { f.block c with
        succs := ss
        preds := ps
        terminator := if c = b then some f.nextId else (f.block c).terminator } := by
  obtain ⟨ss, ps, hblock⟩ := exists_block_foldl_link ((f.addNode b none i).modifyBlock b
    fun bb => { bb with terminator := some f.nextId }) b i.targets c
  refine ⟨ss, ps, ?_⟩
  rw [setTerminator, hblock, block_modifyBlock, block_addNode, size_addNode]
  by_cases hc : c = b
  · subst hc
    rw [if_pos ⟨rfl, hb⟩, if_pos rfl]
  · rw [if_neg fun h => hc h.1.symm, if_neg hc]

theorem size_setTerminator (f : Func) (b : BlockId) (i : Instr) :
    (f.setTerminator b i).blocks.size = f.blocks.size := by
  rw [setTerminator, size_foldl_link, size_modifyBlock, size_addNode]

theorem succs_setTerminator (i : Instr) (hb : b.index < f.blocks.size) (hc : c ≠ b) :
    ((f.setTerminator b i).block c).succs = (f.block c).succs := by
  rw [setTerminator, succs_foldl_link (by simpa using hb) hc.symm, block_modifyBlock,
    block_addNode, if_neg fun h => hc h.1.symm]

theorem preds_setTerminator {i : Instr} (hb : b.index < f.blocks.size)
    (hsuccs : (f.block b).succs = []) (ht : ∀ t ∈ i.targets, t.index < f.blocks.size) :
    ((f.setTerminator b i).block c).preds =
      (f.block c).preds ++ if c ∈ i.targets then [b] else [] := by
  have hpreds : (((f.addNode b none i).modifyBlock b
      fun bb => { bb with terminator := some f.nextId }).block c).preds = (f.block c).preds := by
    rw [block_modifyBlock, block_addNode]
    split_ifs <;> rfl
  have hnone : (((f.addNode b none i).modifyBlock b
      fun bb => { bb with terminator := some f.nextId }).block b).succs = [] := by
    rw [block_modifyBlock, block_addNode, if_pos ⟨rfl, by simpa using hb⟩]
    exact hsuccs
  rw [setTerminator, preds_foldl_link (by simpa using hb) (by simpa using ht), hpreds, hnone]
  simp

section Append

variable {i : Instr} {name : Option String}

theorem block_append_of_isPhi (f : Func) (b : BlockId) (name : Option String)
    (hi : i.isPhi = true) (c : BlockId) : (f.append b name i).block c =
      if b = c ∧ c.index < f.blocks.size
      then { f.block c with phis := (f.block c).phis ++ [f.nextId] } else f.block c := by
  cases i with
  | phi sources => rw [append, addPhi, block_modifyBlock, block_addNode, size_addNode]
  | _ => cases hi

theorem block_append_of_ordinary (f : Func) (b : BlockId) (name : Option String)
    (hphi : i.isPhi = false) (hterm : i.isTerminator = false) (c : BlockId) :
    (f.append b name i).block c = if b = c ∧ c.index < f.blocks.size
      then { f.block c with body := (f.block c).body ++ [f.nextId] } else f.block c := by
  rw [← f.block_addInstr b c name i]
  cases i with
  | phi => cases hphi
  | jump | branch | ret => cases hterm
  | _ => rfl

theorem append_of_isTerminator (f : Func) (b : BlockId) (name : Option String)
    (hi : i.isTerminator = true) : f.append b name i = f.setTerminator b i := by
  cases i with
  | jump | branch | ret => rfl
  | _ => cases hi

end Append

/-- Adding lines changes only nodes and blocks. -/
structure SameHead (f g : Func) : Prop where
  name : f.name = g.name
  returns : f.returns = g.returns
  params : f.params = g.params
  pool : f.pool = g.pool

theorem SameHead.trans {f g h : Func} (hfg : f.SameHead g) (hgh : g.SameHead h) : f.SameHead h :=
  ⟨hfg.name.trans hgh.name, hfg.returns.trans hgh.returns, hfg.params.trans hgh.params,
    hfg.pool.trans hgh.pool⟩

theorem sameHead_foldl_link (f : Func) (s : BlockId) (ts : List BlockId) :
    (ts.foldl (fun g t => g.link s t) f).SameHead f := by
  obtain ⟨blocks, hblocks⟩ := f.exists_foldl_link s ts
  rw [hblocks]
  exact ⟨rfl, rfl, rfl, rfl⟩

theorem sameHead_addNode (f : Func) (b : BlockId) (name : Option String) (i : Instr) :
    (f.addNode b name i).SameHead f := by
  cases name <;> exact ⟨rfl, rfl, rfl, rfl⟩

theorem sameHead_append (f : Func) (b : BlockId) (name : Option String) (i : Instr) :
    (f.append b name i).SameHead f := by
  have hnode (name : Option String) (change : Block → Block) :
      ((f.addNode b name i).modifyBlock b change).SameHead f := by
    cases name <;> exact ⟨rfl, rfl, rfl, rfl⟩
  cases i with
  | jump | branch | ret => exact (sameHead_foldl_link _ b _).trans (hnode none _)
  | _ => exact hnode name _

theorem size_append (f : Func) (b : BlockId) (name : Option String) (i : Instr) :
    (f.append b name i).blocks.size = f.blocks.size := by
  cases i with
  | jump | branch | ret => exact size_setTerminator f b _
  | _ => simp [append, addPhi, addInstr, Instr.isTerminator]

end LoopBounds.Func
