import LoopBounds.Proofs.Listing.Printing
import LoopBounds.Proofs.Listing.Resolution

/-!
# The layout of a resolved function

Lines get their nodes one after the other, and a block lists the nodes of its lines in the
order in which they are written. The predecessors of a block are the blocks whose last lines
lead there, in the order of the blocks.
-/

namespace LoopBounds

namespace Listing

section Lines

variable {meaning : Line → Instr} {f : Func} {b c : BlockId} {lines : List Line}

/-- The node at `x` is that of the line `l` of block `b`. -/
structure Stands (meaning : Line → Instr) (f : Func) (x : InstrId) (b : BlockId) (l : Line) :
    Prop where
  home : f.home x = b
  instr : f.instr x = meaning l
  name : ∀ n ∈ l.defines?, f.nameOf x = n

/-- A line that ends its block does not define a name. -/
def Fits (meaning : Line → Instr) (l : Line) : Prop :=
  (meaning l).isTerminator = true → l.defines? = none

/-- The positions of `n` nodes from `start` on. -/
def idsFrom (start n : ℕ) : List InstrId := (List.range' start n).map InstrId.mk

theorem size_addMeanings (hfits : ∀ l ∈ lines, Fits meaning l) :
    (addMeanings meaning b f lines).nodes.size = f.nodes.size + lines.length := by
  induction lines generalizing f with
  | nil => rfl
  | cons l lines ih =>
    have hsize : (f.append b l.defines? (meaning l)).nodes.size = f.nodes.size + 1 := by
      rw [f.nodes_append b (hfits l List.mem_cons_self), Array.size_push]
    have := ih (f := f.append b l.defines? (meaning l)) fun l hl =>
      hfits l (List.mem_cons_of_mem _ hl)
    rw [hsize] at this
    rw [List.length_cons, ← Nat.add_assoc, Nat.add_right_comm, ← this]
    rfl

theorem stands_addMeanings (hfits : ∀ l ∈ lines, Fits meaning l) :
    (∀ x, x.index < f.nodes.size → (addMeanings meaning b f lines).node x = f.node x) ∧
      ∀ k l, lines[k]? = some l →
        Stands meaning (addMeanings meaning b f lines) ⟨f.nodes.size + k⟩ b l := by
  induction lines generalizing f with
  | nil => exact ⟨fun _ _ => rfl, fun k l h => by simp at h⟩
  | cons l lines ih =>
    have hnodes := f.nodes_append b (hfits l List.mem_cons_self)
    have hsize : (f.append b l.defines? (meaning l)).nodes.size = f.nodes.size + 1 := by
      rw [hnodes, Array.size_push]
    have hnode (x : InstrId) : (f.append b l.defines? (meaning l)).node x =
        if x = f.nextId then ⟨l.defines?.getD (Func.temporaryName f.freshTemporary), b, meaning l⟩
        else f.node x := by
      rw [← f.node_addNode, Func.node, Func.node, hnodes, f.nodes_addNode]
    obtain ⟨hold, hnew⟩ := ih (f := f.append b l.defines? (meaning l))
      fun l hl => hfits l (List.mem_cons_of_mem _ hl)
    rw [hsize] at hold hnew
    refine ⟨fun x hx => ?_, fun k l' hl' => ?_⟩
    · refine (hold x (Nat.lt_succ_of_lt hx)).trans ?_
      rw [hnode, if_neg]
      rintro rfl
      exact lt_irrefl _ hx
    · cases k with
      | zero =>
        obtain rfl : l = l' := Option.some.inj hl'
        have hfirst : (addMeanings meaning b f (l :: lines)).node f.nextId =
            ⟨l.defines?.getD (Func.temporaryName f.freshTemporary), b, meaning l⟩ := by
          refine (hold f.nextId (Nat.lt_succ_self _)).trans ?_
          rw [hnode, if_pos rfl]
        refine ⟨congrArg Node.block hfirst, congrArg Node.instr hfirst, fun n hn => ?_⟩
        rw [hn] at hfirst
        exact congrArg Node.name hfirst
      | succ k =>
        have := hnew k l' (by simpa using hl')
        rwa [Nat.add_right_comm] at this

theorem block_addMeanings {p : Block → InstrId → Block} (hfits : ∀ l ∈ lines, Fits meaning l)
    (hput : ∀ f : Func, ∀ l ∈ lines, ∀ c, (f.append b l.defines? (meaning l)).block c =
      if b = c ∧ c.index < f.blocks.size then p (f.block c) f.nextId else f.block c) (c : BlockId) :
    (addMeanings meaning b f lines).block c = if b = c ∧ c.index < f.blocks.size
      then (idsFrom f.nodes.size lines.length).foldl p (f.block c) else f.block c := by
  induction lines generalizing f with
  | nil => simp [addMeanings, idsFrom]
  | cons l lines ih =>
    have hsize : (f.append b l.defines? (meaning l)).nodes.size = f.nodes.size + 1 := by
      rw [f.nodes_append b (hfits l List.mem_cons_self), Array.size_push]
    have := ih (f := f.append b l.defines? (meaning l))
      (fun l hl => hfits l (List.mem_cons_of_mem _ hl))
      fun f l hl => hput f l (List.mem_cons_of_mem _ hl)
    rw [hsize, f.size_append b, hput f l List.mem_cons_self] at this
    refine this.trans ?_
    split_ifs <;> rfl

theorem block_addPhis (hphi : ∀ l ∈ lines, (meaning l).isPhi = true)
    (hfits : ∀ l ∈ lines, Fits meaning l) (c : BlockId) :
    (addMeanings meaning b f lines).block c = if b = c ∧ c.index < f.blocks.size
      then { f.block c with phis := (f.block c).phis ++ idsFrom f.nodes.size lines.length }
      else f.block c := by
  have hfold (xs : List InstrId) (bb : Block) :
      xs.foldl (fun bb x => { bb with phis := bb.phis ++ [x] }) bb =
        { bb with phis := bb.phis ++ xs } := by
    induction xs generalizing bb with
    | nil => simp
    | cons x xs ih => simp [ih]
  rw [block_addMeanings (p := fun bb x => { bb with phis := bb.phis ++ [x] }) hfits
    fun f l hl => f.block_append_of_isPhi b _ (hphi l hl), hfold]

theorem block_addBody (hbody : ∀ l ∈ lines, (meaning l).isPhi = false ∧
      (meaning l).isTerminator = false) (hfits : ∀ l ∈ lines, Fits meaning l) (c : BlockId) :
    (addMeanings meaning b f lines).block c = if b = c ∧ c.index < f.blocks.size
      then { f.block c with body := (f.block c).body ++ idsFrom f.nodes.size lines.length }
      else f.block c := by
  have hfold (xs : List InstrId) (bb : Block) :
      xs.foldl (fun bb x => { bb with body := bb.body ++ [x] }) bb =
        { bb with body := bb.body ++ xs } := by
    induction xs generalizing bb with
    | nil => simp
    | cons x xs ih => simp [ih]
  rw [block_addMeanings (p := fun bb x => { bb with body := bb.body ++ [x] }) hfits
    fun f l hl => f.block_append_of_ordinary b _ (hbody l hl).1 (hbody l hl).2, hfold]

theorem addMeanings_append (f : Func) (lines lines' : List Line) :
    addMeanings meaning b f (lines ++ lines') =
      addMeanings meaning b (addMeanings meaning b f lines) lines' := List.foldl_append

theorem idsFrom_append (start m n : ℕ) :
    idsFrom start m ++ idsFrom (start + m) n = idsFrom start (m + n) := by
  rw [idsFrom, idsFrom, idsFrom, ← List.map_append, ← List.range'_append_1]

theorem sameHead_addMeanings (meaning : Line → Instr) (f : Func) (b : BlockId)
    (lines : List Line) : (addMeanings meaning b f lines).SameHead f := by
  induction lines generalizing f with
  | nil => exact ⟨rfl, rfl, rfl, rfl⟩
  | cons l lines ih =>
    exact (ih (f.append b l.defines? (meaning l))).trans (f.sameHead_append b _ _)

theorem size_blocks_addMeanings (meaning : Line → Instr) (f : Func) (b : BlockId)
    (lines : List Line) : (addMeanings meaning b f lines).blocks.size = f.blocks.size := by
  induction lines generalizing f with
  | nil => rfl
  | cons l lines ih =>
    exact (ih (f.append b l.defines? (meaning l))).trans (f.size_append b _ _)

theorem mem_idsFrom {start n : ℕ} {x : InstrId} :
    x ∈ idsFrom start n ↔ start ≤ x.index ∧ x.index < start + n := by
  obtain ⟨k⟩ := x
  simp [idsFrom, List.mem_range'_1]

theorem stands_of_mem_idsFrom {start : ℕ} {x : InstrId} {pre mid post : List Line}
    (h : ∀ k l, (pre ++ mid ++ post)[k]? = some l → Stands meaning f ⟨start + k⟩ b l)
    (hx : x ∈ idsFrom (start + pre.length) mid.length) : ∃ l ∈ mid, Stands meaning f x b l := by
  rw [mem_idsFrom] at hx
  obtain ⟨k⟩ := x
  have hk : k - start - pre.length < mid.length := by
    dsimp only at hx
    omega
  have hget : (pre ++ mid ++ post)[k - start]? = some mid[k - start - pre.length] := by
    dsimp only at hx
    rw [List.append_assoc, List.getElem?_append_right (by omega), List.getElem?_append_left hk,
      List.getElem?_eq_getElem hk]
  have := h _ _ hget
  rw [show start + (k - start) = k by dsimp only at hx; omega] at this
  exact ⟨_, List.getElem_mem hk, this⟩

/-- Lines that end no block can be added wherever there is a block. -/
theorem built_addMeanings (hf : f.Built) (hb : b.index < f.blocks.size)
    (hkinds : ∀ l ∈ lines, (meaning l).isLeaf = false ∧ (meaning l).isTerminator = false) :
    (addMeanings meaning b f lines).Built := by
  induction lines generalizing f with
  | nil => exact hf
  | cons l lines ih =>
    obtain ⟨hleaf, hterm⟩ := hkinds l List.mem_cons_self
    have hstep : (f.append b l.defines? (meaning l)).Built := by
      generalize meaning l = i at hleaf hterm
      cases i with
      | constant | param => cases hleaf
      | jump | branch | ret => cases hterm
      | phi sources => exact hf.addPhi b l.defines? sources hb
      | arith op x y => exact hf.addInstr b l.defines? (.arith op x y) hb rfl rfl rfl
      | neg x => exact hf.addInstr b l.defines? (.neg x) hb rfl rfl rfl
      | compare op x y => exact hf.addInstr b l.defines? (.compare op x y) hb rfl rfl rfl
    exact ih hstep ((f.size_append b _ _).symm ▸ hb) fun l hl =>
      hkinds l (List.mem_cons_of_mem _ hl)

/-- A block to which no line has been added. -/
structure IsBlank (bb : Block) : Prop where
  phis : bb.phis = []
  body : bb.body = []
  terminator : bb.terminator = none
  succs : bb.succs = []

/-- The function `g` is `f` with the lines of block `b`, which was blank. -/
structure AddedSection (meaning : Line → Instr) (b : BlockId) (lines : List Line) (f g : Func) :
    Prop where
  head : g.SameHead f
  size : g.nodes.size = f.nodes.size + lines.length
  old : ∀ x, x.index < f.nodes.size → g.node x = f.node x
  new : ∀ k l, lines[k]? = some l → Stands meaning g ⟨f.nodes.size + k⟩ b l
  blocks : g.blocks.size = f.blocks.size
  label : ∀ c, (g.block c).label = (f.block c).label
  instrs : (g.block b).instrs = idsFrom f.nodes.size lines.length
  arranged : g.Arranged (g.block b)
  other : ∀ c, c ≠ b → g.block c = { f.block c with preds := (g.block c).preds }
  preds : ∀ c, (g.block c).preds =
    (f.block c).preds ++ if c ∈ lines.flatMap fun l => (meaning l).targets then [b] else []
  built : f.Built → g.Built

/-- The kinds of lines and of what they mean are the same. -/
def SameKinds (meaning : Line → Instr) (lines : List Line) : Prop :=
  ∀ l ∈ lines, (meaning l).isLeaf = false ∧ (meaning l).isPhi = l.isPhi ∧
    (meaning l).isTerminator = l.isTerminator

/-- What the lines of a block mean: phis, then ordinary instructions, then the terminator. -/
structure Parts (meaning : Line → Instr) (phis body : List Line) (last : Line) : Prop where
  isPhi : ∀ l ∈ phis, (meaning l).isPhi = true
  ordinary : ∀ l ∈ body, (meaning l).isPhi = false ∧ (meaning l).isTerminator = false ∧
    (meaning l).isLeaf = false
  isTerminator : (meaning last).isTerminator = true
  fits : ∀ l ∈ phis ++ body ++ [last], Fits meaning l

theorem SameKinds.exists_parts {s : Section} (hkinds : SameKinds meaning s.lines)
    (hordered : s.Ordered) :
    ∃ phis body last, s.lines = phis ++ body ++ [last] ∧ Parts meaning phis body last := by
  obtain ⟨phis, body, last, hlines, hphis, hbody, hlast⟩ := hordered
  have hmem : ∀ l ∈ phis ++ body ++ [last], (meaning l).isLeaf = false ∧
      (meaning l).isPhi = l.isPhi ∧ (meaning l).isTerminator = l.isTerminator := hlines ▸ hkinds
  refine ⟨phis, body, last, hlines, fun l hl => ?_, fun l hl => ?_, ?_, fun l hl hterm => ?_⟩
  · exact (hmem l (by simp [hl])).2.1.trans (hphis l hl)
  · obtain ⟨hleaf, hphi, hterm⟩ := hmem l (by simp [hl])
    exact ⟨hphi.trans (hbody l hl).1, hterm.trans (hbody l hl).2, hleaf⟩
  · exact (hmem last (by simp)).2.2.trans hlast
  · rw [(hmem l hl).2.2] at hterm
    exact Option.isNone_iff_eq_none.mp hterm

section Parts

variable {phis body : List Line} {last : Line} (h : Parts meaning phis body last)

include h

theorem Parts.opening : ∀ l ∈ phis ++ body, (meaning l).isLeaf = false ∧
    (meaning l).isTerminator = false := by
  intro l hl
  rcases List.mem_append.mp hl with hl | hl
  · have hphi := h.isPhi l hl
    cases hi : meaning l with
    | phi => exact ⟨rfl, rfl⟩
    | _ => rw [hi] at hphi; cases hphi
  · exact (h.ordinary l hl).2.symm

/-- Only the last line leads to other blocks. -/
theorem Parts.targets : ((phis ++ body ++ [last]).flatMap fun l => (meaning l).targets) =
    (meaning last).targets := by
  have hnone : ((phis ++ body).flatMap fun l => (meaning l).targets) = [] := by
    refine List.flatMap_eq_nil_iff.mpr fun l hl => ?_
    have hterm := (h.opening l hl).2
    cases hi : meaning l with
    | jump | branch => rw [hi] at hterm; cases hterm
    | _ => rfl
  rw [List.flatMap_append, hnone, List.flatMap_singleton, List.nil_append]

theorem Parts.addMeanings_eq : addMeanings meaning b f (phis ++ body ++ [last]) =
    (addMeanings meaning b f (phis ++ body)).setTerminator b (meaning last) := by
  rw [addMeanings_append]
  exact Func.append_of_isTerminator _ b _ h.isTerminator

theorem Parts.nextId_opening : (addMeanings meaning b f (phis ++ body)).nextId =
    ⟨f.nodes.size + (phis ++ body).length⟩ := by
  rw [Func.nextId, size_addMeanings fun l hl => h.fits l (List.mem_append_left _ hl)]

variable (hb : b.index < f.blocks.size) (hblank : IsBlank (f.block b))

include hb hblank

theorem Parts.block_opening (c : BlockId) : (addMeanings meaning b f (phis ++ body)).block c =
    if c = b then { f.block b with
      phis := idsFrom f.nodes.size phis.length
      body := idsFrom (f.nodes.size + phis.length) body.length } else f.block c := by
  have hfits := h.fits
  simp only [List.forall_mem_append] at hfits
  have hbody (l : Line) (hl : l ∈ body) : (meaning l).isPhi = false ∧
      (meaning l).isTerminator = false := ⟨(h.ordinary l hl).1, (h.ordinary l hl).2.1⟩
  rw [addMeanings_append, block_addBody hbody hfits.1.2, block_addPhis h.isPhi hfits.1.1,
    size_addMeanings hfits.1.1, size_blocks_addMeanings]
  by_cases hc : c = b
  · subst hc
    simp [hb, hblank.phis, hblank.body]
  · simp [hc, Ne.symm hc]

/-- The block lists the nodes of its lines, and of the others at most the predecessors change. -/
theorem Parts.block_addMeanings (c : BlockId) :
    ∃ ss ps, (addMeanings meaning b f (phis ++ body ++ [last])).block c =
      if c = b then { f.block b with
        phis := idsFrom f.nodes.size phis.length
        body := idsFrom (f.nodes.size + phis.length) body.length
        terminator := some ⟨f.nodes.size + (phis ++ body).length⟩
        succs := ss
        preds := ps } else { f.block c with preds := ps } := by
  have hb' : b.index < (addMeanings meaning b f (phis ++ body)).blocks.size := by
    rwa [size_blocks_addMeanings]
  obtain ⟨ss, ps, hblock⟩ := Func.exists_block_setTerminator (meaning last) hb' c
  refine ⟨ss, ps, ?_⟩
  rw [h.addMeanings_eq, hblock, h.nextId_opening, h.block_opening hb hblank]
  split_ifs with hc
  · rfl
  · have hsuccs := Func.succs_setTerminator (meaning last) hb' hc
    rw [hblock, h.block_opening hb hblank, if_neg hc] at hsuccs
    obtain rfl : ss = (f.block c).succs := hsuccs
    rfl

omit hb hblank in
theorem Parts.arranged {g : Func} {bb : Block} {n : ℕ}
    (hnew : ∀ k l, (phis ++ body ++ [last])[k]? = some l → Stands meaning g ⟨n + k⟩ b l)
    (hphis : bb.phis = idsFrom n phis.length)
    (hbody : bb.body = idsFrom (n + phis.length) body.length)
    (hlast : bb.terminator = some ⟨n + (phis ++ body).length⟩) : g.Arranged bb where
  phi x hx := by
    have hnew' : ∀ k l, ([] ++ phis ++ (body ++ [last]))[k]? = some l →
        Stands meaning g ⟨n + k⟩ b l := by simpa using hnew
    rw [hphis] at hx
    obtain ⟨l, hl, hstands⟩ := stands_of_mem_idsFrom hnew' hx
    rw [hstands.instr, h.isPhi l hl]
  body x hx := by
    rw [hbody] at hx
    obtain ⟨l, hl, hstands⟩ := stands_of_mem_idsFrom hnew hx
    rw [hstands.instr]
    exact h.ordinary l hl
  terminator := by
    have hstands := hnew (phis ++ body).length last (by simp)
    exact ⟨_, hlast, hstands.instr.symm ▸ h.isTerminator⟩

theorem Parts.built (hf : f.Built)
    (htargets : ∀ t ∈ (meaning last).targets, t.index < f.blocks.size) :
    (addMeanings meaning b f (phis ++ body ++ [last])).Built := by
  have hsize := size_blocks_addMeanings meaning f b (phis ++ body)
  have hnone : (addMeanings meaning b f (phis ++ body)).terminator? b = none := by
    rw [Func.terminator?, h.block_opening hb hblank, if_pos rfl]
    exact hblank.terminator
  rw [h.addMeanings_eq]
  exact (built_addMeanings hf hb h.opening).setTerminator b _ (hsize ▸ hb) hnone h.isTerminator
    (hsize ▸ htargets)

theorem Parts.preds (htargets : ∀ t ∈ (meaning last).targets, t.index < f.blocks.size)
    (c : BlockId) : ((addMeanings meaning b f (phis ++ body ++ [last])).block c).preds =
      (f.block c).preds ++ if c ∈ (meaning last).targets then [b] else [] := by
  have hsize := size_blocks_addMeanings meaning f b (phis ++ body)
  have hblock := h.block_opening hb hblank
  have hpreds : ((addMeanings meaning b f (phis ++ body)).block c).preds = (f.block c).preds := by
    rw [hblock]
    split_ifs with hc
    · rw [hc]
    · rfl
  have hsuccs : ((addMeanings meaning b f (phis ++ body)).block b).succs = [] := by
    rw [hblock, if_pos rfl]
    exact hblank.succs
  rw [h.addMeanings_eq, Func.preds_setTerminator (hsize ▸ hb) hsuccs (hsize ▸ htargets), hpreds]

end Parts

theorem addedSection {s : Section} (hordered : s.Ordered) (hkinds : SameKinds meaning s.lines)
    (htargets : ∀ l ∈ s.lines, ∀ t ∈ (meaning l).targets, t.index < f.blocks.size)
    (hb : b.index < f.blocks.size) (hblank : IsBlank (f.block b)) :
    AddedSection meaning b s.lines f (addMeanings meaning b f s.lines) := by
  obtain ⟨phis, body, last, hlines, h⟩ := hkinds.exists_parts hordered
  rw [hlines] at htargets ⊢
  have htargets' := htargets last (by simp)
  have hblock := h.block_addMeanings hb hblank
  obtain ⟨hold, hnew⟩ := stands_addMeanings (b := b) (f := f) h.fits
  refine ⟨sameHead_addMeanings meaning f b _, size_addMeanings h.fits, hold, hnew,
    size_blocks_addMeanings meaning f b _, fun c => ?_, ?_, ?_, fun c hc => ?_, fun c => ?_,
    fun hf => h.built hb hblank hf htargets'⟩
  · obtain ⟨ss, ps, heq⟩ := hblock c
    rw [heq]
    split_ifs with hc
    · rw [hc]
    · rfl
  · obtain ⟨ss, ps, heq⟩ := hblock b
    have hlast : [⟨f.nodes.size + (phis ++ body).length⟩] =
        idsFrom (f.nodes.size + (phis ++ body).length) 1 := rfl
    rw [heq, if_pos rfl, Block.instrs, Option.toList_some, hlast, idsFrom_append,
      ← List.length_append, idsFrom_append]
    simp only [List.length_append, List.length_singleton]
  · obtain ⟨ss, ps, heq⟩ := hblock b
    rw [if_pos rfl] at heq
    exact h.arranged hnew (by rw [heq]) (by rw [heq]) (by rw [heq])
  · obtain ⟨ss, ps, heq⟩ := hblock c
    rw [heq, if_neg hc]
  · rw [h.targets, h.preds hb hblank htargets']

end Lines

section Sections

variable {meaning : Line → Instr} {f₀ f g : Func} {done : List Section} {s : Section}

/-- The function `f` is `f₀` with the lines of the first sections, `done`. -/
structure Laid (meaning : Line → Instr) (f₀ : Func) (done : List Section) (f : Func) : Prop where
  head : f.SameHead f₀
  blocks : f.blocks.size = f₀.blocks.size
  label : ∀ c, (f.block c).label = (f₀.block c).label
  size : f.nodes.size = f₀.nodes.size + (done.flatMap Section.lines).length
  old : ∀ x, x.index < f₀.nodes.size → f.node x = f₀.node x
  line : ∀ k l, (done.flatMap Section.lines)[k]? = some l → ∃ b,
    Stands meaning f ⟨f₀.nodes.size + k⟩ b l ∧ ⟨f₀.nodes.size + k⟩ ∈ (f.block b).instrs
  listed : ∀ i s, done[i]? = some s →
    List.Forall₂ (fun x l => Stands meaning f x ⟨i⟩ l) (f.block ⟨i⟩).instrs s.lines
  ids : ∀ i s, done[i]? = some s → (f.block ⟨i⟩).instrs =
    idsFrom (f₀.nodes.size + ((done.take i).flatMap Section.lines).length) s.lines.length
  filled : f.Filled
  arranged : ∀ i, i < done.length → f.Arranged (f.block ⟨i⟩)
  blank : ∀ i, done.length ≤ i → IsBlank (f.block ⟨i⟩)
  preds : ∀ c, (f.block c).preds = (done.zipIdx.filter fun t =>
    c ∈ t.1.lines.flatMap fun l => (meaning l).targets).map fun t => ⟨t.2⟩
  built : f₀.Built → f.Built

theorem eq_of_getElem?_concat {α : Type} {as : List α} {a b : α} {i : ℕ}
    (h : (as ++ [a])[i]? = some b) : as[i]? = some b ∧ i < as.length ∨ i = as.length ∧ a = b := by
  rw [List.getElem?_append] at h
  split_ifs at h with hi
  · exact .inl ⟨h, hi⟩
  · obtain ⟨hlt, heq⟩ := List.getElem?_eq_some_iff.mp h
    rw [List.length_singleton] at hlt
    exact .inr ⟨by omega, by simpa using heq⟩

theorem forall₂_idsFrom {α : Type} {R : InstrId → α → Prop} {as : List α} {start : ℕ}
    (h : ∀ k a, as[k]? = some a → R ⟨start + k⟩ a) :
    List.Forall₂ R (idsFrom start as.length) as := by
  induction as generalizing start with
  | nil => exact .nil
  | cons a as ih =>
    refine .cons (h 0 a rfl) (ih fun k b hb => ?_)
    have := h (k + 1) b (by simpa using hb)
    rwa [← Nat.add_assoc, Nat.add_right_comm] at this

theorem Stands.of_node {x : InstrId} {b : BlockId} {l : Line} (h : Stands meaning f x b l)
    (hnode : g.node x = f.node x) : Stands meaning g x b l where
  home := (congrArg Node.block hnode).trans h.home
  instr := (congrArg Node.instr hnode).trans h.instr
  name n hn := (congrArg Node.name hnode).trans (h.name n hn)

theorem AddedSection.instrs_other {b c : BlockId} {lines : List Line}
    (h : AddedSection meaning b lines f g) (hc : c ≠ b) :
    (g.block c).instrs = (f.block c).instrs := by
  rw [h.other c hc]
  rfl

theorem AddedSection.mem_instrs {b c : BlockId} {lines : List Line} {x : InstrId}
    (h : AddedSection meaning b lines f g) (hblank : IsBlank (f.block b))
    (hx : x ∈ (f.block c).instrs) : x ∈ (g.block c).instrs := by
  have hc : c ≠ b := by
    rintro rfl
    simp [Block.instrs, hblank.phis, hblank.body, hblank.terminator] at hx
  rwa [h.instrs_other hc]

theorem Laid.add (h : Laid meaning f₀ done f)
    (hadd : AddedSection meaning ⟨done.length⟩ s.lines f g) : Laid meaning f₀ (done ++ [s]) g where
  head := hadd.head.trans h.head
  blocks := hadd.blocks.trans h.blocks
  label c := (hadd.label c).trans (h.label c)
  size := by
    rw [hadd.size, h.size, List.flatMap_append, List.flatMap_singleton, List.length_append,
      Nat.add_assoc]
  old x hx := (hadd.old x (hx.trans_le (h.size ▸ Nat.le_add_right _ _))).trans (h.old x hx)
  line k l hl := by
    rw [List.flatMap_append, List.flatMap_singleton, List.getElem?_append] at hl
    split_ifs at hl with hk
    · obtain ⟨b, hstands, hmem⟩ := h.line k l hl
      refine ⟨b, hstands.of_node (hadd.old _ ?_), hadd.mem_instrs (h.blank _ le_rfl) hmem⟩
      exact h.filled b _ hmem
    · have hpos : f₀.nodes.size + k =
          f.nodes.size + (k - (done.flatMap Section.lines).length) := by
        rw [h.size]
        omega
      have hlt := (List.getElem?_eq_some_iff.mp hl).1
      rw [hpos]
      refine ⟨_, hadd.new _ l hl, ?_⟩
      rw [hadd.instrs, mem_idsFrom]
      exact ⟨Nat.le_add_right _ _, Nat.add_lt_add_left hlt _⟩
  listed i s' hs' := by
    rcases eq_of_getElem?_concat hs' with ⟨hs', hi⟩ | ⟨rfl, rfl⟩
    · have hne : (⟨i⟩ : BlockId) ≠ ⟨done.length⟩ := fun heq => hi.ne (congrArg BlockId.index heq)
      rw [hadd.instrs_other hne]
      have hlisted := (List.forall₂_and_left _ _).mpr ⟨h.filled ⟨i⟩, h.listed i s' hs'⟩
      exact hlisted.imp fun x l hx => hx.2.of_node (hadd.old x hx.1)
    · rw [hadd.instrs]
      exact forall₂_idsFrom hadd.new
  ids i s' hs' := by
    rcases eq_of_getElem?_concat hs' with ⟨hs', hi⟩ | ⟨rfl, rfl⟩
    · have hne : (⟨i⟩ : BlockId) ≠ ⟨done.length⟩ := fun heq => hi.ne (congrArg BlockId.index heq)
      rw [hadd.instrs_other hne, h.ids i s' hs', List.take_append_of_le_length hi.le]
    · rw [hadd.instrs, h.size, List.take_left]
  filled b x hx := by
    by_cases hb : b = ⟨done.length⟩
    · rw [hb, hadd.instrs, mem_idsFrom] at hx
      exact hadd.size ▸ hx.2
    · rw [hadd.instrs_other hb] at hx
      exact (h.filled b x hx).trans_le (hadd.size ▸ Nat.le_add_right _ _)
  arranged i hi := by
    rw [List.length_append, List.length_singleton] at hi
    by_cases hb : i = done.length
    · exact hb ▸ hadd.arranged
    · have hne : (⟨i⟩ : BlockId) ≠ ⟨done.length⟩ := fun heq => hb (congrArg BlockId.index heq)
      have harranged := h.arranged i (by omega)
      rw [hadd.other _ hne]
      exact harranged.congr rfl rfl rfl fun x hx =>
        congrArg Node.instr (hadd.old x (h.filled _ x hx))
  blank i hi := by
    rw [List.length_append, List.length_singleton] at hi
    have hne : (⟨i⟩ : BlockId) ≠ ⟨done.length⟩ :=
      fun heq => (Nat.lt_of_succ_le hi).ne' (congrArg BlockId.index heq)
    have hblank := h.blank i ((Nat.le_succ _).trans hi)
    rw [hadd.other _ hne]
    exact ⟨hblank.phis, hblank.body, hblank.terminator, hblank.succs⟩
  preds c := by
    rw [hadd.preds, h.preds, List.zipIdx_append, List.filter_append, List.map_append, Nat.zero_add,
      List.zipIdx_singleton, List.filter_singleton]
    by_cases hc : c ∈ s.lines.flatMap fun l => (meaning l).targets
    · rw [if_pos hc, decide_eq_true hc]
      rfl
    · rw [if_neg hc, decide_eq_false hc]
      rfl
  built := hadd.built ∘ h.built

theorem Laid.foldl {ss : List Section} (h : Laid meaning f₀ done f)
    (hordered : ∀ s ∈ ss, s.Ordered) (hkinds : ∀ s ∈ ss, SameKinds meaning s.lines)
    (htargets : ∀ s ∈ ss, ∀ l ∈ s.lines, ∀ t ∈ (meaning l).targets, t.index < f₀.blocks.size)
    (hsize : done.length + ss.length ≤ f₀.blocks.size) :
    Laid meaning f₀ (done ++ ss) ((ss.zipIdx done.length).foldl
      (fun f t => addMeanings meaning ⟨t.2⟩ f t.1.lines) f) := by
  induction ss generalizing done f with
  | nil => simpa using h
  | cons s ss ih =>
    have hlt : done.length < f.blocks.size := by
      rw [h.blocks]
      rw [List.length_cons] at hsize
      omega
    have hadd := addedSection (f := f) (b := ⟨done.length⟩) (hordered s List.mem_cons_self)
      (hkinds s List.mem_cons_self) (h.blocks ▸ htargets s List.mem_cons_self) hlt
      (h.blank _ le_rfl)
    have := ih (h.add hadd) (fun s hs => hordered s (List.mem_cons_of_mem _ hs))
      (fun s hs => hkinds s (List.mem_cons_of_mem _ hs))
      (fun s hs => htargets s (List.mem_cons_of_mem _ hs))
      (by simpa [Nat.add_comm, Nat.add_left_comm] using hsize)
    simpa using this

end Sections

end Listing

end LoopBounds
