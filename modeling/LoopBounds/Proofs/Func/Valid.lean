import LoopBounds.Func.Basic
import LoopBounds.Proofs.Flow.Dominance

/-!
# Valid functions

A function is coherent when its two tables fit together: every listed instruction names
the block that lists it and stands in the list of its kind, and the edges of the flow
graph are those of the terminators. It is valid when moreover every block ends in a
terminator, every phi has one source for each predecessor, nothing leads to the entry, and
every use is dominated by its definition.
-/

namespace LoopBounds

theorem Instr.not_isLeaf_of_isTerminator {i : Instr} (h : i.isTerminator = true) :
    i.isLeaf = false := by
  cases i <;> first | rfl | cases h

def Block.values (b : Block) : List InstrId := b.phis ++ b.body

def Block.ordinary (b : Block) : List InstrId := b.body ++ b.terminator.toList

namespace Func

variable (f : Func)

/-- The tables of the function fit together. -/
structure Coherent : Prop where
  flow : f.flow.Coherent
  target : ∀ b y c, (f.block b).terminator = some y → c ∈ (f.instr y).targets →
    c ∈ (f.block b).succs
  home : ∀ b, ∀ x ∈ (f.block b).instrs, f.home x = b
  phi : ∀ b, ∀ x ∈ (f.block b).phis, ∃ sources, f.instr x = .phi sources
  body : ∀ b, ∀ x ∈ (f.block b).body,
    (f.instr x).isPhi = false ∧ (f.instr x).isTerminator = false ∧ (f.instr x).isLeaf = false
  terminator : ∀ b y, (f.block b).terminator = some y → (f.instr y).isTerminator = true
  param : ∀ x ∈ f.params, (f.instr x).isLeaf = true
  nodup : ∀ b, (f.block b).instrs.Nodup

def Listed (x : InstrId) : Prop := x ∈ (f.block (f.home x)).values

/-- The value `y` is there in block `b` once the instructions `done` have been executed. -/
def AvailableAfter (done : List InstrId) (b : BlockId) (y : InstrId) : Prop :=
  (f.instr y).isLeaf = true ∨ y ∈ done ∨
    f.Listed y ∧ f.home y ≠ b ∧ f.flow.Dominates (f.home y) b

/-- The definition of `y` dominates the end of block `b`. -/
def AvailableAtEnd (b : BlockId) (y : InstrId) : Prop :=
  (f.instr y).isLeaf = true ∨ f.Listed y ∧ f.flow.Dominates (f.home y) b

/-- The sources of a phi of block `b`: one for each predecessor. -/
def OneSourceEach (b : BlockId) (sources : List (InstrId × BlockId)) : Prop :=
  (sources.map Prod.snd).Nodup ∧ ∀ p, p ∈ sources.map Prod.snd ↔ p ∈ (f.block b).preds

/-- The function is in static single assignment form. -/
structure Valid : Prop extends f.Coherent where
  terminated : ∀ b, b.index < f.blocks.size → (f.block b).terminator ≠ none
  sources : ∀ b, ∀ x ∈ (f.block b).phis, ∀ sources, f.instr x = .phi sources →
    f.OneSourceEach b sources
  entry : (f.block .entry).preds = []
  source_available : ∀ b, ∀ x ∈ (f.block b).phis, ∀ sources, f.instr x = .phi sources →
    ∀ s ∈ sources, f.AvailableAtEnd s.2 s.1
  operand_available : ∀ b done x rest, (f.block b).instrs = done ++ x :: rest →
    (f.instr x).isPhi = false → ∀ y ∈ (f.instr x).operands, f.AvailableAfter done b y

namespace Coherent

variable {f : Func} (hf : f.Coherent) {b : BlockId} {x : InstrId}

include hf

theorem home_of_mem_phis (hx : x ∈ (f.block b).phis) : f.home x = b :=
  hf.home b x (List.mem_append_left _ (List.mem_append_left _ hx))

theorem not_isLeaf_of_mem_values (hx : x ∈ (f.block b).values) : (f.instr x).isLeaf = false := by
  rcases List.mem_append.mp hx with hx | hx
  · obtain ⟨sources, h⟩ := hf.phi b x hx
    rw [h]
    rfl
  · exact (hf.body b x hx).2.2

theorem not_isTerminator_of_mem_values (hx : x ∈ (f.block b).values) :
    (f.instr x).isTerminator = false := by
  rcases List.mem_append.mp hx with hx | hx
  · obtain ⟨sources, h⟩ := hf.phi b x hx
    rw [h]
    rfl
  · exact (hf.body b x hx).2.1

theorem not_isLeaf_of_mem_instrs (hx : x ∈ (f.block b).instrs) : (f.instr x).isLeaf = false := by
  rcases List.mem_append.mp hx with hx | hx
  · exact hf.not_isLeaf_of_mem_values hx
  · exact Instr.not_isLeaf_of_isTerminator (hf.terminator b x (by simpa using hx))

end Coherent

/-- What is executed before another instruction of its block has a value. -/
theorem Coherent.listed_of_mem_done {f : Func} (hf : f.Coherent) {b : BlockId} {x y : InstrId}
    {done rest : List InstrId} (h : (f.block b).instrs = done ++ x :: rest) (hy : y ∈ done) :
    f.Listed y ∧ f.home y = b := by
  have hhome : f.home y = b := hf.home b y (h ▸ List.mem_append_left _ hy)
  have hprefix : done <+: (f.block b).values := by
    have hdone : done <+: (f.block b).instrs := ⟨_, h.symm⟩
    refine List.prefix_of_prefix_length_le hdone ⟨_, rfl⟩ ?_
    have hlen := congrArg List.length h
    rw [Block.instrs, ← Block.values, List.length_append, List.length_append,
      List.length_cons] at hlen
    have hone : (f.block b).terminator.toList.length ≤ 1 := by
      cases (f.block b).terminator <;> simp
    omega
  refine ⟨?_, hhome⟩
  rw [Listed, hhome]
  exact hprefix.subset hy

section Tables

/-- The function that the tables give, with its constants in the pool and its names in use. -/
def ofTables (name : String) (returns : ResultType) (params : List InstrId)
    (blocks : Array Block) (nodes : Array Node) (temporaries : Nat) : Func where
  name := name
  returns := returns
  params := params
  blocks := blocks
  nodes := nodes
  temporaries := temporaries
  pool := (List.range nodes.size).filterMap fun i =>
    (nodes[i]?.bind (·.instr.constant?)).map (·, ⟨i⟩)
  names := (nodes.map Node.name).toList
  pooled := fun v x hx => by
    obtain ⟨l, l', heq, -⟩ := List.lookup_eq_some_iff.mp hx
    have hmem : (v, x) ∈ l ++ (v, x) :: l' := List.mem_append_right _ List.mem_cons_self
    rw [← heq, List.mem_filterMap] at hmem
    obtain ⟨i, -, hi⟩ := hmem
    obtain ⟨w, hw, hpair⟩ := Option.map_eq_some_iff.mp hi
    obtain ⟨rfl, rfl⟩ := Prod.mk.inj hpair
    obtain ⟨n, hn, hconst⟩ := Option.bind_eq_some_iff.mp hw
    rw [hn, Option.map_some, Instr.constant?_eq_some_iff.mp hconst]
  named := fun n hn => Array.mem_toList_iff.mpr (Array.mem_map_of_mem hn)

end Tables

section Check

/-- The computed form of `Dominates`. -/
def dominatesCheck (a b : BlockId) : Bool :=
  f.flow.dominators.dominates a b || !f.flow.dominators.isReachable b

/-- The computed form of `Listed`. -/
def listedCheck (x : InstrId) : Bool := x ∈ (f.block (f.home x)).values

def availableAfterCheck (done : List InstrId) (b : BlockId) (y : InstrId) : Bool :=
  (f.instr y).isLeaf || y ∈ done
    || f.listedCheck y && f.home y ≠ b && f.dominatesCheck (f.home y) b

def availableAtEndCheck (b : BlockId) (y : InstrId) : Bool :=
  (f.instr y).isLeaf || f.listedCheck y && f.dominatesCheck (f.home y) b

/-- All operands of the instructions in a list are there when they are executed. -/
def operandsCheck (b : BlockId) : List InstrId → List InstrId → Bool
  | _, [] => true
  | done, x :: rest =>
      ((f.instr x).isPhi || (f.instr x).operands.all (f.availableAfterCheck done b))
        && operandsCheck b (done ++ [x]) rest

def phiCheck (b : BlockId) (x : InstrId) : Bool :=
  match f.instr x with
  | .phi sources =>
      decide (sources.map Prod.snd).Nodup
        && sources.all (fun s => s.2 ∈ (f.block b).preds)
        && (f.block b).preds.all (fun p => p ∈ sources.map Prod.snd)
        && sources.all (fun s => f.availableAtEndCheck s.2 s.1)
  | _ => false

def edgesCheck (b : BlockId) : Bool :=
  (f.block b).succs.all (fun c => c.index < f.blocks.size && b ∈ (f.block c).preds)
    && (f.block b).preds.all (fun p => p.index < f.blocks.size && b ∈ (f.block p).succs)

def terminatorCheck (b : BlockId) : Bool :=
  match (f.block b).terminator with
  | none => false
  | some y => (f.instr y).isTerminator && (f.instr y).targets.all (· ∈ (f.block b).succs)

def blockCheck (b : BlockId) : Bool :=
  f.edgesCheck b && f.terminatorCheck b
    && (f.block b).instrs.all (fun x => f.home x = b)
    && (f.block b).phis.all (f.phiCheck b)
    && (f.block b).body.all (fun x =>
      !(f.instr x).isPhi && !(f.instr x).isTerminator && !(f.instr x).isLeaf)
    && decide (f.block b).instrs.Nodup
    && f.operandsCheck b [] (f.block b).instrs

/-- Decides whether the function is valid. -/
def validCheck : Bool :=
  0 < f.blocks.size && (f.block .entry).preds.isEmpty
    && f.params.all (fun x => (f.instr x).isLeaf) && f.blockIds.all f.blockCheck

variable {f}

theorem edges_of_check (hedges : ∀ b, b.index < f.blocks.size → f.edgesCheck b = true)
    (hsize : 0 < f.blocks.size) : f.flow.Coherent := by
  have hin {b c : BlockId} (h : c ∈ (f.block b).succs) : b.index < f.blocks.size := by
    by_contra hb
    simp [block, Array.getElem?_eq_none (Nat.le_of_not_lt hb), Block.vacant] at h
  have hin' {b c : BlockId} (h : b ∈ (f.block c).preds) : c.index < f.blocks.size := by
    by_contra hc
    simp [block, Array.getElem?_eq_none (Nat.le_of_not_lt hc), Block.vacant] at h
  have hsucc {b c : BlockId} (h : c ∈ (f.block b).succs) :
      c.index < f.blocks.size ∧ b ∈ (f.block c).preds := by
    have := hedges b (hin h)
    simp only [edgesCheck, Bool.and_eq_true, List.all_eq_true, decide_eq_true_eq] at this
    exact this.1 c h
  refine ⟨fun b c => ⟨fun h => (hsucc h).2, fun h => ?_⟩, fun b c h => (hsucc h).1, hsize⟩
  have := hedges c (hin' h)
  simp only [edgesCheck, Bool.and_eq_true, List.all_eq_true, decide_eq_true_eq] at this
  exact (this.2 b h).2

variable (hflow : f.flow.Coherent)

include hflow

theorem dominates_of_check {a b : BlockId} (h : f.dominatesCheck a b = true) :
    f.flow.Dominates a b := by
  rw [dominatesCheck, Bool.or_eq_true, hflow.dominates_iff] at h
  rcases h with h | h
  · exact h.2.2
  · intro t ht
    have hb : b ∈ f.flow.reachable := hflow.mem_reachable.mpr ⟨t, ht⟩
    simp [Dominators.isReachable, FlowGraph.dominators, hb] at h

theorem availableAfter_of_check {done : List InstrId} {b : BlockId} {y : InstrId}
    (h : f.availableAfterCheck done b y = true) : f.AvailableAfter done b y := by
  simp only [availableAfterCheck, listedCheck, Bool.or_eq_true, Bool.and_eq_true,
    decide_eq_true_eq] at h
  rcases h with (h | h) | ⟨⟨hl, hne⟩, hd⟩
  · exact .inl h
  · exact .inr (.inl h)
  · exact .inr (.inr ⟨hl, hne, dominates_of_check hflow hd⟩)

theorem availableAtEnd_of_check {b : BlockId} {y : InstrId}
    (h : f.availableAtEndCheck b y = true) : f.AvailableAtEnd b y := by
  simp only [availableAtEndCheck, listedCheck, Bool.or_eq_true, Bool.and_eq_true,
    decide_eq_true_eq] at h
  exact h.imp id fun h => ⟨h.1, dominates_of_check hflow h.2⟩

theorem operands_of_check {b : BlockId} {x y : InstrId} {done rest todo w : List InstrId}
    (h : f.operandsCheck b done todo = true) (htodo : todo = rest ++ x :: w)
    (hx : (f.instr x).isPhi = false) (hy : y ∈ (f.instr x).operands) :
    f.AvailableAfter (done ++ rest) b y := by
  induction todo generalizing done rest with
  | nil => simp at htodo
  | cons z todo ih =>
    simp only [operandsCheck, Bool.and_eq_true] at h
    cases rest with
    | nil =>
      obtain ⟨rfl, -⟩ := List.cons.inj htodo
      simp only [hx, Bool.false_or, List.all_eq_true] at h
      rw [List.append_nil]
      exact availableAfter_of_check hflow (h.1 y hy)
    | cons z' rest =>
      obtain ⟨rfl, heq⟩ := List.cons.inj htodo
      simpa using ih h.2 heq

omit hflow in
theorem index_lt_of_mem_instrs {b : BlockId} {x : InstrId} (hx : x ∈ (f.block b).instrs) :
    b.index < f.blocks.size := by
  by_contra hb
  simp [block, Array.getElem?_eq_none (Nat.le_of_not_lt hb), Block.vacant, Block.instrs] at hx

omit hflow in
theorem valid_of_check (h : f.validCheck = true) : f.Valid := by
  simp only [validCheck, Bool.and_eq_true, decide_eq_true_eq, List.isEmpty_iff,
    List.all_eq_true] at h
  obtain ⟨⟨⟨hsize, hentry⟩, hparams⟩, hblocks⟩ := h
  have hcheck : ∀ b, b.index < f.blocks.size → f.blockCheck b = true := fun b hb =>
    hblocks b (List.mem_map.mpr ⟨b.index, List.mem_range.mpr hb, rfl⟩)
  simp only [blockCheck, Bool.and_eq_true, decide_eq_true_eq, List.all_eq_true,
    Bool.not_eq_true'] at hcheck
  have hflow : f.flow.Coherent :=
    edges_of_check (fun b hb => (hcheck b hb).1.1.1.1.1.1) hsize
  have hphi {b : BlockId} {x : InstrId} (hx : x ∈ (f.block b).phis) :
      f.phiCheck b x = true :=
    (hcheck b (index_lt_of_mem_instrs (List.mem_append_left _ (List.mem_append_left _ hx))))
      |>.1.1.1.2 x hx
  have hterminator {b : BlockId} {y : InstrId} (hy : (f.block b).terminator = some y) :
      (f.instr y).isTerminator = true ∧ ∀ c ∈ (f.instr y).targets, c ∈ (f.block b).succs := by
    have hmem : y ∈ (f.block b).instrs := List.mem_append_right _ (by simp [hy])
    have := (hcheck b (index_lt_of_mem_instrs hmem)).1.1.1.1.1.2
    simpa [terminatorCheck, hy] using this
  refine ⟨⟨hflow, ?_, ?_, ?_, ?_, ?_, hparams, ?_⟩, ?_, ?_, hentry, ?_, ?_⟩
  · exact fun b y c hy hc => (hterminator hy).2 c hc
  · exact fun b x hx => (hcheck b (index_lt_of_mem_instrs hx)).1.1.1.1.2 x hx
  · intro b x hx
    have := hphi hx
    unfold phiCheck at this
    split at this
    · exact ⟨_, ‹_›⟩
    · cases this
  · intro b x hx
    have hmem : x ∈ (f.block b).instrs :=
      List.mem_append_left _ (List.mem_append_right _ hx)
    have := (hcheck b (index_lt_of_mem_instrs hmem)).1.1.2 x hx
    exact ⟨this.1.1, this.1.2, this.2⟩
  · exact fun b y hy => (hterminator hy).1
  · intro b
    by_cases hb : b.index < f.blocks.size
    · exact (hcheck b hb).1.2
    · simp [block, Array.getElem?_eq_none (Nat.le_of_not_lt hb), Block.vacant, Block.instrs]
  · intro b hb hnone
    have := (hcheck b hb).1.1.1.1.1.2
    simp [terminatorCheck, hnone] at this
  · intro b x hx sources heq
    have := hphi hx
    simp only [phiCheck, heq, Bool.and_eq_true, decide_eq_true_eq, List.all_eq_true] at this
    refine ⟨this.1.1.1, fun p => ⟨fun hp => ?_, this.1.2 p⟩⟩
    obtain ⟨s, hs, rfl⟩ := List.mem_map.mp hp
    exact this.1.1.2 s hs
  · intro b x hx sources heq s hs
    have := hphi hx
    simp only [phiCheck, heq, Bool.and_eq_true, decide_eq_true_eq, List.all_eq_true] at this
    exact availableAtEnd_of_check hflow (this.2 s hs)
  · intro b done x rest heq hx y hy
    have hmem : x ∈ (f.block b).instrs := heq ▸ List.mem_append_right _ List.mem_cons_self
    have := (hcheck b (index_lt_of_mem_instrs hmem)).2
    simpa using operands_of_check hflow this heq hx hy

end Check

end Func

end LoopBounds
