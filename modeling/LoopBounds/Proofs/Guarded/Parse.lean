import LoopBounds.Proofs.Guarded.Hoisting
import LoopBounds.Proofs.Guarded.Outline
import LoopBounds.Proofs.Listing.SpelledProgram

/-!
# Guarded parsing

A text may be wrong, which is an answer and stops nothing. Besides, the reader looks up the block
of each label, adds instructions to blocks that are there, ends a block only once, and finds every
new instruction under the name and the position foreseen for it. These lookups and checks depend
on the lines before, whether or not a later line is wrong.
-/

namespace LoopBounds.Guarded

open Listing

section Appending

variable (f : Func) (b : BlockId)

def pushPhi (name : Option String) (sources : List (InstrId × BlockId)) :
    Guarded (InstrId × Func) := do
  let _ ← block f b
  return (f.nextId, f.addPhi b name sources)

/-- Ends a block that has not ended, and links blocks that are there. -/
def setTerminator (i : Instr) : Guarded (InstrId × Func) := do
  check .assertion (i.isTerminator = true)
  check .assertion ((← terminator? f b) = none)
  forM i.targets fun t => discard (block f t)
  return (f.nextId, f.setTerminator b i)

def append (name : Option String) (i : Instr) : Guarded (InstrId × Func) :=
  match i with
  | .phi sources => pushPhi f b name sources
  | i => if i.isTerminator then setTerminator f b i else pushInstr f b name i

variable {f b} {name : Option String} {i : Instr}

theorem setTerminator_eq (hb : b.index < f.blocks.size) (hi : i.isTerminator = true)
    (hnone : f.terminator? b = none) (ht : ∀ t ∈ i.targets, t.index < f.blocks.size) :
    setTerminator f b i = pure (f.nextId, f.setTerminator b i) := by
  have htargets : forM i.targets (fun t => discard (block f t)) = (pure () : Guarded Unit) :=
    forM_eq fun t h => by
      rw [block_eq (ht t h)]
      rfl
  simp only [setTerminator, check_eq hi, terminator?_eq hb, check_eq hnone, htargets, pure_bind]

theorem append_eq (hb : b.index < f.blocks.size)
    (hnone : i.isTerminator = true → f.terminator? b = none)
    (ht : ∀ t ∈ i.targets, t.index < f.blocks.size) :
    append f b name i = pure (f.nextId, f.append b name i) := by
  cases i with
  | phi sources => simp only [append, pushPhi, block_eq hb, pure_bind, Func.append]
  | jump | branch | ret => exact setTerminator_eq hb rfl (hnone rfl) ht
  | _ => exact pushInstr_eq hb ⟨rfl, rfl⟩

end Appending

section Verification

variable (f : Func)

def phiFault? (bb : Block) (x : InstrId) : Guarded (Option Fault) := do
  match ← instr f x with
  | .phi sources =>
      if sources.all (fun s => s.2 ∈ bb.preds) && sources.length == bb.preds.length then
        return none
      else return some (.phiMismatch (← nameOf f x) bb.label)
  | _ => return some (.notPhi (← nameOf f x))

def blockFault? (bb : Block) : Guarded (Option Fault) :=
  match bb.terminator with
  | none => return some (.noTerminator bb.label)
  | some _ => bb.phis.findSomeM? (phiFault? f bb)

def verify : Parsing Unit := do
  match ← liftM (f.blocks.toList.findSomeM? (blockFault? f)) with
  | some fault => raised (.error (.malformed f.name fault))
  | none => return ()

variable {f}

theorem phiFault?_eq {bb : Block} {x : InstrId} (hx : x.index < f.nodes.size) :
    phiFault? f bb x = pure (f.phiFault? bb x) := by
  simp only [phiFault?, instr_eq hx, nameOf_eq hx, pure_bind, Func.phiFault?]
  cases f.instr x with
  | phi sources =>
    dsimp only
    split_ifs <;> rfl
  | _ => rfl

theorem verify_eq (hfill : f.Filled) : verify f = raised f.verify := by
  have hfault : f.blocks.toList.findSomeM? (blockFault? f) = pure f.fault? := by
    refine findSomeM?_eq fun bb hbb => ?_
    obtain ⟨k, hk, rfl⟩ := List.mem_iff_getElem.mp hbb
    have hblock : f.block ⟨k⟩ = f.blocks.toList[k] := by
      rw [Func.block, Array.getElem?_eq_getElem (by simpa using hk)]
      rfl
    rw [← hblock, blockFault?, Func.blockFault?]
    cases (f.block ⟨k⟩).terminator with
    | none => rfl
    | some y =>
      refine findSomeM?_eq fun x hx => phiFault?_eq (hfill ⟨k⟩ x ?_)
      exact List.mem_append_left _ (List.mem_append_left _ hx)
  simp only [verify, hfault, liftM_pure_parsing, pure_bind, Func.verify]
  cases f.fault? <;> rfl

end Verification

section Lines

/-- An instruction that has been added under a name stands where the name says. -/
def checkName (names : Names) (x : InstrId) : Option String → Guarded Unit
  | some n => do check .assertion ((← found .noKey (names.values.lookup n)) = x)
  | none => return ()

/-- Adds the line of a pair to its block. -/
def addLine (names : Names) (b : BlockId) (f : Func) (p : Pair) : Parsing Func := do
  let name ← definedName? p
  let i ← instrOf names f p
  let (x, g) ← append f b name i
  checkName names x name
  return g

/-- Adds the lines of a block, which is looked up by its label. -/
def addBlock (names : Names) (f : Func) (b : String × List Pair) : Parsing Func := do
  let x ← (found .noKey (names.labels.lookup b.1) : Guarded BlockId)
  b.2.foldlM (addLine names x) f

/-- The function that the pair of a definition stands for. -/
def function (p : Pair) : Parsing Func := do
  let (r, ps) ← next p.inner
  let (g, ps) ← next ps
  let name ← unmarked g
  let o ← ps.foldlM addPart ⟨Func.empty name (resultTypeOf r), [], []⟩
  let (f, labels) ← (o.blocks.map Prod.fst).zipIdx.foldlM addLabel (o.f, [])
  let f ← raised (Definition.collectConstants f (o.lines.flatMap fun p => literalsIn p.inner))
  let values ← o.lines.zipIdx.foldlM (defineLine f) o.values
  let f ← o.blocks.foldlM (addBlock ⟨values, labels⟩) f
  verify f
  return f

def parse (text : String) : Parsing (List Func) :=
  match pairs? text with
  | none => raised (.error (.notAProgram (mistake text)))
  | some ps => do
      let (program, _) ← next ps
      (program.inner.filter fun p => p.rule = .definition).mapM function

variable {d : Definition} {names : Names} {f g : Func} {b : BlockId} {l : Line} {start : ℕ}
variable {lines later : List Line} {i : Instr} {p : Pair}

theorem checkName_eq {x : InstrId} {name : Option String}
    (h : ∀ n ∈ name, names.values.lookup n = some x) : checkName names x name = pure () := by
  cases name with
  | none => rfl
  | some n => simp only [checkName, h n rfl, found_some, pure_bind, check_eq]

/-- A line is added as long as its block has not ended and its name stands for the next
position. -/
theorem addLine_eq (hp : l.ToldBy p) (hb : b.index < f.blocks.size)
    (hnone : l.isTerminator = true → f.terminator? b = none)
    (hlabels : ∀ t c, names.label t = .ok c → c.index < f.blocks.size)
    (hname : ∀ n ∈ l.defines?, names.values.lookup n = some f.nextId) :
    addLine names b f p = raised (do return f.append b l.defines? (← names.instr f l)) := by
  rw [addLine, definedName?_eq hp, instrOf_eq hp, liftM_pure_parsing, pure_bind]
  refine raised_bind_of fun i hi => ?_
  have hmeans := instr_eq_ok_iff.mp hi
  have htargets : ∀ t ∈ i.targets, t.index < f.blocks.size := fun t ht => by
    obtain ⟨s, -, hs⟩ := exists_left_of_forall₂ hmeans.targets ht
    exact hlabels s t hs
  rw [append_eq hb (fun hterm => hnone (hmeans.kind.2.2 ▸ hterm)) htargets, liftM_pure_parsing,
    pure_bind]
  dsimp only
  rw [checkName_eq hname, liftM_pure_parsing, pure_bind]
  rfl

/-- The lines up to here have been added, and block `b` waits for the next `lines`; the blocks
after it are still empty. -/
structure Ready (d : Definition) (start : ℕ) (b : BlockId) (later lines : List Line) (f : Func) :
    Prop where
  position : ∃ done, d.lines = done ++ lines ++ later ∧ f.nodes.size = start + done.length
  size : f.blocks.size = d.sections.length
  unfinished : lines ≠ [] → f.terminator? b = none
  inner : ∀ l ∈ lines.dropLast, l.isTerminator = false
  others : ∀ c : BlockId, b.index < c.index → f.terminator? c = none

theorem terminator?_append (hb : b.index < f.blocks.size) (name : Option String) (c : BlockId) :
    (f.append b name i).terminator? c =
      if i.isTerminator = true ∧ c = b then some f.nextId else f.terminator? c := by
  unfold Func.terminator?
  cases hterm : i.isTerminator with
  | true =>
    obtain ⟨ss, ps, hblock⟩ := Func.exists_block_setTerminator i hb c
    rw [Func.append_of_isTerminator f b name hterm, hblock]
    simp
  | false =>
    simp only [Bool.false_eq_true, false_and, if_false]
    cases hphi : i.isPhi with
    | true =>
      rw [Func.block_append_of_isPhi f b name hphi]
      split_ifs <;> rfl
    | false =>
      rw [Func.block_append_of_ordinary f b name hphi hterm]
      split_ifs <;> rfl

theorem Ready.append (h : Ready d start b later (l :: lines) f) (hb : b.index < f.blocks.size)
    (hmeans : names.Means g l i) : Ready d start b later lines (f.append b l.defines? i) := by
  have hname : i.isTerminator = true → l.defines? = none := fun hterm =>
    Option.isNone_iff_eq_none.mp (hmeans.kind.2.2.symm.trans hterm)
  obtain ⟨done, hlines, hsize⟩ := h.position
  refine ⟨⟨done ++ [l], by simp [hlines], ?_⟩, (Func.size_append f b _ i).trans h.size,
    fun hne => ?_, fun m hm => ?_, fun c hc => ?_⟩
  · rw [f.nodes_append b hname, Array.size_push, hsize, List.length_append]
    rfl
  · -- The line is not the last one, so it does not end the block.
    have hterm : i.isTerminator = false := by
      rw [hmeans.kind.2.2]
      apply h.inner
      rw [List.dropLast_cons_of_ne_nil hne]
      exact List.mem_cons_self
    rw [terminator?_append hb, if_neg (by simp [hterm])]
    exact h.unfinished (List.cons_ne_nil _ _)
  · refine h.inner m ?_
    cases lines with
    | nil => cases hm
    | cons n rest => exact List.mem_cons_of_mem _ hm
  · rw [terminator?_append hb, if_neg]
    · exact h.others c hc
    · rintro ⟨-, rfl⟩
      exact lt_irrefl _ hc

section Definition

variable (hvalues : (d.params ++ d.lines.filterMap Line.defines?).Nodup)

include hvalues

theorem Ready.addLine (hp : l.ToldBy p) (h : Ready d start b later (l :: lines) f)
    (hb : b.index < f.blocks.size) :
    addLine (d.names start) b f p =
        raised (do return f.append b l.defines? (← (d.names start).instr f l)) ∧
      ∀ g, (do return f.append b l.defines? (← (d.names start).instr f l)) = Except.ok g →
        Ready d start b later lines g := by
  obtain ⟨done, hlines, hsize⟩ := h.position
  constructor
  · refine addLine_eq hp hb (fun _ => h.unfinished (List.cons_ne_nil _ _)) (fun t c hc => ?_)
      fun n hn => ?_
    · obtain ⟨u, w, heq, -⟩ := List.lookup_eq_some_iff.mp (Names.label_eq_ok_iff.mp hc)
      have hmem : (t, c) ∈ (d.names start).labels :=
        heq ▸ List.mem_append_right _ List.mem_cons_self
      have hlt := (List.getElem?_eq_some_iff.mp (mem_labels.mp hmem)).1
      rw [h.size]
      simpa [Definition.labels] using hlt
    · rw [lookup_eq_some_iff_mem (keys_values d start ▸ hvalues), mem_values]
      refine .inr ⟨done.length, l, ?_, hn, by rw [Func.nextId, hsize]⟩
      simp [hlines]
  · intro g hg
    obtain ⟨i, hi, hg⟩ := bind_eq_ok_iff.mp hg
    obtain rfl := Except.ok.inj hg
    exact h.append hb (instr_eq_ok_iff.mp hi)

theorem Ready.foldlM_addLine {ps : List Pair} (hps : List.Forall₂ Line.ToldBy lines ps)
    (h : Ready d start b later lines f) (hb : b.index < d.sections.length) :
    ps.foldlM (Guarded.addLine (d.names start) b) f =
        raised (Definition.addLines (d.names start) b f lines) ∧
      ∀ g, Definition.addLines (d.names start) b f lines = .ok g → Ready d start b later [] g := by
  refine foldlM_raised (I := Ready d start b later) (fun l p rest f hp hready => ?_) hps h
  exact hready.addLine hvalues hp (hb.trans_eq hready.size.symm)

omit hvalues in
theorem not_isTerminator_of_ordered {s : Section} (hs : s.Ordered) :
    ∀ l ∈ s.lines.dropLast, l.isTerminator = false := by
  obtain ⟨phis, body, last, hlines, hphis, hbody, -⟩ := hs
  rw [hlines, List.dropLast_concat]
  intro l hl
  rcases List.mem_append.mp hl with hl | hl
  · have hphi := hphis l hl
    cases l with
    | phi => rfl
    | _ => cases hphi
  · exact (hbody l hl).2

/-- The sections up to here have been added, and the blocks of those left are still empty. -/
structure Waiting (d : Definition) (start : ℕ) (left : List (Section × ℕ)) (f : Func) : Prop where
  position : ∃ done, d.sections.zipIdx = done ++ left ∧
    f.nodes.size = start + (done.flatMap fun t => t.1.lines).length ∧
      ∀ c : BlockId, done.length ≤ c.index → f.terminator? c = none
  size : f.blocks.size = d.sections.length

/-- The next section is added to the block that has its label, which is the one at its place. -/
theorem Waiting.addBlock {t : Section × ℕ} {c : String × List Pair} {left : List (Section × ℕ)}
    (hd : d.WellFormed) (hlabels : d.labels.Nodup) (hc : BlockToldBy t.1 c)
    (h : Waiting d start (t :: left) f) :
    addBlock (d.names start) f c =
        raised (Definition.addLines (d.names start) ⟨t.2⟩ f t.1.lines) ∧
      ∀ g, Definition.addLines (d.names start) ⟨t.2⟩ f t.1.lines = .ok g →
        Waiting d start left g := by
  obtain ⟨s, k⟩ := t
  obtain ⟨done, heq, hsize, hempty⟩ := h.position
  have hget : d.sections.zipIdx[done.length]? = some (s, k) := by
    rw [heq, List.getElem?_append_right (Nat.le_refl _), Nat.sub_self, List.getElem?_cons_zero]
  obtain ⟨hs, rfl⟩ : d.sections[done.length]? = some s ∧ done.length = k := by
    simpa [List.getElem?_zipIdx] using hget
  have hlt := (List.getElem?_eq_some_iff.mp hs).1
  have hlookup : (d.names start).labels.lookup s.label = some ⟨done.length⟩ := by
    rw [lookup_eq_some_iff_mem (keys_labels d start ▸ hlabels), mem_labels]
    simp [Definition.labels, hs]
  have hlines : d.lines = (done.flatMap fun t => t.1.lines) ++ s.lines ++
      left.flatMap fun t => t.1.lines := by
    rw [d.lines_eq_flatMap_zipIdx, heq]
    simp
  have hready : Ready d start ⟨done.length⟩ (left.flatMap fun t => t.1.lines) s.lines f :=
    ⟨⟨_, hlines, hsize⟩, h.size, fun _ => hempty _ (Nat.le_refl _),
      not_isTerminator_of_ordered (hd.sections s (List.mem_of_getElem? hs)).ordered,
      fun c hc => hempty c (Nat.le_of_lt hc)⟩
  obtain ⟨hfold, hkeeps⟩ := hready.foldlM_addLine hvalues hc.2 hlt
  refine ⟨?_, fun g hg => ?_⟩
  · simp only [Guarded.addBlock, hc.1, hlookup, found_some, liftM_pure_parsing, pure_bind, hfold]
  · obtain ⟨⟨done', hlines', hsize'⟩, hblocks, -, -, hothers⟩ := hkeeps g hg
    obtain rfl : done' = (done.flatMap fun t => t.1.lines) ++ s.lines := by
      rw [List.append_nil] at hlines'
      exact List.append_cancel_right (hlines'.symm.trans hlines)
    refine ⟨⟨done ++ [(s, done.length)], by simp [heq], ?_, fun c hc => hothers c ?_⟩, hblocks⟩
    · simpa using hsize'
    · simpa using hc

end Definition

theorem waiting_ground (hd : d.WellFormed) (vs : List Int32) :
    Waiting d (d.ground vs).nodes.size d.sections.zipIdx (d.ground vs) := by
  refine ⟨⟨[], rfl, rfl, fun c _ => ?_⟩, Definition.size_ground hd vs⟩
  rw [Func.terminator?, block_ground hd.nonempty vs]

/-- The blocks take the lines of the sections one after another. -/
theorem foldlM_addBlock {blocks : List (String × List Pair)} (hd : d.WellFormed)
    (hlabels : d.labels.Nodup) (hvalues : (d.params ++ d.lines.filterMap Line.defines?).Nodup)
    (hblocks : List.Forall₂ BlockToldBy d.sections blocks) (vs : List Int32) :
    blocks.foldlM (addBlock (d.names (d.ground vs).nodes.size)) (d.ground vs) =
      raised (d.sections.zipIdx.foldlM
        (fun f t => Definition.addLines (d.names (d.ground vs).nodes.size) ⟨t.2⟩ f t.1.lines)
        (d.ground vs)) := by
  have hsections : List.Forall₂ (fun t => BlockToldBy t.1) d.sections.zipIdx blocks := by
    rw [← List.forall₂_map_left_iff, List.zipIdx_map_fst]
    exact hblocks
  refine (foldlM_raised (I := Waiting d (d.ground vs).nodes.size)
    (fun t c left f hc hwaiting => ?_) hsections (waiting_ground hd vs)).1
  exact hwaiting.addBlock hvalues hd hlabels hc

/-- The pair of a definition stands for the function that the definition stands for. -/
theorem function_eq (hd : d.WellFormed) (h : d.ToldBy p) : function p = raised d.resolve := by
  obtain ⟨t, ps, bs, rfl, hparams, hsections⟩ := h.exists_inner
  obtain ⟨blocks, hblocks, hparts⟩ := foldlM_addPart hparams hsections
  have hlabels : blocks.map Prod.fst = d.labels := labels_of_toldBy hblocks
  have hlines : List.Forall₂ Line.ToldBy d.lines (blocks.flatMap Prod.snd) :=
    lines_of_toldBy hblocks
  simp only [function, Pair.inner_of, next_cons, liftM_pure_parsing, pure_bind,
    resultTypeOf_text hd.returns, unmarked_marked (rfl : '@'.utf8Size = 1), hparts,
    Definition.resolve, raised_bind, bind_assoc, raised_pure, hlabels, Outline.lines,
    literals_of_toldBy hlines, foldlM_addLabel_skeleton]
  refine raised_bind_congr fun _ hparams => raised_bind_congr fun _ hlabels =>
    raised_bind_congr fun f hf => ?_
  rw [distinct_eq_ok_iff] at hparams hlabels
  obtain ⟨vs, hvs, rfl⟩ := collectConstants_eq_ok_iff.mp hf
  change List.foldlM (defineLine (d.ground vs)) _ _ >>= _ = _
  rw [foldlM_defineLine_names hlines (skeletal_ground hd.nonempty vs).name hparams, raised_bind,
    bind_assoc]
  refine raised_bind_congr fun _ hvalues => ?_
  rw [distinct_eq_ok_iff] at hvalues
  rw [raised_pure, pure_bind]
  change List.foldlM (addBlock (d.names (d.ground vs).nodes.size)) (d.ground vs) blocks >>= _ = _
  rw [foldlM_addBlock hd hlabels hvalues hblocks]
  refine raised_bind_congr fun g hg => ?_
  obtain ⟨hmeans, hfilled⟩ := (addSections_eq_ok_iff ⟨rfl, fun _ => rfl⟩).mp hg
  have hassembles : d.Assembles vs g := by
    refine ⟨hparams, hlabels, hvalues, hvs, fun l hl => ?_, hfilled⟩
    rw [d.lines_eq_flatMap_zipIdx] at hl
    obtain ⟨t, ht, hl⟩ := List.mem_flatMap.mp hl
    exact hmeans t ht l hl
  rw [verify_eq (hassembles.built hd).filled]

theorem filter_definitions {ds : List Definition} (h : ProgramToldBy ds p) :
    List.Forall₂ Definition.ToldBy ds (p.inner.filter fun q => q.rule = .definition) := by
  cases h with
  | @intro t t' ps hps =>
    have hrule : ∀ q ∈ ps, q.rule = .definition := fun q hq => by
      obtain ⟨d, -, hd⟩ := exists_left_of_forall₂ hps hq
      cases hd
      rfl
    have hfilter : ps.filter (fun q => q.rule = .definition) = ps :=
      List.filter_eq_self.mpr (by simpa using hrule)
    rw [Pair.inner_of, List.filter_append, hfilter]
    simpa using hps

theorem parse_eq (text : String) : parse text = raised (Func.parse text) := by
  unfold parse Func.parse
  rcases pairs?_cases text with ⟨hr, hq⟩ | ⟨ds, p, hr, hq, hp⟩
  · rw [hr, hq]
  · rw [hr, hq]
    simp only [next_cons, liftM_pure_parsing, pure_bind]
    have hpairs : List.Forall₂ (fun d p => d.WellFormed ∧ d.ToldBy p) ds
        (p.inner.filter fun q => q.rule = .definition) :=
      (List.forall₂_and_left _ _).mpr ⟨wellFormed_of_read? hr, filter_definitions hp⟩
    exact mapM_raised (fun d p h => function_eq h.1 h.2) hpairs

end Lines

end LoopBounds.Guarded
