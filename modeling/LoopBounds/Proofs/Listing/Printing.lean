import LoopBounds.Proofs.Func.Growth
import LoopBounds.Proofs.Listing.Written

/-!
# Functions as listings

A function says the same as the listing with the names and labels of its nodes and blocks, and
its text is the text of this listing, as long as its predecessor lists are those of the listing.
-/

namespace LoopBounds

open Listing

namespace Func

variable (f : Func)

def operandOf (x : InstrId) : Operand :=
  match f.constant? x with
  | some v => .literal (toString v.toInt)
  | none => .value (f.nameOf x)

def sourceOf (s : InstrId × BlockId) : Operand × String := (f.operandOf s.1, (f.block s.2).label)

/-- The line of an instruction. Constants and parameters have none. -/
def lineOf (x : InstrId) : Line :=
  match f.instr x with
  | .phi sources => .phi (f.nameOf x) (sources.map f.sourceOf)
  | .arith op y z => .arith (f.nameOf x) op (f.operandOf y) (f.operandOf z)
  | .neg y => .neg (f.nameOf x) (f.operandOf y)
  | .compare op y z => .compare (f.nameOf x) op (f.operandOf y) (f.operandOf z)
  | .jump t => .jump (f.block t).label
  | .branch c t e => .branch (f.operandOf c) (f.block t).label (f.block e).label
  | .ret value => .ret (value.map f.operandOf)
  | .constant _ | .param _ => .ret none

def sectionOf (b : BlockId) : Section := ⟨(f.block b).label, (f.block b).instrs.map f.lineOf⟩

def listing : Definition :=
  ⟨f.returns, f.name, f.params.map f.nameOf, f.blockIds.map f.sectionOf⟩

/-- The values that have a name: the parameters, and what the blocks compute. -/
def valueIds : List InstrId := f.params ++ f.blockIds.flatMap fun b => (f.block b).values

/-- What an operand of a line may be: a constant, or a value with a name. -/
def Named (x : InstrId) : Prop := (∃ v, f.instr x = .constant v) ∨ x ∈ f.valueIds

/-- Every operand of a line is a constant or a value with a name. -/
def Closed : Prop := ∀ b, ∀ x ∈ (f.block b).instrs, ∀ y ∈ (f.instr x).operands, f.Named y

/-- Instructions stand in the list of their kind, and the block is terminated. -/
structure Arranged (bb : Block) : Prop where
  phi : ∀ x ∈ bb.phis, (f.instr x).isPhi = true
  body : ∀ x ∈ bb.body, (f.instr x).isPhi = false ∧ (f.instr x).isTerminator = false ∧
    (f.instr x).isLeaf = false
  terminator : ∃ y, bb.terminator = some y ∧ (f.instr y).isTerminator = true

/-- What the blocks list can be written as lines, and the predecessors are those of the lines. -/
structure Printable : Prop where
  params : ∀ p ∈ f.params, f.constant? p = none
  listed : ∀ b, ∀ x ∈ (f.block b).instrs, (f.instr x).isLeaf = false
  preds : ∀ b, b.index < f.blocks.size →
    (f.block b).preds.map BlockId.index = f.listing.preds (f.block b).label

variable {f} {x : InstrId} {b : BlockId}

theorem mem_valueIds : x ∈ f.valueIds ↔ x ∈ f.params ∨ ∃ b, x ∈ (f.block b).values := by
  simp only [valueIds, List.mem_append, List.mem_flatMap, blockIds, List.mem_map, List.mem_range]
  refine or_congr_right ?_
  constructor
  · rintro ⟨b, -, hx⟩
    exact ⟨b, hx⟩
  · rintro ⟨b, hx⟩
    refine ⟨b, ⟨b.index, ?_, rfl⟩, hx⟩
    by_contra hb
    rw [block_of_size_le (Nat.le_of_not_lt hb)] at hx
    exact absurd hx List.not_mem_nil

theorem Arranged.mem_values (h : f.Arranged (f.block b)) (hx : x ∈ (f.block b).instrs)
    (hterm : (f.instr x).isTerminator = false) : x ∈ (f.block b).values := by
  refine (List.mem_append.mp hx).resolve_right fun hx => ?_
  obtain ⟨y, hy, hterm'⟩ := h.terminator
  rw [hy, Option.mem_toList] at hx
  rw [← Option.some.inj hx, hterm'] at hterm
  cases hterm

/-- Which list an instruction stands in rests on the lists and on the instructions in them. -/
theorem Arranged.congr {g : Func} {bb bb' : Block} (h : f.Arranged bb) (hphis : bb'.phis = bb.phis)
    (hbody : bb'.body = bb.body) (hlast : bb'.terminator = bb.terminator)
    (hinstr : ∀ x ∈ bb.instrs, g.instr x = f.instr x) : g.Arranged bb' where
  phi x hx := by
    rw [hphis] at hx
    rw [hinstr x (List.mem_append_left _ (List.mem_append_left _ hx))]
    exact h.phi x hx
  body x hx := by
    rw [hbody] at hx
    rw [hinstr x (List.mem_append_left _ (List.mem_append_right _ hx))]
    exact h.body x hx
  terminator := by
    obtain ⟨y, hy, hterm⟩ := h.terminator
    refine ⟨y, hlast.trans hy, ?_⟩
    rwa [hinstr y (List.mem_append_right _ (by simp [hy]))]

theorem text_operandOf (f : Func) (x : InstrId) : (f.operandOf x).text = f.operandText x := by
  rw [operandOf, operandText]
  cases f.constant? x <;> rfl

theorem text_sourceOf (f : Func) (s : InstrId × BlockId) :
    Listing.sourceText (f.sourceOf s) = f.sourceText s := by
  apply String.toList_inj.mp
  simp only [Listing.sourceText, sourceOf, sourceText, text_operandOf, labelText,
    String.toList_append, List.append_assoc]
  rfl

theorem text_lineOf (hx : (f.instr x).isLeaf = false) : (f.lineOf x).text = f.instrText x := by
  apply String.toList_inj.mp
  unfold lineOf instrText
  cases h : f.instr x with
  | constant v | param k =>
    rw [h] at hx
    cases hx
  | phi sources =>
    have hsources : (sources.map f.sourceOf).map Listing.sourceText = sources.map f.sourceText := by
      simp only [List.map_map, Function.comp_def, text_sourceOf]
    simp only [Line.text, Line.defines?, Line.value, Line.keyword, Line.rest, valueText, hsources,
      String.toList_append, List.append_assoc]
    rfl
  | arith | compare | neg =>
    simp only [Line.text, Line.defines?, Line.value, Line.keyword, Line.rest, valueText,
      text_operandOf, String.toList_append, List.append_assoc]
    rfl
  | jump t =>
    simp only [Line.text, Line.defines?, Line.value, Line.keyword, Line.rest, labelText,
      String.toList_append, List.append_assoc]
    rfl
  | branch c t e =>
    simp only [Line.text, Line.defines?, Line.value, Line.keyword, Line.rest, labelText,
      text_operandOf, String.toList_append, List.append_assoc]
    rfl
  | ret value =>
    cases value with
    | none =>
      simp only [Line.text, Line.defines?, Line.value, Line.keyword, Line.rest, Option.map_none,
        String.toList_append, List.append_assoc]
      rfl
    | some y =>
      simp only [Line.text, Line.defines?, Line.value, Line.keyword, Line.rest, Option.map_some,
        text_operandOf, String.toList_append, List.append_assoc]
      rfl

theorem text_sectionOf (h : f.Printable) (hb : b.index < f.blocks.size) :
    (f.sectionOf b).text b.index (f.listing.preds (f.block b).label) = f.blockText b := by
  have hlines : (f.sectionOf b).lines.map lineText =
      (f.block b).instrs.map fun x => "  " ++ f.instrText x ++ "\n" := by
    rw [sectionOf, List.map_map]
    exact List.map_congr_left fun x hx => by
      rw [Function.comp, lineText, text_lineOf (h.listed b x hx)]
  have hpreds : ((f.block b).preds.map BlockId.index).map toString =
      (f.block b).preds.map fun p => toString p.index := by
    rw [List.map_map]
    rfl
  apply String.toList_inj.mp
  rw [← h.preds b hb, Section.text, hlines, blockText, headText, commentText, hpreds]
  simp only [sectionOf, String.toList_append, List.append_assoc]
  rfl

theorem zipIdx_blockIds (f : Func) : f.blockIds.zipIdx = f.blockIds.map fun b => (b, b.index) := by
  apply List.ext_getElem
  · simp
  · intro i hi hi'
    simp [blockIds]

/-- The text of a function is the text of its listing. -/
theorem text_listing (h : f.Printable) : f.listing.text = f.text := by
  have hparams : (f.params.map f.nameOf).map (fun p => "i32 %" ++ p) =
      f.params.map fun p => "i32 " ++ f.operandText p := by
    rw [List.map_map]
    refine List.map_congr_left fun p hp => ?_
    apply String.toList_inj.mp
    simp only [operandText, h.params p hp, Function.comp, String.toList_append]
    rfl
  have hsections :
      f.listing.sections.zipIdx.map (fun t => t.1.text t.2 (f.listing.preds t.1.label)) =
      f.blockIds.map f.blockText := by
    rw [listing, List.zipIdx_map, zipIdx_blockIds, List.map_map, List.map_map]
    refine List.map_congr_left fun b hb => text_sectionOf h ?_
    simp only [blockIds, List.mem_map, List.mem_range] at hb
    obtain ⟨i, hi, rfl⟩ := hb
    exact hi
  unfold Definition.text Func.text
  rw [hsections]
  simp only [listing, hparams]

end Func

end LoopBounds
