import LoopBounds.Proofs.Guarded.Hoisting
import LoopBounds.Proofs.Range.Anchored
import LoopBounds.Report.Text

/-!
# Guarded text of functions and reports

Every name and label that is written is looked up. A function that can be written has all of
them, and a report names only values that the analysis stores or that stored descriptors fetch.
-/

namespace LoopBounds

/-- The bounds that a query gives are anchored to what the function has. -/
theorem Analysis.Within.anchoredIn_of_range? {a : Analysis} {f : Func} {context x : InstrId}
    {r : ValueRange} (ha : a.Within f) (hx : x.index < f.nodes.size)
    (h : a.range? f context x = some r) : r.bounds.AnchoredIn (·.index < f.nodes.size) := by
  obtain ⟨q, hq, rfl⟩ := Option.map_eq_some_iff.mp h
  obtain ⟨m, inBody, d, -, hd, rfl⟩ := query?_eq_some hq
  exact Descriptor.anchoredIn_bounds (fun t ht => ha.fetched_of_tripCount? ht)
    (ha.fetched_of_lookup hx hd)

namespace Guarded

section Function

variable (f : Func)

def operandText (x : InstrId) : Guarded String := do
  match ← constant? f x with
  | some v => return toString v.toInt
  | none => return "%" ++ (← nameOf f x)

def labelText (b : BlockId) : Guarded String := do return "%" ++ (← block f b).label

def sourceText (source : InstrId × BlockId) : Guarded String := do
  return "[" ++ (← operandText f source.1) ++ ", " ++ (← labelText f source.2) ++ "]"

def valueText : Instr → Guarded String
  | .constant v => return toString v.toInt
  | .param position => return "param " ++ toString position
  | .arith op x y => do
      return op.text ++ " i32 " ++ (← operandText f x) ++ ", " ++ (← operandText f y)
  | .neg x => do return "neg i32 " ++ (← operandText f x)
  | .compare op x y => do
      return "icmp " ++ op.text ++ " i32 " ++ (← operandText f x) ++ ", " ++ (← operandText f y)
  | .phi sources => do
      return "phi i32 " ++ ", ".intercalate (← sources.mapM (sourceText f))
  | _ => return ""

def instrText (x : InstrId) : Guarded String := do
  let name ← nameOf f x
  match ← instr f x with
  | .jump t => return "br label " ++ (← labelText f t)
  | .branch c t e =>
      return "br i1 " ++ (← operandText f c) ++ ", label " ++ (← labelText f t) ++ ", label "
        ++ (← labelText f e)
  | .ret (some v) => return "ret i32 " ++ (← operandText f v)
  | .ret none => return "ret void"
  | i => return "%" ++ name ++ " = " ++ (← valueText f i)

def headText (b : BlockId) : Guarded String := do
  let block ← block f b
  let preds := ", ".intercalate (block.preds.map fun p => toString p.index)
  return block.label ++ ":    ; " ++ b.text ++ " prev: [" ++ preds ++ "]"

def blockText (b : BlockId) : Guarded String := do
  let lines ← (← block f b).instrs.mapM fun x => do return "  " ++ (← instrText f x) ++ "\n"
  return (← headText f b) ++ "\n" ++ String.join lines

def text : Guarded String := do
  let params ← f.params.mapM fun p => do return "i32 " ++ (← operandText f p)
  let blocks ← f.blockIds.mapM (blockText f)
  return "define " ++ f.returns.text ++ " @" ++ f.name ++ "(" ++ ", ".intercalate params
    ++ ") \x7b\n" ++ String.join blocks ++ "\x7d"

variable {f} {x : InstrId} {b : BlockId} {i : Instr}

theorem operandText_eq (hx : x.index < f.nodes.size) :
    operandText f x = pure (f.operandText x) := by
  simp only [operandText, constant?_eq hx, nameOf_eq hx, pure_bind, Func.operandText]
  cases f.constant? x <;> rfl

theorem labelText_eq (hb : b.index < f.blocks.size) : labelText f b = pure (f.labelText b) := by
  simp only [labelText, block_eq hb, pure_bind, Func.labelText]

/-- The operands and the blocks that an instruction names are there. -/
structure Named (f : Func) (i : Instr) : Prop where
  operand : ∀ y ∈ i.operands, y.index < f.nodes.size
  target : ∀ b ∈ i.targets, b.index < f.blocks.size
  source : ∀ sources, i = .phi sources → ∀ s ∈ sources, s.2.index < f.blocks.size

theorem valueText_eq (hi : Named f i) : valueText f i = pure (f.valueText i) := by
  have hoperand := hi.operand
  cases i with
  | arith op x y | compare op x y =>
    have hx := hoperand x (by simp [Instr.operands])
    have hy := hoperand y (by simp [Instr.operands])
    simp only [valueText, operandText_eq hx, operandText_eq hy, pure_bind, Func.valueText]
  | neg x =>
    have hx := hoperand x (by simp [Instr.operands])
    simp only [valueText, operandText_eq hx, pure_bind, Func.valueText]
  | phi sources =>
    have hsources : sources.mapM (sourceText f) = pure (sources.map f.sourceText) := by
      refine mapM_eq fun s hs => ?_
      have hs' := hoperand s.1 (List.mem_map_of_mem hs)
      simp only [sourceText, operandText_eq hs', labelText_eq (hi.source sources rfl s hs),
        pure_bind, Func.sourceText]
    simp only [valueText, hsources, pure_bind, Func.valueText]
  | _ => rfl

theorem instrText_eq (hx : x.index < f.nodes.size) (hi : Named f (f.instr x)) :
    instrText f x = pure (f.instrText x) := by
  have hoperand := hi.operand
  have htarget := hi.target
  simp only [instrText, nameOf_eq hx, instr_eq hx, pure_bind, Func.instrText]
  cases h : f.instr x with
  | jump t =>
    rw [h] at htarget
    have ht := htarget t (by simp [Instr.targets])
    simp only [labelText_eq ht, pure_bind]
  | branch c t e =>
    rw [h] at hoperand htarget
    have hc := hoperand c (by simp [Instr.operands])
    have ht := htarget t (by simp [Instr.targets])
    have he := htarget e (by simp [Instr.targets])
    simp only [operandText_eq hc, labelText_eq ht, labelText_eq he, pure_bind]
  | ret value =>
    cases value with
    | none => rfl
    | some v =>
      rw [h] at hoperand
      have hv := hoperand v (by simp [Instr.operands])
      simp only [operandText_eq hv, pure_bind]
  | _ => simp only [valueText_eq (h ▸ hi), pure_bind]

section Writable

variable (hw : f.Writable)

include hw

theorem named_of_mem_instrs (hx : x ∈ (f.block b).instrs) : Named f (f.instr x) where
  operand y hy := Func.index_lt_of_named hw (hw.closed b x hx y hy)
  target := hw.targets b x hx
  source sources hi s hs := by
    have hphi : (f.instr x).isPhi = true := by
      rw [hi]
      rfl
    exact hw.source_lt ((hw.arranged b (Func.index_lt_of_mem_instrs hx)).mem_phis hx hphi) hi hs

theorem blockText_eq (hb : b.index < f.blocks.size) : blockText f b = pure (f.blockText b) := by
  have hlines : (f.block b).instrs.mapM (fun x => do return "  " ++ (← instrText f x) ++ "\n") =
      (pure ((f.block b).instrs.map fun x => "  " ++ f.instrText x ++ "\n") : Guarded _) := by
    refine mapM_eq fun x hx => ?_
    simp only [instrText_eq (hw.filled b x hx) (named_of_mem_instrs hw hx), pure_bind]
  simp only [blockText, block_eq hb, hlines, headText, pure_bind, Func.blockText, Func.headText]

theorem text_eq : text f = pure f.text := by
  have hparams : f.params.mapM (fun p => do return "i32 " ++ (← operandText f p)) =
      (pure (f.params.map fun p => "i32 " ++ f.operandText p) : Guarded _) := by
    refine mapM_eq fun p hp => ?_
    have hp := Func.index_lt_of_mem_valueIds hw (Func.mem_valueIds.mpr (.inl hp))
    simp only [operandText_eq hp, pure_bind]
  have hblocks : f.blockIds.mapM (blockText f) = pure (f.blockIds.map f.blockText) :=
    mapM_eq fun b hb => blockText_eq hw (Func.mem_blockIds.mp hb)
  unfold Func.text
  simp only [text, hparams, hblocks, pure_bind]

end Writable

end Function

section Descriptor

variable (name : InstrId → Guarded String)

def descriptorText : Descriptor → Guarded String
  | .constant v => return toString v.toInt
  | .fetch x => name x
  | .unary op b => do return "(" ++ op.text ++ " " ++ (← descriptorText b) ++ ")"
  | .binary op a b => do
      return "(" ++ (← descriptorText a) ++ " " ++ op.text ++ " " ++ (← descriptorText b) ++ ")"
  | .linear a b => do
      return "(" ++ (← descriptorText a) ++ " * i + " ++ (← descriptorText b) ++ ")"
  | .periodic a b => do
      return "periodic(" ++ (← descriptorText a) ++ ", " ++ (← descriptorText b) ++ ")"
  | .wrapAround a b => do
      return "wrap(" ++ (← descriptorText a) ++ ", " ++ (← descriptorText b) ++ ")"
  | .tripCount kind count | .guardedCount kind count _ => do
      return kind.text ++ ":" ++ (← descriptorText count)

def affineText (v : Affine) : Guarded String := do
  if v.known then
    match v.anchor with
    | none => return toString v.offset.toInt
    | some x =>
        return toString v.scale.toInt ++ " * " ++ (← name x) ++ " + " ++ toString v.offset.toInt
  else return "?"

variable {name} {name' : InstrId → String}

theorem descriptorText_eq {d : Descriptor} (hd : d.FetchesOnly fun x => name x = pure (name' x)) :
    descriptorText name d = pure (d.textWith name') := by
  induction d with
  | constant v => rfl
  | fetch x => exact Descriptor.fetchesOnly_fetch.mp hd
  | unary op b ih =>
    simp only [descriptorText, ih (Descriptor.fetchesOnly_unary.mp hd), pure_bind,
      Descriptor.textWith]
  | binary op a b iha ihb =>
    obtain ⟨ha, hb⟩ := Descriptor.fetchesOnly_binary.mp hd
    simp only [descriptorText, iha ha, ihb hb, pure_bind, Descriptor.textWith]
  | linear a b iha ihb | periodic a b iha ihb | wrapAround a b iha ihb =>
    obtain ⟨ha, hb⟩ := Descriptor.fetchesOnly_linear.mp hd
    simp only [descriptorText, iha ha, ihb hb, pure_bind, Descriptor.textWith]
  | tripCount kind count ih => simp only [descriptorText, ih hd, pure_bind, Descriptor.textWith]
  | guardedCount kind count taken ih _ =>
    simp only [descriptorText, ih (Descriptor.fetchesOnly_guardedCount.mp hd).1, pure_bind,
      Descriptor.textWith]

theorem affineText_eq {v : Affine} (hv : v.AnchoredIn fun x => name x = pure (name' x)) :
    affineText name v = pure (v.textWith name') := by
  unfold affineText Affine.textWith
  split_ifs
  · cases h : v.anchor with
    | none => rfl
    | some x =>
      have hx : name x = pure (name' x) := hv x h
      simp only [hx, pure_bind]
  · rfl

end Descriptor

section Report

open Report (layoutWidth lines functionLine)

/-- Only as many spaces as the line has are taken off its front. -/
def reindentLine (width : Nat) (line : List Char) : Guarded (List Char) := do
  let indent := (line.takeWhile (· = ' ')).length
  check .noElement (indent ≤ line.length)
  return List.replicate (indent / layoutWidth * width) ' ' ++ line.drop indent

def reindent (text : String) (width : Nat) : Guarded String := do
  let result ← (lines text.toList).mapM fun line => do
    return (← reindentLine width line) ++ ['\n']
  return String.ofList result.flatten

variable (f : Func) (a : Analysis)

/-- How a value is named in a report. -/
def markedName (x : InstrId) : Guarded String := do return "%" ++ (← nameOf f x)

def loopLine (l : LoopId) : Guarded String := do
  return "    " ++ l.text ++ " (header " ++ (← labelText f (← loop a.forest l).header) ++ ", level "
    ++ toString (← level a.forest l) ++ ")\n"

def tripText (l : LoopId) : Guarded String := do
  match ← (storedTrip a f l).run with
  | some d => descriptorText (operandText f) d
  | none => return "unknown"

def tripLine (l : LoopId) : Guarded String := do
  return "        trip count: " ++ (← tripText f a l) ++ "\n"

def descriptorLine (row : InstrId × Descriptor) : Guarded String := do
  return "        " ++ (← markedName f row.1) ++ " = " ++ (← descriptorText (operandText f) row.2)
    ++ "\n"

def inductionLoop (l : LoopId) : Guarded String := do
  let rows ← (← loopValues a f l).mapM (descriptorLine f)
  return (← loopLine f a l) ++ (← tripLine f a l) ++ String.join rows

def placeContext? (l : LoopId) : Place → Attempt InstrId
  | .header => do OptionT.mk (terminator? f (← loop a.forest l).header)
  | .body => bodyContext? a f l

/-- The range of `x` at one place of a loop. -/
def rangeRow? (l : LoopId) (x : InstrId) (place : Place) : Attempt (Place × ValueRange) := do
  let context ← placeContext? f a l place
  return (place, ← range? a f context x)

def rangeLine (row : Place × ValueRange) : Guarded String := do
  let bounds := row.2.bounds
  return "            " ++ row.1.text ++ ": [" ++ (← affineText (markedName f) bounds.lower) ++ ", "
    ++ (← affineText (markedName f) bounds.upper) ++ "]"
    ++ (if row.2.needsFiniteTest then " (needs finite test)" else "") ++ "\n"

def rangeValue (l : LoopId) (x : InstrId) : Guarded String := do
  let rows ← [Place.header, Place.body].filterMapM fun place => (rangeRow? f a l x place).run
  return "        " ++ (← markedName f x) ++ "\n" ++ String.join (← rows.mapM (rangeLine f))

def rangeLoop (l : LoopId) : Guarded String := do
  let values ← (← loopValues a f l).mapM fun row => rangeValue f a l row.1
  return (← loopLine f a l) ++ String.join values

def overLoops (part : LoopId → Guarded String) : Guarded String := do
  let parts ← (← outerToInner a.forest).mapM part
  reindent (functionLine f ++ String.join parts) Report.width

def induction : Guarded String := overLoops f a (inductionLoop f a)

def ranges : Guarded String := overLoops f a (rangeLoop f a)

section Indent

theorem reindentLine_eq (width : ℕ) (line : List Char) :
    reindentLine width line = pure (Report.reindentLine width line) := by
  have hle : (line.takeWhile (· = ' ')).length ≤ line.length :=
    (List.takeWhile_sublist _).length_le
  have hdrop : line.drop (line.takeWhile (· = ' ')).length = line.dropWhile (· = ' ') := by
    have hleft : (line.takeWhile (· = ' ') ++ line.dropWhile (· = ' ')).drop
        (line.takeWhile (· = ' ')).length = line.dropWhile (· = ' ') := List.drop_left
    rwa [List.takeWhile_append_dropWhile] at hleft
  simp only [reindentLine, check_eq hle, hdrop, pure_bind]
  rfl

theorem reindent_eq (text : String) (width : ℕ) :
    reindent text width = pure (Report.reindent text width) := by
  have hlines : (lines text.toList).mapM (fun line => do
      return (← reindentLine width line) ++ ['\n']) =
      (pure ((lines text.toList).map fun line => Report.reindentLine width line ++ ['\n']) :
        Guarded _) :=
    mapM_eq fun line _ => by simp only [reindentLine_eq, pure_bind]
  simp only [reindent, hlines, pure_bind]
  rfl

end Indent

variable {f a} {x : InstrId} {l : LoopId} {d : Descriptor} {r : ValueRange} {place : Place}

theorem markedName_eq (hx : x.index < f.nodes.size) :
    markedName f x = pure (Report.valueText f x) := by
  simp only [markedName, nameOf_eq hx, pure_bind, Report.valueText]

theorem descriptorLine_eq (hx : x.index < f.nodes.size)
    (hd : d.FetchesOnly (·.index < f.nodes.size)) :
    descriptorLine f (x, d) = pure (Report.descriptorLine f (x, d)) := by
  have htext : descriptorText (operandText f) d = pure (d.textWith f.operandText) :=
    descriptorText_eq fun y hy => operandText_eq (hd y hy)
  simp only [descriptorLine, markedName_eq hx, htext, pure_bind, Report.descriptorLine]

theorem rangeLine_eq (hr : r.bounds.AnchoredIn (·.index < f.nodes.size)) :
    rangeLine f (place, r) = pure (Report.rangeLine f (place, r)) := by
  have htext {v : Affine} (hv : v.AnchoredIn (·.index < f.nodes.size)) :
      affineText (markedName f) v = pure (v.textWith (Report.valueText f)) :=
    affineText_eq fun y hy => markedName_eq (hv y hy)
  unfold rangeLine Report.rangeLine
  dsimp only
  rw [htext hr.lower, htext hr.upper, pure_bind, pure_bind]

section Within

variable (ha : a.Within f) (hl : l ∈ a.forest.ids)

include ha hl

theorem loopLine_eq : loopLine f a l = pure (Report.loopLine f a l) := by
  unfold loopLine Report.loopLine
  rw [loop_eq hl, pure_bind, labelText_eq (ha.header l hl), pure_bind, level_eq hl, pure_bind]

theorem tripLine_eq : tripLine f a l = pure (Report.tripLine f a l) := by
  unfold tripLine tripText Report.tripLine
  rw [storedTrip_eq ha hl, run_given, pure_bind]
  cases h : a.tripCount? f l with
  | none => rfl
  | some d =>
    have htext : descriptorText (operandText f) d = pure (d.textWith f.operandText) :=
      descriptorText_eq fun y hy => operandText_eq (ha.fetched_of_tripCount? h y hy)
    dsimp only
    rw [htext, pure_bind]

theorem inductionLoop_eq : inductionLoop f a l = pure (Report.inductionLoop f a l) := by
  have hrows : (a.loopValues f l).mapM (descriptorLine f) =
      pure ((a.loopValues f l).map (Report.descriptorLine f)) := by
    refine mapM_eq fun row hrow => ?_
    obtain ⟨hx, hstored, -⟩ := Analysis.mem_loopValues.mp hrow
    exact descriptorLine_eq hx (ha.fetched l row.1 row.2 hstored)
  simp only [inductionLoop, loopValues_eq ha, hrows, loopLine_eq ha hl, tripLine_eq ha hl,
    pure_bind, Report.inductionLoop]

theorem placeContext?_eq (place : Place) :
    placeContext? f a l place = given (a.placeContext? f l place) := by
  cases place with
  | header =>
    simp only [placeContext?, loop_eq hl, terminator?_eq (ha.header l hl), liftM_pure_attempt,
      pure_bind]
    rfl
  | body => exact bodyContext?_eq ha hl

omit hl in
theorem index_lt_of_placeContext? {context : InstrId}
    (h : a.placeContext? f l place = some context) :
    context.index < f.nodes.size := by
  cases place with
  | header => exact ha.index_lt_of_terminator? h
  | body =>
    obtain ⟨b, -, -, hterm⟩ := Analysis.bodyContext?_eq_some h
    exact ha.index_lt_of_terminator? hterm

theorem rangeValue_eq (hx : x.index < f.nodes.size) :
    rangeValue f a l x = pure (Report.rangeValue f a l x) := by
  have hrow (place : Place) : rangeRow? f a l x place = given (do
      let context ← a.placeContext? f l place
      return (place, ← a.range? f context x)) := by
    simp only [rangeRow?, placeContext?_eq ha hl]
    refine given_bind_of fun context hcontext => ?_
    simp only [range?_eq ha (index_lt_of_placeContext? ha hcontext) hx]
    exact given_bind_of fun r _ => rfl
  have hrows : [Place.header, Place.body].filterMapM (fun place => (rangeRow? f a l x place).run) =
      pure (a.rangeRows f l x) :=
    filterMapM_eq fun place _ => by rw [hrow place, run_given]
  have hlines : (a.rangeRows f l x).mapM (rangeLine f) =
      pure ((a.rangeRows f l x).map (Report.rangeLine f)) := by
    refine mapM_eq fun row hmem => ?_
    obtain ⟨place, -, h⟩ := List.mem_filterMap.mp hmem
    obtain ⟨context, hcontext, h⟩ := Option.bind_eq_some_iff.mp h
    obtain ⟨r, hr, h⟩ := Option.bind_eq_some_iff.mp h
    obtain rfl := Option.some.inj h
    exact rangeLine_eq (ha.anchoredIn_of_range? hx hr)
  simp only [rangeValue, hrows, hlines, markedName_eq hx, pure_bind, Report.rangeValue]

theorem rangeLoop_eq : rangeLoop f a l = pure (Report.rangeLoop f a l) := by
  have hvalues : (a.loopValues f l).mapM (fun row => rangeValue f a l row.1) =
      pure ((a.loopValues f l).map fun row => Report.rangeValue f a l row.1) :=
    mapM_eq fun row hrow => rangeValue_eq ha hl (Analysis.mem_loopValues.mp hrow).1
  simp only [rangeLoop, loopValues_eq ha, hvalues, loopLine_eq ha hl, pure_bind,
    Report.rangeLoop]

end Within

theorem overLoops_eq (ha : a.Within f) {part : LoopId → Guarded String} {part' : LoopId → String}
    (hpart : ∀ l ∈ a.forest.ids, part l = pure (part' l)) :
    overLoops f a part = pure (Report.overLoops f a part') := by
  have hparts : a.forest.outerToInner.mapM part = pure (a.forest.outerToInner.map part') :=
    mapM_eq fun l hl => hpart l (ha.finished.mem_outerToInner.mp hl)
  simp only [overLoops, outerToInner_eq ha.finished, hparts, pure_bind, reindent_eq,
    Report.overLoops]

theorem induction_eq (ha : a.Within f) : induction f a = pure (Report.induction f a) :=
  overLoops_eq ha fun _ hl => inductionLoop_eq ha hl

theorem ranges_eq (ha : a.Within f) : ranges f a = pure (Report.ranges f a) :=
  overLoops_eq ha fun _ hl => rangeLoop_eq ha hl

end Report

end Guarded

end LoopBounds
