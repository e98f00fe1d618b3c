import LoopBounds.Proofs.Listing.Resolved

/-!
# What is wrong with a listing

The faults of a definition are read off the listing, kind by kind and in the order written:
repeated parameters, repeated labels, literals that are no words, repeated names, uses of
names and labels that are not there, phis that do not fit the predecessors. Resolving fails
with the first of them, and succeeds if there are none.
-/

namespace LoopBounds.Listing

section Detects

variable {ε α β σ : Type} {x : Except ε α} {k : α → Except ε β} {es es' : List ε}

/-- The computation fails with the first of the faults, and has a result if there are none. -/
def Detects (x : Except ε α) : List ε → Prop
  | [] => ∃ a, x = .ok a
  | e :: _ => x = .error e

theorem detects_ok (a : α) : Detects (.ok a : Except ε α) [] := ⟨a, rfl⟩

theorem Detects.bind (hx : Detects x es) (hk : ∀ a, x = .ok a → Detects (k a) es') :
    Detects (x >>= k) (es ++ es') := by
  cases es with
  | nil =>
    obtain ⟨a, rfl⟩ := hx
    exact hk a rfl
  | cons e es =>
    obtain rfl : x = .error e := hx
    rfl

theorem Detects.map (hx : Detects x es) (f : α → β) :
    Detects (x >>= fun a => pure (f a)) es := by
  rw [← List.append_nil es]
  exact hx.bind fun a _ => detects_ok (f a)

theorem detects_mapM {r : α → Except ε β} {faults : α → List ε} {as : List α}
    (h : ∀ a ∈ as, Detects (r a) (faults a)) : Detects (as.mapM r) (as.flatMap faults) := by
  induction as with
  | nil => exact detects_ok []
  | cons a as ih =>
    rw [List.mapM_cons, List.flatMap_cons]
    exact (h a List.mem_cons_self).bind fun b _ =>
      (ih fun a ha => h a (List.mem_cons_of_mem _ ha)).map (b :: ·)

/-- Steps that keep `P` detect their faults one after the other. -/
theorem detects_foldlM {P : σ → Prop} {step : σ → α → Except ε σ} {faults : α → List ε}
    {as : List α} {s : σ} (hs : P s) (hP : ∀ s, P s → ∀ a, ∀ s', step s a = .ok s' → P s')
    (h : ∀ s, P s → ∀ a ∈ as, Detects (step s a) (faults a)) :
    Detects (as.foldlM step s) (as.flatMap faults) := by
  induction as generalizing s with
  | nil => exact detects_ok s
  | cons a as ih =>
    rw [List.foldlM_cons, List.flatMap_cons]
    exact (h s hs a List.mem_cons_self).bind fun s' hs' =>
      ih (hP s hs a s' hs') fun s hs a ha => h s hs a (List.mem_cons_of_mem _ ha)

theorem Detects.exists_ok_iff (h : Detects x es) : (∃ a, x = .ok a) ↔ es = [] := by
  cases es with
  | nil => exact iff_of_true h rfl
  | cons e es =>
    obtain rfl : x = .error e := h
    simp

theorem Detects.eq_error_iff {e : ε} (h : Detects x es) : x = .error e ↔ es.head? = some e := by
  cases es with
  | nil =>
    obtain ⟨a, rfl⟩ := h
    simp
  | cons e' es =>
    obtain rfl : x = .error e' := h
    simp

end Detects

/-- The names that already stand before, in order. -/
def repeated (names : List String) : List String :=
  names.zipIdx.filterMap fun t => if t.1 ∈ names.take t.2 then some t.1 else none

theorem firstRepeated?_eq (seen before rest : List String) (h : ∀ n, n ∈ seen ↔ n ∈ before) :
    firstRepeated? seen rest = ((rest.zipIdx before.length).filterMap fun t =>
      if t.1 ∈ (before ++ rest).take t.2 then some t.1 else none).head? := by
  induction rest generalizing seen before with
  | nil => rfl
  | cons n rest ih =>
    have htake : (before ++ n :: rest).take before.length = before := by simp
    rw [firstRepeated?, List.zipIdx_cons, List.filterMap_cons, htake]
    simp only [h n]
    split_ifs with hn
    · rfl
    · have hstep := ih (n :: seen) (before ++ [n]) fun m => by
        simp [h m, or_comm]
      simpa using hstep

theorem head?_repeated (names : List String) : (repeated names).head? = firstRepeated? [] names :=
  (firstRepeated?_eq [] [] names fun _ => Iff.rfl).symm

theorem repeated_eq_nil_iff {names : List String} : repeated names = [] ↔ names.Nodup := by
  rw [← List.head?_eq_none_iff, head?_repeated, firstRepeated?_eq_none_iff]
  simp

/-- What a line mentions: a value or a label. -/
inductive Mention where
  | operand (o : Operand)
  | label (name : String)

/-- The values and labels that a line mentions, from left to right. -/
def Line.mentions : Line → List Mention
  | .phi _ sources => sources.flatMap fun s => [.operand s.1, .label s.2]
  | .arith _ _ x y | .compare _ _ x y => [.operand x, .operand y]
  | .neg _ x => [.operand x]
  | .jump t => [.label t]
  | .branch c t e => [.operand c, .label t, .label e]
  | .ret value => value.toList.map .operand

namespace Definition

variable (d : Definition)

/-- The names that a definition gives to values. -/
def valueNames : List String := d.params ++ d.lines.filterMap Line.defines?

def literalFaults (s : String) : List Error :=
  if literalValue s < -2 ^ 31 ∨ 2 ^ 31 ≤ literalValue s then [.literalOutOfRange s] else []

def mentionFaults : Mention → List Error
  | .operand (.value n) => if n ∈ d.valueNames then [] else [.undefinedValue n]
  | .operand (.literal _) => []
  | .label t => if t ∈ d.labels then [] else [.undefinedLabel t]

/-- The sources of a phi in block `label` fit its predecessors. -/
def Fits (label : String) (sources : List (Operand × String)) : Prop :=
  sources.length = (d.preds label).length ∧
    ∀ s ∈ sources, ∃ i ∈ d.preds label, d.labels[i]? = some s.2

instance (label : String) (sources : List (Operand × String)) : Decidable (d.Fits label sources) :=
  inferInstanceAs (Decidable (_ ∧ _))

def phiFaults (label : String) : Line → List Fault
  | .phi n sources => if d.Fits label sources then [] else [.phiMismatch n label]
  | _ => []

/-- The phis that do not fit, block by block. -/
def mismatches : List Fault := d.sections.flatMap fun s => s.lines.flatMap (d.phiFaults s.label)

/-- All faults of a definition, in the order in which they are looked for. -/
def faults : List Error :=
  (repeated d.params).map (fun n => .malformed d.name (.valueDefinedTwice n))
    ++ (repeated d.labels).map (fun t => .malformed d.name (.labelDefinedTwice t))
    ++ (d.lines.flatMap Line.literals).flatMap literalFaults
    ++ (repeated d.valueNames).map (fun n => .malformed d.name (.valueDefinedTwice n))
    ++ d.lines.flatMap (fun l => l.mentions.flatMap d.mentionFaults)
    ++ d.mismatches.map (.malformed d.name)

variable {d} {f g f₀ : Func} {l : Line} {n t s : String} {o : Operand} {names : Names}
  {start : ℕ} {vs : List Int32}

theorem detects_distinct (all : List String) (fault : String → Fault) :
    Detects (d.distinct all fault) ((repeated all).map fun n => .malformed d.name (fault n)) := by
  have h := head?_repeated all
  rw [distinct, ← h]
  cases repeated all with
  | nil => exact detects_ok ()
  | cons n rest => rfl

section Literals

theorem detects_readLiteral (s : String) : Detects (readLiteral s) (literalFaults s) := by
  have hrange : Word.narrow? (literalValue s) = none ↔
      literalValue s < -2 ^ 31 ∨ 2 ^ 31 ≤ literalValue s := by
    rw [Word.narrow?_eq_none_iff, Int32.toInt_minValue, Int32.toInt_maxValue]
    omega
  rw [readLiteral, literalFaults]
  cases h : Word.narrow? (literalValue s) with
  | none => rw [if_pos (hrange.mp h)]; rfl
  | some v =>
    rw [if_neg fun hout => by simp [hrange.mpr hout] at h]
    exact detects_ok v

theorem detects_collectConstants (f : Func) (literals : List String) :
    Detects (collectConstants f literals) (literals.flatMap literalFaults) :=
  detects_foldlM (P := fun _ => True) trivial (fun _ _ _ _ _ => trivial) fun f _ s _ =>
    (detects_readLiteral s).map fun v => (f.addConstant v).2

end Literals

section Mentions

/-- The literals of the line denote constants that `f` has. -/
def Collected (f : Func) (l : Line) : Prop :=
  ∀ s, .literal s ∈ l.operands → ∃ v x, readLiteral s = .ok v ∧ f.findConstant? v = some x

theorem detects_value (d : Definition) (start : ℕ) (f : Func) (n : String) :
    Detects ((d.names start).operand f (.value n)) (d.mentionFaults (.operand (.value n))) := by
  have hkeys : n ∈ d.valueNames ↔ ∃ x, (n, x) ∈ (d.names start).values := by
    rw [valueNames, ← keys_values d start]
    simp
  rw [Names.operand, mentionFaults]
  cases h : (d.names start).values.lookup n with
  | none =>
    rw [if_neg]
    · rfl
    · rw [hkeys]
      rintro ⟨x, hx⟩
      simpa using List.lookup_eq_none_iff.mp h _ hx
  | some x =>
    obtain ⟨u, w, heq, -⟩ := List.lookup_eq_some_iff.mp h
    rw [if_pos (hkeys.mpr ⟨x, heq ▸ List.mem_append_right _ List.mem_cons_self⟩)]
    exact detects_ok x

theorem detects_label (d : Definition) (start : ℕ) (t : String) :
    Detects ((d.names start).label t) (d.mentionFaults (.label t)) := by
  have hkeys : t ∈ d.labels ↔ ∃ b, (t, b) ∈ (d.names start).labels := by
    rw [← keys_labels d start]
    simp
  rw [Names.label, mentionFaults]
  cases h : (d.names start).labels.lookup t with
  | none =>
    rw [if_neg]
    · rfl
    · rw [hkeys]
      rintro ⟨b, hb⟩
      simpa using List.lookup_eq_none_iff.mp h _ hb
  | some b =>
    obtain ⟨u, w, heq, -⟩ := List.lookup_eq_some_iff.mp h
    rw [if_pos (hkeys.mpr ⟨b, heq ▸ List.mem_append_right _ List.mem_cons_self⟩)]
    exact detects_ok b

theorem detects_operand (d : Definition) (start : ℕ) (hl : Collected f l) (ho : o ∈ l.operands) :
    Detects ((d.names start).operand f o) (d.mentionFaults (.operand o)) := by
  cases o with
  | value n => exact detects_value d start f n
  | literal s =>
    obtain ⟨v, x, hv, hx⟩ := hl s ho
    exact ⟨x, Names.operand_literal_eq_ok_iff.mpr ⟨v, hv, hx⟩⟩

theorem detects_instr (hl : Collected f l) :
    Detects ((d.names start).instr f l) (l.mentions.flatMap d.mentionFaults) := by
  have hop {o : Operand} (ho : o ∈ l.operands) := detects_operand d start hl ho
  have hlabel := detects_label d start
  cases l with
  | phi n sources =>
    rw [Line.mentions, List.flatMap_assoc]
    refine (detects_mapM fun s hs => ?_).map Instr.phi
    rw [List.flatMap_cons, List.flatMap_singleton]
    exact (hop (List.mem_map_of_mem hs)).bind fun x _ => (hlabel s.2).map (Prod.mk x)
  | arith n op x y =>
    rw [Line.mentions, List.flatMap_cons, List.flatMap_singleton]
    exact (hop (by simp [Line.operands])).bind fun x' _ =>
      (hop (by simp [Line.operands])).map (Instr.arith op x')
  | neg n x =>
    rw [Line.mentions, List.flatMap_singleton]
    exact (hop (by simp [Line.operands])).map Instr.neg
  | compare n op x y =>
    rw [Line.mentions, List.flatMap_cons, List.flatMap_singleton]
    exact (hop (by simp [Line.operands])).bind fun x' _ =>
      (hop (by simp [Line.operands])).map (Instr.compare op x')
  | jump t =>
    rw [Line.mentions, List.flatMap_singleton]
    exact (hlabel t).map Instr.jump
  | branch c t e =>
    rw [Line.mentions, List.flatMap_cons, List.flatMap_cons, List.flatMap_singleton]
    exact (hop (by simp [Line.operands])).bind fun c' _ => (hlabel t).bind fun t' _ =>
      (hlabel e).map (Instr.branch c' t')
  | ret value =>
    cases value with
    | none => exact detects_ok _
    | some x =>
      rw [Line.mentions, Option.toList_some, List.map_singleton, List.flatMap_singleton]
      exact (hop (by simp [Line.operands])).map fun x' => Instr.ret (some x')

theorem detects_addLines {lines : List Line} {b : BlockId} (hl : ∀ l ∈ lines, Collected f₀ l)
    (hsame : SameConstants f f₀) : Detects (addLines (d.names start) b f lines)
      (lines.flatMap fun l => l.mentions.flatMap d.mentionFaults) := by
  refine detects_foldlM (P := (SameConstants · f₀)) hsame (fun f hf l g hg => ?_)
    fun f hf l hmem => ?_
  · obtain ⟨i, hi, hg⟩ := bind_eq_ok_iff.mp hg
    obtain rfl := pure_eq_ok_iff.mp hg
    exact (sameConstants_append f b _ i).trans hf
  · rw [instr_congr hf]
    exact (detects_instr (hl l hmem)).map fun i => f.append b l.defines? i

theorem detects_addSections {sections : List (Section × ℕ)}
    (hl : ∀ t ∈ sections, ∀ l ∈ t.1.lines, Collected f₀ l) (hsame : SameConstants f f₀) :
    Detects (sections.foldlM (fun f t => addLines (d.names start) ⟨t.2⟩ f t.1.lines) f)
      (sections.flatMap fun t =>
        t.1.lines.flatMap fun l => l.mentions.flatMap d.mentionFaults) := by
  refine detects_foldlM (P := (SameConstants · f₀)) hsame (fun f hf t g hg => ?_)
    fun f hf t ht => detects_addLines (hl t ht) hf
  obtain ⟨hmeans, rfl⟩ := (addLines_eq_ok_iff hf).mp hg
  exact (sameConstants_addMeanings hmeans f).trans hf

theorem collected_ground (hl : l ∈ d.lines) (hvs : List.Forall₂
    (fun s v => readLiteral s = .ok v) (d.lines.flatMap Line.literals) vs) :
    Collected (d.ground vs) l := by
  intro s hs
  have hmem : s ∈ d.lines.flatMap Line.literals :=
    List.mem_flatMap.mpr ⟨l, hl, List.mem_filterMap.mpr ⟨_, hs, rfl⟩⟩
  obtain ⟨v, hv, hread⟩ := exists_left_of_forall₂
    (R := flip fun s v => readLiteral s = .ok v) hvs.flip hmem
  obtain ⟨x, hx⟩ := d.skeleton.exists_instr_addConstants hv
  exact ⟨v, x, hread, (built_ground d vs).constantsPooled v x hx⟩

end Mentions

section Structure

theorem findSome?_of_forall₂ {α β γ : Type} {p : α → Option γ} {q : β → Option γ} {as : List α}
    {bs : List β} (h : List.Forall₂ (fun a b => p a = q b) as bs) :
    as.findSome? p = bs.findSome? q := by
  induction h with
  | nil => rfl
  | cons hab _ ih => rw [List.findSome?_cons, List.findSome?_cons, hab, ih]

variable (h : d.Assembles vs f) (hd : d.WellFormed)

include h hd

theorem Assembles.fits_iff {b : BlockId} (hb : d.labels[b.index]? = some t)
    {sources : List (Operand × String)} {sources' : List (InstrId × BlockId)}
    (hsources : List.Forall₂ (fun s s' => (d.table vs).label s.2 = .ok s'.2) sources sources') :
    (∀ s ∈ sources', s.2 ∈ (f.block b).preds) ∧ sources'.length = (f.block b).preds.length ↔
      d.Fits t sources := by
  have hpreds : (f.block b).preds.map BlockId.index = d.preds t := by
    have hlt : b.index < f.blocks.size := by
      rw [h.size_blocks hd, ← List.length_map (f := Section.label)]
      exact (List.getElem?_eq_some_iff.mp hb).1
    rw [(h.printable hd).preds b hlt, h.listing_eq hd, preds_normalize, h.label_block hd hb]
  have hmem {c : BlockId} : c.index ∈ (f.block b).preds.map BlockId.index ↔
      c ∈ (f.block b).preds := by
    rw [List.mem_map]
    refine ⟨fun ⟨c', hc, heq⟩ => ?_, fun hc => ⟨c, hc, rfl⟩⟩
    rwa [show c = c' from (BlockId.mk.injEq _ _).mpr heq.symm]
  rw [Fits, ← hsources.length_eq, ← hpreds, List.length_map, and_comm]
  refine and_congr_right fun _ => ⟨fun hall s hs => ?_, fun hall s' hs' => ?_⟩
  · obtain ⟨s', hs', hlabel⟩ := exists_left_of_forall₂
      (R := flip fun (s : Operand × String) (s' : InstrId × BlockId) =>
        (d.table vs).label s.2 = .ok s'.2) hsources.flip hs
    exact ⟨s'.2.index, hmem.mpr (hall s' hs'), index_lt_of_label hlabel⟩
  · obtain ⟨s, hs, hlabel⟩ := exists_left_of_forall₂ hsources hs'
    obtain ⟨i, hi, hget⟩ := hall s hs
    have hindex := index_lt_of_label hlabel
    obtain rfl : s'.2.index = i := (List.getElem?_inj (List.getElem?_eq_some_iff.mp hindex).1
      h.labels).mp (hindex.trans hget.symm)
    exact hmem.mp hi

theorem Assembles.phiFault?_eq {b : BlockId} {x : InstrId} (hl : l ∈ d.lines)
    (hb : d.labels[b.index]? = some t) (hx : Stands (d.meaning vs) f x b l) :
    (if (f.instr x).isPhi then f.phiFault? (f.block b) x else none) =
      (d.phiFaults t l).head? := by
  have hmeans := h.means hl
  rw [← hx.instr] at hmeans
  rw [Func.phiFault?]
  generalize f.instr x = i at hmeans
  cases hmeans with
  | @phi n sources sources' hsources =>
    have hiff := h.fits_iff hd hb (hsources.imp fun _ _ hs => hs.2)
    simp only [Instr.isPhi, if_true, phiFaults, Bool.and_eq_true, List.all_eq_true,
      decide_eq_true_eq, beq_iff_eq, hiff, h.label_block hd hb, hx.name n rfl]
    split_ifs <;> rfl
  | _ => rfl

theorem Assembles.blockFault?_eq {b : BlockId} {s : Section} (hs : d.sections[b.index]? = some s) :
    f.blockFault? (f.block b) = (s.lines.flatMap (d.phiFaults s.label)).head? := by
  have hlt : b.index < f.blocks.size := by
    rw [h.size_blocks hd]
    exact (List.getElem?_eq_some_iff.mp hs).1
  have harr := h.arranged hd hlt
  obtain ⟨y, hy, hterm⟩ := harr.terminator
  have hphis : (f.block b).phis.findSome? (f.phiFault? (f.block b)) =
      (f.block b).instrs.findSome? fun x =>
        if (f.instr x).isPhi then f.phiFault? (f.block b) x else none := by
    have hbody : (f.block b).body.findSome? (fun x =>
        if (f.instr x).isPhi then f.phiFault? (f.block b) x else none) = none :=
      List.findSome?_eq_none_iff.mpr fun x hx => by simp [(harr.body x hx).1]
    have hlast : ¬ (f.instr y).isPhi = true := by
      cases hi : f.instr y with
      | phi => rw [hi] at hterm; cases hterm
      | _ => exact Bool.false_ne_true
    rw [Block.instrs, List.findSome?_append, List.findSome?_append, hbody, hy]
    simp only [Option.toList_some, List.findSome?_singleton, if_neg hlast, Option.or_none]
    exact findSome?_of_forall₂ (List.forall₂_same.mpr fun x hx => by rw [if_pos (harr.phi x hx)])
  have hlabel : d.labels[b.index]? = some s.label := by simp [Definition.labels, hs]
  have hlisted := (h.laid hd).listed b.index s hs
  rw [Func.blockFault?, hy, hphis, List.head?_flatMap]
  have hmem := (List.forall₂_and_left (p := (· ∈ d.lines)) _ _).mpr
    ⟨fun l hl => List.mem_flatMap.mpr ⟨s, List.mem_of_getElem? hs, hl⟩,
      List.Forall₂.flip (R := flip fun x l => Stands (d.meaning vs) f x ⟨b.index⟩ l) hlisted⟩
  exact findSome?_of_forall₂ (hmem.flip.imp fun x l hx => h.phiFault?_eq hd hx.1 hlabel hx.2)

/-- The rule for functions that is broken first is that of the first phi that does not fit. -/
theorem Assembles.fault?_eq : f.fault? = d.mismatches.head? := by
  rw [Func.fault?, mismatches, List.head?_flatMap]
  refine findSome?_of_forall₂ (List.forall₂_iff_get.mpr ⟨h.size_blocks hd, fun i hi hi' => ?_⟩)
  have hblock := h.blockFault?_eq hd (b := ⟨i⟩) (List.getElem?_eq_getElem hi')
  rwa [Func.block, Array.getElem?_eq_getElem (by simpa using hi)] at hblock

theorem detects_verify : Detects f.verify (d.mismatches.map (.malformed d.name)) := by
  have hname : f.name = d.name :=
    (h.laid hd).head.1.trans (skeletal_ground hd.nonempty vs).name
  rw [Func.verify, h.fault?_eq hd, hname]
  cases d.mismatches with
  | nil => exact detects_ok ()
  | cons e es => rfl

end Structure

/-- Resolving a definition finds the first of its faults. -/
theorem detects_resolve (hd : d.WellFormed) : Detects d.resolve d.faults := by
  simp only [resolve, faults, List.append_assoc]
  refine (detects_distinct _ _).bind fun _ hparams => ?_
  refine (detects_distinct _ _).bind fun _ hlabels => ?_
  refine (detects_collectConstants _ _).bind fun g hg => ?_
  obtain ⟨vs, hvs, rfl⟩ := collectConstants_eq_ok_iff.mp hg
  refine (detects_distinct _ _).bind fun _ hnames => ?_
  have hmem {t : Section × ℕ} (ht : t ∈ d.sections.zipIdx) {l : Line} (hl : l ∈ t.1.lines) :
      l ∈ d.lines := by
    rw [lines_eq_flatMap_zipIdx]
    exact List.mem_flatMap.mpr ⟨t, ht, hl⟩
  rw [lines_eq_flatMap_zipIdx, List.flatMap_assoc]
  refine (detects_addSections
    (fun t ht l hl => collected_ground (hmem ht hl) hvs) ⟨rfl, fun _ => rfl⟩).bind fun f hf => ?_
  obtain ⟨hmeans, hfilled⟩ := (addSections_eq_ok_iff ⟨rfl, fun _ => rfl⟩).mp hf
  have hassembles : d.Assembles vs f :=
    ⟨distinct_eq_ok_iff.mp hparams, distinct_eq_ok_iff.mp hlabels, distinct_eq_ok_iff.mp hnames,
      hvs, fun l hl => by
        rw [lines_eq_flatMap_zipIdx] at hl
        obtain ⟨t, ht, hl⟩ := List.mem_flatMap.mp hl
        exact hmeans t ht l hl, hfilled⟩
  exact (detects_verify hassembles hd).map fun _ => f

end Definition

end LoopBounds.Listing
