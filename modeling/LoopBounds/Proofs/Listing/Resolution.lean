import LoopBounds.Proofs.Func.Append
import LoopBounds.Proofs.Listing.Written

/-!
# Resolving a listing

Looking up the names of a line does not depend on the lines added before it, since constants
have their nodes before any line. So resolving splits into the checks of names and literals,
a table of meanings, and the function that is filled with these. It does not matter how
literals are written.
-/

namespace LoopBounds.Listing

section Results

variable {ε α β : Type}

theorem bind_eq_ok_iff {x : Except ε α} {k : α → Except ε β} {b : β} :
    (x >>= k) = .ok b ↔ ∃ a, x = .ok a ∧ k a = .ok b := by
  cases x <;> simp [bind, Except.bind]

theorem pure_eq_ok_iff {a b : α} : (pure a : Except ε α) = .ok b ↔ a = b := by
  simp [pure, Except.pure]

theorem mapM_eq_ok_iff {r : α → Except ε β} {as : List α} {bs : List β} :
    as.mapM r = .ok bs ↔ List.Forall₂ (fun a b => r a = .ok b) as bs := by
  induction as generalizing bs with
  | nil => simp [pure, Except.pure, eq_comm]
  | cons a as ih =>
    simp only [List.mapM_cons, bind_eq_ok_iff, pure_eq_ok_iff, ih, List.forall₂_cons_left_iff]
    constructor
    · rintro ⟨b, hb, bs, hbs, rfl⟩
      exact ⟨b, bs, hb, hbs, rfl⟩
    · rintro ⟨b, bs, hb, hbs, rfl⟩
      exact ⟨b, hb, bs, hbs, rfl⟩

end Results

section Checks

theorem firstRepeated?_eq_none_iff {seen all : List String} :
    firstRepeated? seen all = none ↔ all.Nodup ∧ ∀ x ∈ all, x ∉ seen := by
  induction all generalizing seen with
  | nil => simp [firstRepeated?]
  | cons x all ih =>
    rw [firstRepeated?]
    split_ifs with hx
    · simp [hx]
    · simp only [ih, List.nodup_cons, List.mem_cons, not_or]
      constructor
      · rintro ⟨hnodup, hseen⟩
        exact ⟨⟨fun hmem => (hseen x hmem).1 rfl, hnodup⟩,
          fun y hy => hy.elim (fun h => h ▸ hx) fun hy => (hseen y hy).2⟩
      · rintro ⟨⟨hnot, hnodup⟩, hseen⟩
        exact ⟨hnodup, fun y hy => ⟨fun h => hnot (h ▸ hy), hseen y (.inr hy)⟩⟩

variable {d : Definition} {f g : Func}

theorem distinct_eq_ok_iff {all : List String} {fault : String → Fault} {u : Unit} :
    d.distinct all fault = .ok u ↔ all.Nodup := by
  have hiff : firstRepeated? [] all = none ↔ all.Nodup ∧ ∀ x ∈ all, x ∉ [] :=
    firstRepeated?_eq_none_iff
  rw [Definition.distinct]
  cases h : firstRepeated? [] all with
  | none => simpa [h] using hiff
  | some x => simpa [h] using hiff

/-- The function with its parameters, its blocks and the constants `vs`. -/
def Definition.ground (d : Definition) (vs : List Int32) : Func :=
  vs.foldl (fun f v => (f.addConstant v).2) d.skeleton

theorem collectConstants_eq_ok_iff {literals : List String} :
    Definition.collectConstants f literals = .ok g ↔ ∃ vs,
      List.Forall₂ (fun s v => readLiteral s = .ok v) literals vs ∧
        vs.foldl (fun f v => (f.addConstant v).2) f = g := by
  induction literals generalizing f with
  | nil => simp [Definition.collectConstants, pure_eq_ok_iff]
  | cons s literals ih =>
    rw [Definition.collectConstants, List.foldlM_cons]
    simp only [bind_eq_ok_iff, pure_eq_ok_iff, List.forall₂_cons_left_iff]
    constructor
    · rintro ⟨f', ⟨v, hv, rfl⟩, hg⟩
      obtain ⟨vs, hvs, rfl⟩ := ih.mp hg
      exact ⟨v :: vs, ⟨v, vs, hv, hvs, rfl⟩, rfl⟩
    · rintro ⟨-, ⟨v, vs, hv, hvs, rfl⟩, rfl⟩
      exact ⟨_, ⟨v, hv, rfl⟩, ih.mpr ⟨vs, hvs, rfl⟩⟩

end Checks

section Meanings

variable {names : Names} {f g f₀ : Func} {l : Line} {i : Instr} {b : BlockId}

/-- The functions have one name, and constants stand at the same positions. -/
def SameConstants (f g : Func) : Prop :=
  f.name = g.name ∧ ∀ v, f.findConstant? v = g.findConstant? v

theorem SameConstants.trans {h : Func} (hfg : SameConstants f g) (hgh : SameConstants g h) :
    SameConstants f h :=
  ⟨hfg.1.trans hgh.1, fun v => (hfg.2 v).trans (hgh.2 v)⟩

theorem instr_congr (h : SameConstants f g) (l : Line) : names.instr f l = names.instr g l := by
  have hoperand : names.operand f = names.operand g := by
    funext o
    cases o <;> simp only [Names.operand, h.1, h.2]
  have hsource : names.source f = names.source g := by
    funext s
    simp only [Names.source, hoperand]
  cases l with
  | ret value => cases value <;> simp only [Names.instr, hoperand]
  | _ => simp only [Names.instr, hoperand, hsource]

/-- What it is for a line to stand for an instruction: so do its operands and labels. -/
inductive Names.Means (names : Names) (f : Func) : Line → Instr → Prop
  | phi {name sources sources'} :
      List.Forall₂ (fun s t => names.operand f s.1 = .ok t.1 ∧ names.label s.2 = .ok t.2)
        sources sources' → Means names f (.phi name sources) (.phi sources')
  | arith {name op x y x' y'} : names.operand f x = .ok x' → names.operand f y = .ok y' →
      Means names f (.arith name op x y) (.arith op x' y')
  | neg {name x x'} : names.operand f x = .ok x' → Means names f (.neg name x) (.neg x')
  | compare {name op x y x' y'} : names.operand f x = .ok x' → names.operand f y = .ok y' →
      Means names f (.compare name op x y) (.compare op x' y')
  | jump {t t'} : names.label t = .ok t' → Means names f (.jump t) (.jump t')
  | branch {c t e c' t' e'} : names.operand f c = .ok c' → names.label t = .ok t' →
      names.label e = .ok e' → Means names f (.branch c t e) (.branch c' t' e')
  | ret : Means names f (.ret none) (.ret none)
  | retValue {x x'} : names.operand f x = .ok x' →
      Means names f (.ret (some x)) (.ret (some x'))

theorem source_eq_ok_iff {s : Operand × String} {t : InstrId × BlockId} :
    names.source f s = .ok t ↔ names.operand f s.1 = .ok t.1 ∧ names.label s.2 = .ok t.2 := by
  simp only [Names.source, bind_eq_ok_iff, pure_eq_ok_iff]
  constructor
  · rintro ⟨x, hx, b, hb, rfl⟩
    exact ⟨hx, hb⟩
  · rintro ⟨hx, hb⟩
    exact ⟨t.1, hx, t.2, hb, rfl⟩

theorem instr_eq_ok_iff : names.instr f l = .ok i ↔ names.Means f l i := by
  constructor
  · intro h
    cases l with
    | phi n sources =>
      simp only [Names.instr, bind_eq_ok_iff, pure_eq_ok_iff, mapM_eq_ok_iff, source_eq_ok_iff] at h
      obtain ⟨sources', hsources, rfl⟩ := h
      exact .phi hsources
    | arith n op x y =>
      simp only [Names.instr, bind_eq_ok_iff, pure_eq_ok_iff] at h
      obtain ⟨x', hx, y', hy, rfl⟩ := h
      exact .arith hx hy
    | neg n x =>
      simp only [Names.instr, bind_eq_ok_iff, pure_eq_ok_iff] at h
      obtain ⟨x', hx, rfl⟩ := h
      exact .neg hx
    | compare n op x y =>
      simp only [Names.instr, bind_eq_ok_iff, pure_eq_ok_iff] at h
      obtain ⟨x', hx, y', hy, rfl⟩ := h
      exact .compare hx hy
    | jump t =>
      simp only [Names.instr, bind_eq_ok_iff, pure_eq_ok_iff] at h
      obtain ⟨t', ht, rfl⟩ := h
      exact .jump ht
    | branch c t e =>
      simp only [Names.instr, bind_eq_ok_iff, pure_eq_ok_iff] at h
      obtain ⟨c', hc, t', ht, e', he, rfl⟩ := h
      exact .branch hc ht he
    | ret value =>
      cases value with
      | none =>
        obtain rfl := Except.ok.inj h
        exact .ret
      | some x =>
        simp only [Names.instr, bind_eq_ok_iff, pure_eq_ok_iff] at h
        obtain ⟨x', hx, rfl⟩ := h
        exact .retValue hx
  · intro h
    cases h with
    | ret => rfl
    | phi h =>
      simp only [Names.instr, bind_eq_ok_iff, pure_eq_ok_iff, mapM_eq_ok_iff, source_eq_ok_iff]
      exact ⟨_, h, rfl⟩
    | _ => simp_all [Names.instr, bind_eq_ok_iff, pure, Except.pure]

/-- A line stands for an instruction of its kind. -/
theorem Names.Means.kind (h : names.Means f l i) :
    i.isLeaf = false ∧ i.isPhi = l.isPhi ∧ i.isTerminator = l.isTerminator := by
  cases h <;> exact ⟨rfl, rfl, rfl⟩

/-- The instruction that a line stands for, when its names are found. -/
def Names.meaning (names : Names) (f : Func) (l : Line) : Instr :=
  match names.instr f l with
  | .ok i => i
  | .error _ => .ret none

theorem Names.Means.meaning_eq (h : names.Means f l i) : names.meaning f l = i := by
  rw [Names.meaning, instr_eq_ok_iff.mpr h]

theorem sameConstants_append (f : Func) (b : BlockId) (name : Option String) (i : Instr) :
    SameConstants (f.append b name i) f := by
  have hhead := f.sameHead_append b name i
  exact ⟨hhead.name, fun v => by rw [Func.findConstant?, hhead.pool, Func.findConstant?]⟩

end Meanings

section Filling

variable {names : Names} {f g f₀ : Func} {b : BlockId} {lines : List Line}

/-- Adds the lines of one block, given what they stand for. -/
def addMeanings (meaning : Line → Instr) (b : BlockId) (f : Func) (lines : List Line) : Func :=
  lines.foldl (fun f l => f.append b l.defines? (meaning l)) f

/-- Adds all lines, given what they stand for. -/
def Definition.fill (d : Definition) (meaning : Line → Instr) (f : Func) : Func :=
  d.sections.zipIdx.foldl (fun f t => addMeanings meaning ⟨t.2⟩ f t.1.lines) f

/-- The names are looked up as if no line had been added. -/
theorem addLines_eq_ok_iff (hsame : SameConstants f f₀) :
    Definition.addLines names b f lines = .ok g ↔
      (∀ l ∈ lines, ∃ i, names.Means f₀ l i) ∧ addMeanings (names.meaning f₀) b f lines = g := by
  induction lines generalizing f with
  | nil => simp [Definition.addLines, addMeanings, pure_eq_ok_iff]
  | cons l lines ih =>
    rw [Definition.addLines, List.foldlM_cons, instr_congr hsame]
    simp only [bind_eq_ok_iff, pure_eq_ok_iff, instr_eq_ok_iff, List.forall_mem_cons]
    constructor
    · rintro ⟨f', ⟨i, hi, rfl⟩, hg⟩
      obtain ⟨hlines, rfl⟩ := (ih ((sameConstants_append f b _ i).trans hsame)).mp hg
      exact ⟨⟨⟨i, hi⟩, hlines⟩, by rw [addMeanings, List.foldl_cons, hi.meaning_eq]; rfl⟩
    · rintro ⟨⟨⟨i, hi⟩, hlines⟩, rfl⟩
      refine ⟨_, ⟨i, hi, rfl⟩, (ih ((sameConstants_append f b _ i).trans hsame)).mpr ⟨hlines, ?_⟩⟩
      rw [addMeanings, addMeanings, List.foldl_cons, hi.meaning_eq]

theorem sameConstants_addMeanings (hlines : ∀ l ∈ lines, ∃ i, names.Means f₀ l i) (f : Func) :
    SameConstants (addMeanings (names.meaning f₀) b f lines) f := by
  induction lines generalizing f with
  | nil => exact ⟨rfl, fun _ => rfl⟩
  | cons l lines ih =>
    obtain ⟨i, hi⟩ := hlines l List.mem_cons_self
    rw [addMeanings, List.foldl_cons, hi.meaning_eq]
    exact (ih (fun l hl => hlines l (List.mem_cons_of_mem _ hl)) _).trans
      (sameConstants_append f b _ i)

theorem addSections_eq_ok_iff {sections : List (Section × ℕ)} (hsame : SameConstants f f₀) :
    sections.foldlM (fun f t => Definition.addLines names ⟨t.2⟩ f t.1.lines) f = .ok g ↔
      (∀ t ∈ sections, ∀ l ∈ t.1.lines, ∃ i, names.Means f₀ l i) ∧
        sections.foldl (fun f t => addMeanings (names.meaning f₀) ⟨t.2⟩ f t.1.lines) f = g := by
  induction sections generalizing f with
  | nil => simp [pure_eq_ok_iff]
  | cons t sections ih =>
    simp only [List.foldlM_cons, bind_eq_ok_iff, addLines_eq_ok_iff hsame, List.forall_mem_cons]
    constructor
    · rintro ⟨f', ⟨hlines, rfl⟩, hg⟩
      obtain ⟨hsections, rfl⟩ := (ih ((sameConstants_addMeanings hlines f).trans hsame)).mp hg
      exact ⟨⟨hlines, hsections⟩, rfl⟩
    · rintro ⟨⟨hlines, hsections⟩, rfl⟩
      exact ⟨_, ⟨hlines, rfl⟩,
        (ih ((sameConstants_addMeanings hlines f).trans hsame)).mpr ⟨hsections, rfl⟩⟩

end Filling

/-- What the names of the definition stand for, when its constants are `vs`. -/
def Definition.table (d : Definition) (vs : List Int32) : Names := d.names (d.ground vs).nodes.size

/-- What the lines of the definition stand for, when its constants are `vs`. -/
def Definition.meaning (d : Definition) (vs : List Int32) : Line → Instr :=
  (d.table vs).meaning (d.ground vs)

/-- The definition `d` with the constants `vs` stands for `f`, which may break a rule for
functions. -/
structure Definition.Assembles (d : Definition) (vs : List Int32) (f : Func) : Prop where
  params : d.params.Nodup
  labels : d.labels.Nodup
  names : (d.params ++ d.lines.filterMap Line.defines?).Nodup
  literals : List.Forall₂ (fun s v => readLiteral s = .ok v) (d.lines.flatMap Line.literals) vs
  lines : ∀ l ∈ d.lines, ∃ i, (d.table vs).Means (d.ground vs) l i
  filled : d.fill (d.meaning vs) (d.ground vs) = f

/-- The definition `d` with the constants `vs` stands for `f`. -/
structure Definition.Resolves (d : Definition) (vs : List Int32) (f : Func) : Prop
    extends d.Assembles vs f where
  verified : f.fault? = none

theorem verify_eq_ok_iff {f : Func} {u : Unit} : f.verify = .ok u ↔ f.fault? = none := by
  rw [Func.verify]
  cases f.fault? <;> simp

theorem Definition.lines_eq_flatMap_zipIdx (d : Definition) :
    d.lines = d.sections.zipIdx.flatMap fun t => t.1.lines := by
  conv_lhs => rw [Definition.lines, ← List.zipIdx_map_fst 0 d.sections, List.flatMap_map]

/-- A definition is resolved if all checks succeed, and to nothing else. -/
theorem resolve_eq_ok_iff {d : Definition} {f : Func} :
    d.resolve = .ok f ↔ ∃ vs, d.Resolves vs f := by
  simp only [Definition.resolve, bind_eq_ok_iff, pure_eq_ok_iff, distinct_eq_ok_iff, exists_const,
    collectConstants_eq_ok_iff, verify_eq_ok_iff]
  have hlines {P : Line → Prop} :
      (∀ t ∈ d.sections.zipIdx, ∀ l ∈ t.1.lines, P l) ↔ ∀ l ∈ d.lines, P l := by
    rw [d.lines_eq_flatMap_zipIdx, List.forall_mem_flatMap]
  constructor
  · rintro ⟨hparams, hlabels, -, ⟨vs, hvs, rfl⟩, hnames, f', hfilled, hverified, rfl⟩
    obtain ⟨hmeans, hfilled⟩ := (addSections_eq_ok_iff ⟨rfl, fun _ => rfl⟩).mp hfilled
    exact ⟨vs, ⟨hparams, hlabels, hnames, hvs, hlines.mp hmeans, hfilled⟩, hverified⟩
  · rintro ⟨vs, ⟨hparams, hlabels, hnames, hvs, hmeans, hfilled⟩, hverified⟩
    exact ⟨hparams, hlabels, _, ⟨vs, hvs, rfl⟩, hnames, f,
      (addSections_eq_ok_iff ⟨rfl, fun _ => rfl⟩).mpr ⟨hlines.mpr hmeans, hfilled⟩, hverified, rfl⟩

section Normal

/-- Literals are written as the integers that they denote are printed. -/
def Operand.normalize : Operand → Operand
  | .value name => .value name
  | .literal digits => .literal (toString (literalValue digits))

def Line.normalize : Line → Line
  | .phi name sources => .phi name (sources.map fun s => (s.1.normalize, s.2))
  | .arith name op x y => .arith name op x.normalize y.normalize
  | .neg name x => .neg name x.normalize
  | .compare name op x y => .compare name op x.normalize y.normalize
  | .jump t => .jump t
  | .branch c t e => .branch c.normalize t e
  | .ret value => .ret (value.map Operand.normalize)

def Section.normalize (s : Section) : Section := ⟨s.label, s.lines.map Line.normalize⟩

def Definition.normalize (d : Definition) : Definition :=
  { d with sections := d.sections.map Section.normalize }

variable {d : Definition} {names : Names} {f : Func} {l : Line} {o : Operand} {i : Instr}

@[simp] theorem defines?_normalize (l : Line) : l.normalize.defines? = l.defines? := by
  cases l <;> rfl

@[simp] theorem targets_normalize (l : Line) : l.normalize.targets = l.targets := by
  cases l <;> rfl

theorem literals_normalize (l : Line) :
    l.normalize.literals = l.literals.map fun s => toString (literalValue s) := by
  have hoperands : l.normalize.operands = l.operands.map Operand.normalize := by
    cases l with
    | phi n sources => simp [Line.normalize, Line.operands]
    | ret value => cases value <;> rfl
    | _ => rfl
  rw [Line.literals, Line.literals, hoperands, List.filterMap_map, List.map_filterMap]
  congr 1
  funext o
  cases o <;> rfl

theorem readLiteral_normalize {s : String} {v : Int32} :
    readLiteral (toString (literalValue s)) = .ok v ↔ readLiteral s = .ok v := by
  simp only [readLiteral, literalValue_toString]
  cases Word.narrow? (literalValue s) <;> simp

theorem operand_normalize {x : InstrId} :
    names.operand f o.normalize = .ok x ↔ names.operand f o = .ok x := by
  cases o with
  | value name => rfl
  | literal s =>
    simp only [Operand.normalize, Names.operand, bind_eq_ok_iff, readLiteral_normalize]

theorem means_normalize : names.Means f l.normalize i ↔ names.Means f l i := by
  constructor
  · intro h
    cases l with
    | phi n sources =>
      cases h with
      | phi h =>
        rw [List.forall₂_map_left_iff] at h
        simp only [operand_normalize] at h
        exact .phi h
    | arith n op x y =>
      cases h with
      | arith hx hy => exact .arith (operand_normalize.mp hx) (operand_normalize.mp hy)
    | neg n x =>
      cases h with
      | neg hx => exact .neg (operand_normalize.mp hx)
    | compare n op x y =>
      cases h with
      | compare hx hy => exact .compare (operand_normalize.mp hx) (operand_normalize.mp hy)
    | jump t => exact h
    | branch c t e =>
      cases h with
      | branch hc ht he => exact .branch (operand_normalize.mp hc) ht he
    | ret value =>
      cases value with
      | none => exact h
      | some x =>
        cases h with
        | retValue hx => exact .retValue (operand_normalize.mp hx)
  · intro h
    cases h with
    | phi h =>
      apply Names.Means.phi
      rw [List.forall₂_map_left_iff]
      simpa only [operand_normalize] using h
    | arith hx hy => exact .arith (operand_normalize.mpr hx) (operand_normalize.mpr hy)
    | neg hx => exact .neg (operand_normalize.mpr hx)
    | compare hx hy => exact .compare (operand_normalize.mpr hx) (operand_normalize.mpr hy)
    | jump ht => exact .jump ht
    | branch hc ht he => exact .branch (operand_normalize.mpr hc) ht he
    | ret => exact .ret
    | retValue hx => exact .retValue (operand_normalize.mpr hx)

theorem lines_normalize (d : Definition) : d.normalize.lines = d.lines.map Line.normalize := by
  simp [Definition.lines, Definition.normalize, List.flatMap_map, List.map_flatMap,
    Section.normalize]

theorem labels_normalize (d : Definition) : d.normalize.labels = d.labels := by
  simp [Definition.labels, Definition.normalize, Section.normalize, Function.comp_def]

theorem meaning_normalize (names : Names) (f : Func) (l : Line) :
    names.meaning f l.normalize = names.meaning f l := by
  by_cases h : ∃ i, names.Means f l i
  · obtain ⟨i, hi⟩ := h
    rw [hi.meaning_eq, (means_normalize.mpr hi).meaning_eq]
  · have hnot {l' : Line} (h' : ¬ ∃ i, names.Means f l' i) : names.meaning f l' = .ret none := by
      rw [Names.meaning]
      split
      · rename_i i hi
        exact absurd ⟨i, instr_eq_ok_iff.mp hi⟩ h'
      · rfl
    rw [hnot h, hnot fun ⟨i, hi⟩ => h ⟨i, means_normalize.mp hi⟩]

theorem ground_normalize (d : Definition) (vs : List Int32) :
    d.normalize.ground vs = d.ground vs := by
  rw [Definition.ground, Definition.ground, Definition.skeleton, Definition.skeleton,
    labels_normalize]
  rfl

theorem filterMap_defines?_normalize (d : Definition) :
    d.normalize.lines.filterMap Line.defines? = d.lines.filterMap Line.defines? := by
  simp [lines_normalize, List.filterMap_map]

theorem names_normalize (d : Definition) (start : ℕ) : d.normalize.names start = d.names start := by
  simp only [Definition.names, labels_normalize, Definition.definedAt, lines_normalize,
    List.zipIdx_map, List.filterMap_map, Function.comp_def, Prod.map, defines?_normalize, id]
  rfl

theorem fill_normalize (d : Definition) (f f₀ : Func) :
    d.normalize.fill (names.meaning f₀) f = d.fill (names.meaning f₀) f := by
  simp only [Definition.fill, Definition.normalize, List.zipIdx_map, List.foldl_map, Prod.map,
    Section.normalize, addMeanings, defines?_normalize, meaning_normalize, id]

theorem preds_normalize (d : Definition) (label : String) :
    d.normalize.preds label = d.preds label := by
  simp only [Definition.preds, Definition.normalize, List.zipIdx_map, List.filter_map, List.map_map,
    Function.comp_def, Prod.map, Section.normalize, List.flatMap_map, targets_normalize, id]

/-- How literals are written does not matter. -/
theorem resolve_normalize (h : d.resolve = .ok f) : d.normalize.resolve = .ok f := by
  obtain ⟨vs, h⟩ := resolve_eq_ok_iff.mp h
  refine resolve_eq_ok_iff.mpr ⟨vs, ⟨h.params, ?_, ?_, ?_, ?_, ?_⟩, h.verified⟩
  · rw [labels_normalize]
    exact h.labels
  · rw [filterMap_defines?_normalize]
    exact h.names
  · have heq : d.normalize.lines.flatMap Line.literals =
        (d.lines.flatMap Line.literals).map fun s => toString (literalValue s) := by
      simp only [lines_normalize, List.flatMap_map, literals_normalize, List.map_flatMap]
    rw [heq, List.forall₂_map_left_iff]
    simpa only [readLiteral_normalize] using h.literals
  · rw [lines_normalize, Definition.table, ground_normalize, names_normalize]
    intro l hl
    obtain ⟨l', hl', rfl⟩ := List.mem_map.mp hl
    simp only [means_normalize]
    exact h.lines l' hl'
  · rw [Definition.meaning, Definition.table, ground_normalize, names_normalize, fill_normalize]
    exact h.filled

end Normal

end LoopBounds.Listing
