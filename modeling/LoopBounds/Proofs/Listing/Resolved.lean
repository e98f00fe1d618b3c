import LoopBounds.Proofs.Func.Tables
import LoopBounds.Proofs.Listing.Layout
import LoopBounds.Proofs.Listing.Printing

/-!
# What a resolved function says

Every operand of a resolved function has the name or the value that is written, and every
label belongs to its block. So the function says what its listing says, up to the form of
literals, and its predecessor lists are those that the labels give.
-/

namespace LoopBounds

namespace Func

variable {f : Func} {v w : Int32} {vs : List Int32} {x : InstrId}

/-- A function with the nodes of several constants. -/
def addConstants (f : Func) (vs : List Int32) : Func := vs.foldl (fun f v => (f.addConstant v).2) f

theorem extends_addConstants (f : Func) (vs : List Int32) : f.Extends (f.addConstants vs) := by
  induction vs generalizing f with
  | nil => exact extends_refl f
  | cons v vs ih => exact (extends_addConstant f v).trans (ih _)

theorem blocks_addConstants (f : Func) (vs : List Int32) :
    (f.addConstants vs).blocks = f.blocks := by
  induction vs generalizing f with
  | nil => rfl
  | cons v vs ih => exact (ih _).trans (blocks_addConstant f v)

theorem exists_instr_addConstants (hv : v ∈ vs) :
    ∃ x, (f.addConstants vs).instr x = .constant v := by
  obtain ⟨u, w, rfl⟩ := List.append_of_mem hv
  rw [addConstants, List.foldl_append, List.foldl_cons]
  set g := u.foldl (fun f v => (f.addConstant v).2) f
  have hx := g.instr_addConstant v
  refine ⟨(g.addConstant v).1, ((extends_addConstants _ w).instr ?_).trans hx⟩
  exact index_lt_of_isLeaf (by rw [hx]; rfl)

end Func

namespace Listing

section Ground

variable {d : Definition} {f : Func} {vs : List Int32}

theorem foldl_addParam (f : Func) (params : List String) (h : f.params.length = f.nodes.size) :
    (params.foldl Func.addParam f).nodes.toList = f.nodes.toList ++
        (params.zipIdx f.nodes.size).map (fun t => ⟨t.1, .entry, .param t.2⟩) ∧
      (params.foldl Func.addParam f).params = f.params ++ idsFrom f.nodes.size params.length ∧
      (params.foldl Func.addParam f).blocks = f.blocks ∧
      (params.foldl Func.addParam f).name = f.name ∧
      (params.foldl Func.addParam f).returns = f.returns := by
  induction params generalizing f with
  | nil => simp [idsFrom]
  | cons p params ih =>
    have hsize : (f.addParam p).nodes.size = f.nodes.size + 1 := Array.size_push _
    have hnodes : (f.addParam p).nodes.toList =
        f.nodes.toList ++ [⟨p, .entry, .param f.nodes.size⟩] := by
      rw [← h]
      exact Array.toList_push
    have hparams : (f.addParam p).params = f.params ++ [⟨f.nodes.size⟩] := rfl
    have hids : idsFrom f.nodes.size (params.length + 1) =
        [⟨f.nodes.size⟩] ++ idsFrom (f.nodes.size + 1) params.length := by
      rw [Nat.add_comm, ← idsFrom_append]
      rfl
    obtain ⟨hn, hp, hb, hname, hreturns⟩ := ih (f.addParam p) (by rw [hparams, hsize]; simp [h])
    rw [hsize] at hn hp
    refine ⟨hn.trans ?_, hp.trans ?_, hb, hname, hreturns⟩
    · rw [hnodes, List.append_assoc]
      rfl
    · rw [hparams, List.length_cons, hids, List.append_assoc]

theorem foldl_addBlock (f : Func) (labels : List String) :
    (labels.foldl Func.addBlock f).blocks.toList =
        f.blocks.toList ++ labels.map (fun l => { label := l }) ∧
      (labels.foldl Func.addBlock f).nodes = f.nodes ∧
      (labels.foldl Func.addBlock f).params = f.params ∧
      (labels.foldl Func.addBlock f).name = f.name ∧
      (labels.foldl Func.addBlock f).returns = f.returns := by
  induction labels generalizing f with
  | nil => simp
  | cons l labels ih =>
    obtain ⟨hb, hrest⟩ := ih (f.addBlock l)
    refine ⟨hb.trans ?_, hrest⟩
    rw [Func.addBlock, Array.toList_push, List.append_assoc]
    rfl

/-- The parameters come first, each block has its label, and there is nothing in it. -/
structure Definition.Skeletal (d : Definition) (f : Func) : Prop where
  name : f.name = d.name
  returns : f.returns = d.returns
  params : f.params = idsFrom 0 d.params.length
  param : ∀ i p, d.params[i]? = some p → f.node ⟨i⟩ = ⟨p, .entry, .param i⟩
  blocks : f.blocks.toList = d.labels.map fun l => { label := l }

theorem skeletal_skeleton (hne : d.sections ≠ []) : d.Skeletal d.skeleton := by
  obtain ⟨first, rest, hlabels⟩ := List.exists_cons_of_ne_nil (l := d.labels)
    (by simpa [Definition.labels] using hne)
  obtain ⟨hn, hp, hb, hname, hreturns⟩ :=
    foldl_addParam (Func.empty d.name d.returns) d.params rfl
  set start := d.params.foldl Func.addParam (Func.empty d.name d.returns)
  obtain ⟨hb', hn', hp', hname', hreturns'⟩ :=
    foldl_addBlock (start.renameBlock .entry first) rest
  have hskeleton : d.skeleton = rest.foldl Func.addBlock (start.renameBlock .entry first) := by
    rw [Definition.skeleton, hlabels]
  rw [hskeleton]
  refine ⟨hname'.trans hname, hreturns'.trans hreturns, hp'.trans (hp.trans (List.nil_append _)),
    fun i p hi => ?_, ?_⟩
  · have hget : start.nodes[i]? = some ⟨p, .entry, .param i⟩ := by
      rw [← Array.getElem?_toList, hn]
      simp [Func.empty, hi]
    rw [Func.node, hn']
    exact congrArg (Option.getD · Node.vacant) hget
  · rw [hb', hlabels, Func.renameBlock, Func.modifyBlock, hb]
    rfl

theorem skeletal_ground (hne : d.sections ≠ []) (vs : List Int32) : d.Skeletal (d.ground vs) := by
  have h := skeletal_skeleton hne
  have hext := Func.extends_addConstants d.skeleton vs
  refine ⟨hext.name.trans h.name, hext.returns.trans h.returns, hext.params.trans h.params,
    fun i p hi => ?_, (congrArg Array.toList (Func.blocks_addConstants _ vs)).trans h.blocks⟩
  have hnode := h.param i p hi
  refine (hext.node ⟨i⟩ (Func.index_lt_of_isLeaf ?_)).trans hnode
  rw [Func.instr, hnode]
  rfl

theorem block_ground (hne : d.sections ≠ []) (vs : List Int32) (b : BlockId) :
    (d.ground vs).block b = { label := d.labels[b.index]?.getD "" } := by
  rw [Func.block, ← Array.getElem?_toList, (skeletal_ground hne vs).blocks, List.getElem?_map]
  cases d.labels[b.index]? <;> rfl

theorem built_ground (d : Definition) (vs : List Int32) : (d.ground vs).Built := by
  have hparams : (d.params.foldl Func.addParam (Func.empty d.name d.returns)).Built :=
    List.foldlRecOn _ _ (.empty _ _) fun f hf p _ => hf.addParam p
  have hblocks : (d.params.foldl Func.addParam (Func.empty d.name d.returns)).blocks =
      (Func.empty d.name d.returns).blocks := (foldl_addParam _ d.params rfl).2.2.1
  have hskeleton : d.skeleton.Built := by
    unfold Definition.skeleton
    cases d.labels with
    | nil => exact hparams
    | cons first rest =>
      have hentry : BlockId.entry.index <
          (d.params.foldl Func.addParam (Func.empty d.name d.returns)).blocks.size := by
        rw [hblocks]
        exact Nat.one_pos
      exact List.foldlRecOn _ _ (hparams.renameBlock .entry first hentry)
        fun f hf l _ => hf.addBlock l
  exact List.foldlRecOn _ _ hskeleton fun f hf v _ => hf.addConstant v

end Ground

section Lookup

variable {d : Definition} {vs : List Int32} {start : ℕ} {name : String} {x : InstrId}

theorem lookup_eq_some_iff_mem {β : Type} {l : List (String × β)} {k : String} {v : β}
    (h : (l.map Prod.fst).Nodup) : l.lookup k = some v ↔ (k, v) ∈ l := by
  induction l with
  | nil => simp
  | cons t l ih =>
    obtain ⟨key, w⟩ := t
    rw [List.map_cons, List.nodup_cons] at h
    by_cases hk : k = key
    · subst hk
      have hnot : (k, v) ∉ l := fun hmem => h.1 (List.mem_map.mpr ⟨_, hmem, rfl⟩)
      simp [hnot, eq_comm]
    · simp [List.lookup_cons, beq_eq_false_iff_ne.mpr hk, hk, ih h.2]

theorem keys_values (d : Definition) (start : ℕ) :
    (d.names start).values.map Prod.fst = d.params ++ d.lines.filterMap Line.defines? := by
  have hlines : d.lines.filterMap Line.defines? =
      d.lines.zipIdx.filterMap fun t => t.1.defines? := by
    conv_lhs => rw [← List.zipIdx_map_fst 0 d.lines, List.filterMap_map]
    rfl
  rw [Definition.names, List.map_append, List.map_map, Definition.definedAt, List.map_filterMap,
    hlines]
  congr 1
  · exact List.zipIdx_map_fst 0 d.params
  · congr 1
    funext t
    rw [Option.map_map]
    exact Option.map_id'

theorem mem_values : (name, x) ∈ (d.names start).values ↔
    d.params[x.index]? = some name ∨
      ∃ k l, d.lines[k]? = some l ∧ l.defines? = some name ∧ x = ⟨start + k⟩ := by
  rw [Definition.names, List.mem_append]
  refine or_congr ?_ ?_
  · simp only [List.mem_map, Prod.exists, List.mem_zipIdx_iff_getElem?, Prod.mk.injEq]
    constructor
    · rintro ⟨p, i, hi, rfl, rfl⟩
      exact hi
    · exact fun hi => ⟨name, x.index, hi, rfl, rfl⟩
  · simp only [Definition.definedAt, List.mem_filterMap, Prod.exists, List.mem_zipIdx_iff_getElem?,
      Option.map_eq_some_iff, Prod.mk.injEq]
    constructor
    · rintro ⟨l, k, hk, n, hn, rfl, rfl⟩
      exact ⟨k, l, hk, hn, rfl⟩
    · rintro ⟨k, l, hk, hn, rfl⟩
      exact ⟨l, k, hk, name, hn, rfl, rfl⟩

theorem keys_labels (d : Definition) (start : ℕ) :
    (d.names start).labels.map Prod.fst = d.labels := by
  rw [Definition.names, List.map_map]
  exact List.zipIdx_map_fst 0 d.labels

theorem mem_labels {b : BlockId} :
    (name, b) ∈ (d.names start).labels ↔ d.labels[b.index]? = some name := by
  simp only [Definition.names, List.mem_map, Prod.exists, List.mem_zipIdx_iff_getElem?,
    Prod.mk.injEq]
  constructor
  · rintro ⟨l, i, hi, rfl, rfl⟩
    exact hi
  · exact fun hi => ⟨name, b.index, hi, rfl, rfl⟩

end Lookup

section Means

theorem exists_left_of_forall₂ {α β : Type} {R : α → β → Prop} {as : List α} {bs : List β} {b : β}
    (h : List.Forall₂ R as bs) (hb : b ∈ bs) : ∃ a ∈ as, R a b := by
  induction h with
  | nil => cases hb
  | cons hab _ ih =>
    rcases List.mem_cons.mp hb with rfl | hb
    · exact ⟨_, List.mem_cons_self, hab⟩
    · obtain ⟨a, ha, hR⟩ := ih hb
      exact ⟨a, List.mem_cons_of_mem _ ha, hR⟩

variable {names : Names} {f : Func} {l : Line} {i : Instr}

theorem Names.Means.operands (h : names.Means f l i) :
    List.Forall₂ (fun o x => names.operand f o = .ok x) l.operands i.operands := by
  cases h with
  | phi h =>
    rw [Line.operands, Instr.operands, List.forall₂_map_left_iff, List.forall₂_map_right_iff]
    exact h.imp fun _ _ h => h.1
  | arith hx hy | compare hx hy => exact .cons hx (.cons hy .nil)
  | neg hx | branch hx | retValue hx => exact .cons hx .nil
  | jump | ret => exact .nil

theorem Names.Means.targets (h : names.Means f l i) :
    List.Forall₂ (fun t b => names.label t = .ok b) l.targets i.targets := by
  cases h with
  | jump ht => exact .cons ht .nil
  | branch _ ht he => exact .cons ht (.cons he .nil)
  | _ => exact .nil

theorem Names.label_eq_ok_iff {t : String} {b : BlockId} :
    names.label t = .ok b ↔ names.labels.lookup t = some b := by
  rw [Names.label]
  cases names.labels.lookup t <;> simp

theorem Names.operand_value_eq_ok_iff {n : String} {x : InstrId} :
    names.operand f (.value n) = .ok x ↔ names.values.lookup n = some x := by
  rw [Names.operand]
  cases names.values.lookup n <;> simp

theorem Names.operand_literal_eq_ok_iff {s : String} {x : InstrId} :
    names.operand f (.literal s) = .ok x ↔
      ∃ v, readLiteral s = .ok v ∧ f.findConstant? v = some x := by
  simp only [Names.operand, bind_eq_ok_iff]
  refine exists_congr fun v => and_congr_right fun _ => ?_
  cases f.findConstant? v <;> simp

theorem literalValue_of_readLiteral {s : String} {v : Int32} (h : readLiteral s = .ok v) :
    literalValue s = v.toInt := by
  rw [readLiteral] at h
  split at h
  · rename_i w hw
    obtain rfl := Except.ok.inj h
    exact (Word.narrow?_eq_some_iff.mp hw).symm
  · cases h

end Means

namespace Definition

variable {d : Definition} {vs : List Int32} {f : Func} {o : Operand} {x : InstrId} {b : BlockId}
  {l : Line} {s : Section} {i : Instr} {t : String}

theorem index_lt_of_label (h : (d.table vs).label t = .ok b) : d.labels[b.index]? = some t := by
  obtain ⟨u, w, heq, -⟩ := List.lookup_eq_some_iff.mp (Names.label_eq_ok_iff.mp h)
  have hmem : (t, b) ∈ (d.names (d.ground vs).nodes.size).labels := by
    rw [← Definition.table, heq]
    exact List.mem_append_right _ List.mem_cons_self
  exact mem_labels.mp hmem

theorem size_ground (hd : d.WellFormed) (vs : List Int32) :
    (d.ground vs).blocks.size = d.sections.length := by
  rw [← Array.length_toList, (skeletal_ground hd.nonempty vs).blocks, List.length_map,
    Definition.labels, List.length_map]

theorem Assembles.means (h : d.Assembles vs f) (hl : l ∈ d.lines) :
    (d.table vs).Means (d.ground vs) l (d.meaning vs l) := by
  obtain ⟨i, hi⟩ := h.lines l hl
  rwa [meaning, hi.meaning_eq]

/-- Every line is added to its block. -/
theorem Assembles.laid (h : d.Assembles vs f) (hd : d.WellFormed) :
    Laid (d.meaning vs) (d.ground vs) d.sections f := by
  have hblock := block_ground hd.nonempty vs
  have hblank (b : BlockId) : IsBlank ((d.ground vs).block b) := by
    rw [hblock]
    exact ⟨rfl, rfl, rfl, rfl⟩
  have hmem {s : Section} (hs : s ∈ d.sections) {l : Line} (hl : l ∈ s.lines) : l ∈ d.lines :=
    List.mem_flatMap.mpr ⟨s, hs, hl⟩
  have hstart : Laid (d.meaning vs) (d.ground vs) [] (d.ground vs) := by
    refine ⟨⟨rfl, rfl, rfl, rfl⟩, rfl, fun _ => rfl, rfl, fun _ _ => rfl, fun k l hl => ?_,
      fun i s hs => ?_, fun i s hs => ?_, fun b x hx => ?_, fun i hi => ?_, fun i _ => hblank _,
      fun b => ?_, id⟩
    · simp at hl
    · simp at hs
    · simp at hs
    · simp [Block.instrs, (hblank b).phis, (hblank b).body, (hblank b).terminator] at hx
    · exact absurd hi (Nat.not_lt_zero i)
    · rw [hblock]
      rfl
  have hordered : ∀ s ∈ d.sections, s.Ordered := fun s hs => (hd.sections s hs).ordered
  have hend := hstart.foldl hordered
    (fun s hs l hl => (h.means (hmem hs hl)).kind) (fun s hs l hl t ht => ?_)
    (by rw [size_ground hd]; simp)
  · rw [← h.filled]
    exact hend
  · obtain ⟨t', -, ht'⟩ := exists_left_of_forall₂ (h.means (hmem hs hl)).targets ht
    rw [size_ground hd, ← List.length_map (f := Section.label)]
    exact (List.getElem?_eq_some_iff.mp (index_lt_of_label ht')).1

/-- A line leads to a block if it has the label of the block among its targets. -/
theorem Assembles.mem_targets_iff (h : d.Assembles vs f) (hl : l ∈ d.lines)
    (hb : d.labels[b.index]? = some t) :
    b ∈ (d.meaning vs l).targets ↔ t ∈ l.targets := by
  have htargets := (h.means hl).targets
  constructor
  · intro hmem
    obtain ⟨t', ht', hlabel⟩ := exists_left_of_forall₂ htargets hmem
    obtain rfl : t' = t := Option.some.inj ((index_lt_of_label hlabel).symm.trans hb)
    exact ht'
  · intro hmem
    obtain ⟨c, hc, hlabel⟩ := exists_left_of_forall₂
      (R := flip fun t b => (d.table vs).label t = .ok b) htargets.flip hmem
    obtain ⟨b⟩ := b
    obtain ⟨c⟩ := c
    obtain rfl : b = c := (List.getElem?_inj (List.getElem?_eq_some_iff.mp hb).1 h.labels).mp
      (hb.trans (index_lt_of_label hlabel).symm)
    exact hc

section Says

variable (h : d.Assembles vs f) (hd : d.WellFormed)

include h hd

theorem Assembles.label_block (hb : d.labels[b.index]? = some t) : (f.block b).label = t := by
  rw [(h.laid hd).label, block_ground hd.nonempty, hb]
  rfl

theorem Assembles.node_param {k : ℕ} (hk : d.params[k]? = some t) :
    f.node ⟨k⟩ = ⟨t, .entry, .param k⟩ := by
  have hold := (skeletal_ground hd.nonempty vs).param k t hk
  rw [(h.laid hd).old, hold]
  refine Func.index_lt_of_isLeaf ?_
  rw [Func.instr, hold]
  rfl

theorem Assembles.built : f.Built := (h.laid hd).built (built_ground d vs)

theorem Assembles.size_blocks : f.blocks.size = d.sections.length :=
  (h.laid hd).blocks.trans (size_ground hd vs)

theorem Assembles.arranged (hb : b.index < f.blocks.size) : f.Arranged (f.block b) :=
  (h.laid hd).arranged b.index (h.size_blocks hd ▸ hb)

theorem Assembles.operandOf (hx : (d.table vs).operand (d.ground vs) o = .ok x) :
    f.operandOf x = o.normalize ∧ f.Named x := by
  have hlaid := h.laid hd
  have hskel := skeletal_ground hd.nonempty vs
  cases o with
  | value n =>
    obtain ⟨u, w, heq, -⟩ := List.lookup_eq_some_iff.mp (Names.operand_value_eq_ok_iff.mp hx)
    have hmem : (n, x) ∈ (d.names (d.ground vs).nodes.size).values := by
      rw [← Definition.table, heq]
      exact List.mem_append_right _ List.mem_cons_self
    rcases mem_values.mp hmem with hparam | ⟨k, l, hl, hn, rfl⟩
    · have hnode := h.node_param hd hparam
      refine ⟨?_, .inr (Func.mem_valueIds.mpr (.inl ?_))⟩
      · simp [Func.operandOf, Func.constant?, Func.instr, Func.nameOf, hnode, Instr.constant?,
          Operand.normalize]
      · rw [hlaid.head.params, hskel.params, mem_idsFrom]
        have := (List.getElem?_eq_some_iff.mp hparam).1
        omega
    · obtain ⟨b, hstands, hmem⟩ := hlaid.line k l hl
      have hkind := (h.means (List.mem_of_getElem? hl)).kind
      rw [← hstands.instr] at hkind
      refine ⟨?_, .inr (Func.mem_valueIds.mpr (.inr ⟨b, ?_⟩))⟩
      · rw [Func.operandOf, Func.constant?, Instr.constant?_of_isLeaf hkind.1, hstands.name n hn]
        rfl
      · refine (h.arranged hd (Func.index_lt_of_mem_instrs hmem)).mem_values hmem ?_
        rw [hkind.2.2, Line.isTerminator, hn]
        rfl
  | literal s =>
    obtain ⟨v, hv, hfind⟩ := Names.operand_literal_eq_ok_iff.mp hx
    obtain ⟨hlt, hinstr⟩ := Func.findConstant?_eq_some hfind
    have hconst : f.instr x = .constant v := (congrArg Node.instr (hlaid.old x hlt)).trans hinstr
    refine ⟨?_, .inl ⟨v, hconst⟩⟩
    rw [Func.operandOf, Func.constant?, hconst, Operand.normalize, literalValue_of_readLiteral hv]
    rfl

theorem Assembles.label_eq (ht : (d.table vs).label t = .ok b) : (f.block b).label = t :=
  h.label_block hd (index_lt_of_label ht)

theorem Assembles.lineOf (hl : l ∈ d.lines) (hx : Stands (d.meaning vs) f x b l) :
    f.lineOf x = l.normalize := by
  have hmeans := h.means hl
  have hop {o : Operand} {y : InstrId} (hy : (d.table vs).operand (d.ground vs) o = .ok y) :
      f.operandOf y = o.normalize := (h.operandOf hd hy).1
  have hlabel {t : String} {c : BlockId} (ht : (d.table vs).label t = .ok c) :
      (f.block c).label = t := h.label_eq hd ht
  rw [← hx.instr] at hmeans
  rw [Func.lineOf]
  generalize f.instr x = i at hmeans
  cases hmeans with
  | @phi n sources sources' hsources =>
    have hmap : sources'.map f.sourceOf = sources.map fun s => (s.1.normalize, s.2) := by
      rw [← List.forall₂_eq_eq_eq, List.forall₂_map_left_iff, List.forall₂_map_right_iff]
      refine hsources.flip.imp fun s t hst => ?_
      rw [Func.sourceOf, hop hst.1, hlabel hst.2]
    simp only [hmap, Line.normalize, hx.name n rfl]
  | @arith n _ _ _ _ _ hy hz =>
    simp only [Line.normalize, hx.name n rfl, hop hy, hop hz]
  | @neg n _ _ hy => simp only [Line.normalize, hx.name n rfl, hop hy]
  | @compare n _ _ _ _ _ hy hz => simp only [Line.normalize, hx.name n rfl, hop hy, hop hz]
  | jump ht => simp only [Line.normalize, hlabel ht]
  | branch hc ht he => simp only [Line.normalize, hop hc, hlabel ht, hlabel he]
  | ret => rfl
  | retValue hy => simp only [Line.normalize, Option.map_some, hop hy]

theorem Assembles.stands_of_section (hs : d.sections[b.index]? = some s)
    (hx : x ∈ (f.block b).instrs) : ∃ l ∈ s.lines, Stands (d.meaning vs) f x b l :=
  exists_left_of_forall₂ (R := flip fun x l => Stands (d.meaning vs) f x b l)
    ((h.laid hd).listed b.index s hs).flip hx

theorem Assembles.stands_of_mem (hx : x ∈ (f.block b).instrs) :
    ∃ l ∈ d.lines, Stands (d.meaning vs) f x b l := by
  have hb : b.index < d.sections.length := h.size_blocks hd ▸ Func.index_lt_of_mem_instrs hx
  have hs := List.getElem?_eq_getElem hb
  obtain ⟨l, hl, hstands⟩ := h.stands_of_section hd hs hx
  exact ⟨l, List.mem_flatMap.mpr ⟨_, List.mem_of_getElem? hs, hl⟩, hstands⟩

theorem Assembles.closed : f.Closed := by
  intro b x hx y hy
  obtain ⟨l, hl, hstands⟩ := h.stands_of_mem hd hx
  rw [hstands.instr] at hy
  obtain ⟨o, -, ho⟩ := exists_left_of_forall₂ (h.means hl).operands hy
  exact (h.operandOf hd ho).2

theorem Assembles.params_eq : f.params = idsFrom 0 d.params.length :=
  (h.laid hd).head.params.trans (skeletal_ground hd.nonempty vs).params

/-- The function says what its definition says. -/
theorem Assembles.listing_eq : f.listing = d.normalize := by
  have hhead := (h.laid hd).head
  have hskel := skeletal_ground hd.nonempty vs
  have hparams : f.params.map f.nameOf = d.params := by
    rw [h.params_eq hd, ← List.forall₂_eq_eq_eq, List.forall₂_map_left_iff]
    refine forall₂_idsFrom fun k p hp => ?_
    rw [Nat.zero_add, Func.nameOf, h.node_param hd hp]
  have hsections : f.blockIds.map f.sectionOf = d.sections.map Section.normalize := by
    apply List.ext_getElem
    · simp [Func.blockIds, h.size_blocks hd]
    · intro i hi hi'
      rw [List.length_map] at hi'
      have hs := List.getElem?_eq_getElem hi'
      have hlabel : (f.block ⟨i⟩).label = d.sections[i].label :=
        h.label_block hd (by simp [Definition.labels, hs])
      have hlines : (f.block ⟨i⟩).instrs.map f.lineOf = d.sections[i].lines.map Line.normalize := by
        have hlisted := (List.forall₂_and_left (p := (· ∈ d.lines)) _ _).mpr
          ⟨fun l hl => List.mem_flatMap.mpr ⟨_, List.mem_of_getElem? hs, hl⟩,
            List.Forall₂.flip (R := flip fun x l => Stands (d.meaning vs) f x ⟨i⟩ l)
              ((h.laid hd).listed i _ hs)⟩
        have heq : List.Forall₂ (· = ·) (d.sections[i].lines.map Line.normalize)
            ((f.block ⟨i⟩).instrs.map f.lineOf) :=
          List.forall₂_map_left_iff.mpr (List.forall₂_map_right_iff.mpr
            (hlisted.imp fun l x hx => (h.lineOf hd hx.1 hx.2).symm))
        rw [List.forall₂_eq_eq_eq] at heq
        exact heq.symm
      simp only [Func.blockIds, List.getElem_map, List.getElem_range, Func.sectionOf,
        Section.normalize, hlabel, hlines]
  rw [Func.listing, hparams, hsections, hhead.name, hhead.returns, hskel.name, hskel.returns]
  rfl

theorem Assembles.printable : f.Printable where
  params p hp := by
    rw [h.params_eq hd, mem_idsFrom] at hp
    have hk : p.index < d.params.length := by omega
    rw [Func.constant?, Func.instr, h.node_param hd (List.getElem?_eq_getElem hk)]
    rfl
  listed b x hx := by
    obtain ⟨l, hl, hstands⟩ := h.stands_of_mem hd hx
    rw [hstands.instr]
    exact (h.means hl).kind.1
  preds b hb := by
    rw [h.size_blocks hd] at hb
    have hlabel : d.labels[b.index]? = some d.sections[b.index].label := by
      simp [Definition.labels, hb]
    have hfilter : ∀ t ∈ d.sections.zipIdx,
        (decide (b ∈ t.1.lines.flatMap fun l => (d.meaning vs l).targets)) =
          decide (d.sections[b.index].label ∈ t.1.lines.flatMap Line.targets) := fun t ht => by
      rw [decide_eq_decide, List.mem_flatMap, List.mem_flatMap]
      refine exists_congr fun l => and_congr_right fun hl => h.mem_targets_iff ?_ hlabel
      exact List.mem_flatMap.mpr ⟨t.1, List.fst_mem_of_mem_zipIdx ht, hl⟩
    rw [h.listing_eq hd, preds_normalize, h.label_block hd hlabel, (h.laid hd).preds,
      Definition.preds, List.filter_congr hfilter, List.map_map]
    rfl

end Says

end Definition

end Listing

end LoopBounds
