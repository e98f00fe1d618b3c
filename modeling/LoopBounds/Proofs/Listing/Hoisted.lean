import LoopBounds.Proofs.Listing.Writable
import LoopBounds.Proofs.Range.Hoisting

/-!
# Functions with hoisted bounds can be written

Hoisting adds constants and named instructions to a function. A generated name is free, and
the code uses only what the loop values fetch, namely constants and values with a name. So a
function that can be written can still be written afterwards.
-/

namespace LoopBounds

open Listing

namespace Func

variable {f g : Func} {b p : BlockId} {x y : InstrId} {i : Instr}

section Names

/-- A generated name is free: there are more numbers to try than names. -/
theorem usesName_freshTemporary (f : Func) :
    f.usesName (temporaryName f.freshTemporary) = false := by
  set candidates := (List.range (f.names.length + 1)).map (f.temporaries + 1 + ·)
    with hcandidates
  have hnodup : (candidates.map temporaryName).Nodup := by
    refine (List.nodup_range.map fun j k h => ?_).map temporaryName_injective
    omega
  have hfree : ∃ k ∈ candidates, f.usesName (temporaryName k) = false := by
    by_contra! hused
    have hsub : candidates.map temporaryName ⊆ f.names := by
      intro name hname
      obtain ⟨k, hk, rfl⟩ := List.mem_map.mp hname
      exact of_decide_eq_true (Bool.not_eq_false _ ▸ hused k hk)
    have hlength := (hnodup.subperm hsub).length_le
    simp [hcandidates] at hlength
  obtain ⟨k, hk, hfree⟩ := hfree
  rw [freshTemporary, ← hcandidates]
  cases hfind : candidates.find? fun k => !f.usesName (temporaryName k) with
  | none =>
    have := List.find?_eq_none.mp hfind k hk
    simp [hfree] at this
  | some j => simpa using List.find?_some hfind

theorem nameOf_ne_freshTemporary (hx : x.index < f.nodes.size) :
    f.nameOf x ≠ temporaryName f.freshTemporary := by
  intro heq
  have hused := usesName_nameOf hx
  rw [heq, usesName_freshTemporary] at hused
  cases hused

end Names

section Growth

theorem index_lt_of_mem_valueIds (hf : f.Writable) (hx : x ∈ f.valueIds) :
    x.index < f.nodes.size := by
  rcases mem_valueIds.mp hx with hx | ⟨b, hx⟩
  · obtain ⟨k, hk⟩ := hf.param x hx
    exact index_lt_of_isLeaf (by rw [hk]; rfl)
  · exact hf.filled b x (List.mem_append_left _ hx)

theorem index_lt_of_named (hf : f.Writable) (hx : f.Named x) : x.index < f.nodes.size := by
  rcases hx with ⟨v, hv⟩ | hx
  · exact index_lt_of_isLeaf (by rw [hv]; rfl)
  · exact index_lt_of_mem_valueIds hf hx

variable (hfg : f.Extends g)

include hfg

theorem Extends.valueIds_subset : f.valueIds ⊆ g.valueIds := by
  intro x hx
  rw [mem_valueIds] at hx ⊢
  rw [hfg.params]
  exact hx.imp_right fun ⟨b, hx⟩ => ⟨b, hfg.values_subset b hx⟩

theorem Extends.named (hx : f.Named x) (hlt : x.index < f.nodes.size) : g.Named x := by
  rw [Named, hfg.instr hlt]
  exact hx.imp_right fun hx => hfg.valueIds_subset hx

theorem Extends.blockIds : g.blockIds = f.blockIds := by
  rw [Func.blockIds, Func.blockIds, hfg.blocks]

theorem Extends.label (b : BlockId) : (g.block b).label = (f.block b).label := by
  obtain ⟨code, hcode⟩ := hfg.block b
  rw [hcode.block]

theorem Extends.preds (b : BlockId) : (g.block b).preds = (f.block b).preds := by
  obtain ⟨code, hcode⟩ := hfg.block b
  rw [hcode.block]

theorem Extends.mem_targets_iff (hfill : f.Filled) {t : BlockId} :
    (∃ x ∈ (g.block b).instrs, t ∈ (g.instr x).targets) ↔
      ∃ x ∈ (f.block b).instrs, t ∈ (f.instr x).targets := by
  constructor
  · rintro ⟨x, hx, ht⟩
    rcases hfg.mem_instrs hx with hx | ⟨-, -, -, hcode, -⟩
    · exact ⟨x, hx, hfg.instr (hfill b x hx) ▸ ht⟩
    · rw [hcode.targets] at ht
      cases ht
  · rintro ⟨x, hx, ht⟩
    refine ⟨x, ?_, (hfg.instr (hfill b x hx)).symm ▸ ht⟩
    rcases List.mem_append.mp hx with hx | hx
    · exact List.mem_append_left _ (hfg.values_subset b hx)
    · exact List.mem_append_right _ (hfg.terminator b ▸ hx)

theorem Extends.preds_listing (hfill : f.Filled) (label : String) :
    g.listing.preds label = f.listing.preds label := by
  rw [Func.preds_listing, Func.preds_listing, hfg.blockIds]
  refine congrArg _ (List.filter_congr fun b _ => decide_eq_decide.mpr ?_)
  have htargets (h : Func) : (label ∈ (h.block b).instrs.flatMap fun x =>
      (h.instr x).targets.map fun t => (f.block t).label) ↔
        ∃ t, (∃ x ∈ (h.block b).instrs, t ∈ (h.instr x).targets) ∧ (f.block t).label = label := by
    simp only [List.mem_flatMap, List.mem_map]
    constructor
    · rintro ⟨x, hx, t, ht, hlabel⟩
      exact ⟨t, ⟨x, hx, ht⟩, hlabel⟩
    · rintro ⟨t, ⟨x, hx, ht⟩, hlabel⟩
      exact ⟨x, hx, t, ht, hlabel⟩
  simp only [hfg.label]
  rw [htargets, htargets]
  simp only [hfg.mem_targets_iff hfill]

theorem Extends.phisFit (hfill : f.Filled) (h : f.PhisFit (f.block b)) : g.PhisFit (g.block b) := by
  intro x hx
  rw [hfg.phis] at hx
  have hlt := hfill b x (List.mem_append_left _ (List.mem_append_left _ hx))
  rw [hfg.instr hlt, hfg.preds]
  exact h x hx

theorem Extends.arranged (hfill : f.Filled) (h : f.Arranged (f.block b)) :
    g.Arranged (g.block b) where
  phi x hx := by
    rw [hfg.phis] at hx
    rw [hfg.instr (hfill b x (List.mem_append_left _ (List.mem_append_left _ hx)))]
    exact h.phi x hx
  body x hx := by
    obtain ⟨code, hcode⟩ := hfg.block b
    rw [hcode.block] at hx
    rcases List.mem_append.mp hx with hx | hx
    · rw [hfg.instr (hfill b x (List.mem_append_left _ (List.mem_append_right _ hx)))]
      exact h.body x hx
    · exact (hcode.isCode x hx).kind
  terminator := by
    obtain ⟨y, hy, hterm⟩ := h.terminator
    refine ⟨y, (hfg.terminator b).trans hy, ?_⟩
    rwa [hfg.instr (hfill b y (List.mem_append_right _ (Option.mem_toList.mpr hy)))]

/-- A function that has grown can be written if the new names are names and are free, and if the
code uses only what has a name or is constant. -/
theorem Extends.writable (hf : f.Writable) (hnames : (g.valueIds.map g.nameOf).Nodup)
    (hisName : ∀ x ∈ g.valueIds, IsName (g.nameOf x))
    (hnew : ∀ b, ∀ x ∈ (g.block b).instrs, f.nodes.size ≤ x.index →
      ∀ y ∈ (g.instr x).operands, g.Named y) : g.Writable where
  returns := hfg.returns ▸ hf.returns
  name := hfg.name ▸ hf.name
  nonempty := hfg.blocks ▸ hf.nonempty
  filled := hfg.filled hf.filled
  param p hp := by
    obtain ⟨k, hk⟩ := hf.param p (hfg.params ▸ hp)
    exact ⟨k, (hfg.instr (index_lt_of_isLeaf (by rw [hk]; rfl))).trans hk⟩
  arranged b hb := hfg.arranged hf.filled (hf.arranged b (hfg.blocks ▸ hb))
  closed b x hx y hy := by
    rcases hfg.mem_instrs hx with hold | ⟨hnew', -⟩
    · rw [hfg.instr (hf.filled b x hold)] at hy
      have hnamed := hf.closed b x hold y hy
      exact hfg.named hnamed (index_lt_of_named hf hnamed)
    · exact hnew b x hx hnew' y hy
  names := hnames
  isName := hisName
  labels := by
    simp only [hfg.blockIds, hfg.label]
    exact hf.labels
  isLabel b hb := hfg.label b ▸ hf.isLabel b (hfg.blocks ▸ hb)
  targets b x hx t ht := by
    obtain ⟨y, hy, ht⟩ := (hfg.mem_targets_iff hf.filled).mp ⟨x, hx, ht⟩
    exact hfg.blocks ▸ hf.targets b y hy t ht
  preds b hb := by
    rw [hfg.preds, hfg.label, hfg.preds_listing hf.filled]
    exact hf.preds b (hfg.blocks ▸ hb)
  sources b x hx := by
    rw [hfg.phis] at hx
    rw [hfg.instr (hf.filled b x (List.mem_append_left _ (List.mem_append_left _ hx)))]
    exact hf.sources b x hx
  fits b hb := hfg.phisFit hf.filled (hf.fits b (hfg.blocks ▸ hb))

end Growth

section Steps

theorem valueIds_addConstant (f : Func) (v : Int32) :
    (f.addConstant v).2.valueIds = f.valueIds := by
  unfold addConstant
  split <;> rfl

/-- A new constant has no line, so nothing changes. -/
theorem Writable.addConstant (hf : f.Writable) (v : Int32) : (f.addConstant v).2.Writable := by
  have hext := extends_addConstant f v
  have hname : ∀ x ∈ f.valueIds, (f.addConstant v).2.nameOf x = f.nameOf x := fun x hx =>
    congrArg Node.name (hext.node x (index_lt_of_mem_valueIds hf hx))
  refine hext.writable hf ?_ (fun x hx => ?_) fun b x hx hlt => ?_
  · rw [valueIds_addConstant, List.map_congr_left hname]
    exact hf.names
  · rw [valueIds_addConstant] at hx
    rw [hname x hx]
    exact hf.isName x hx
  · rw [block, blocks_addConstant, ← block] at hx
    exact absurd (hf.filled b x hx) (Nat.not_lt.mpr hlt)

theorem valueIds_addInstr_perm (hp : p.index < f.blocks.size) :
    (f.addInstr p none i).valueIds.Perm (f.nextId :: f.valueIds) := by
  have hblock (b : BlockId) : ((f.addInstr p none i).block b).values =
      if b = p then (f.block b).values ++ [f.nextId] else (f.block b).values := by
    rw [block_addInstr]
    split_ifs with h hb hb
    · simp [Block.values]
    · exact absurd h.1.symm hb
    · exact absurd ⟨hb.symm, hb ▸ hp⟩ h
    · rfl
  have hids : (f.addInstr p none i).blockIds = f.blockIds := by
    simp [blockIds, addInstr]
  have hnodup : f.blockIds.Nodup := List.nodup_range.map fun a b h => BlockId.mk.inj h
  obtain ⟨u, w, heq⟩ := List.append_of_mem (mem_blockIds.mpr hp)
  rw [heq, List.nodup_middle, List.nodup_cons] at hnodup
  have hother {l : List BlockId} (hl : p ∉ l) :
      (l.flatMap fun b => ((f.addInstr p none i).block b).values) =
        l.flatMap fun b => (f.block b).values :=
    List.flatMap_congr fun b hb => by
      rw [hblock, if_neg]
      rintro rfl
      exact hl hb
  have hparams : (f.addInstr p none i).params = f.params := rfl
  simp only [valueIds, hparams, hids, heq, List.flatMap_append, List.flatMap_cons,
    hother fun h => hnodup.1 (List.mem_append_left _ h),
    hother fun h => hnodup.1 (List.mem_append_right _ h), hblock p, if_pos]
  rw [List.append_assoc (f.block p).values, List.singleton_append, ← List.append_assoc,
    ← List.append_assoc, ← List.append_assoc, ← List.append_assoc]
  exact List.perm_middle

theorem Writable.addInstr (hf : f.Writable) (hp : p.index < f.blocks.size) (hi : i.IsCode)
    (hops : ∀ y ∈ i.operands, f.Named y) : (f.addInstr p none i).Writable := by
  have hext := extends_addInstr f p none hi
  have hperm := f.valueIds_addInstr_perm (i := i) hp
  have hold : ∀ x ∈ f.valueIds, (f.addInstr p none i).nameOf x = f.nameOf x := fun x hx =>
    congrArg Node.name (hext.node x (index_lt_of_mem_valueIds hf hx))
  have hnew : (f.addInstr p none i).nameOf f.nextId = temporaryName f.freshTemporary := by
    have hnode := node_addNode f p none i f.nextId
    rw [if_pos rfl] at hnode
    exact congrArg Node.name hnode
  have hfree : temporaryName f.freshTemporary ∉ f.valueIds.map f.nameOf := by
    intro hmem
    obtain ⟨x, hx, heq⟩ := List.mem_map.mp hmem
    exact nameOf_ne_freshTemporary (index_lt_of_mem_valueIds hf hx) heq
  refine hext.writable hf ?_ (fun x hx => ?_) fun b x hx hlt y hy => ?_
  · rw [(hperm.map _).nodup_iff, List.map_cons, hnew, List.map_congr_left hold]
    exact List.nodup_cons.mpr ⟨hfree, hf.names⟩
  · rcases List.mem_cons.mp (hperm.mem_iff.mp hx) with rfl | hx
    · exact hnew ▸ isName_temporaryName _
    · exact hold x hx ▸ hf.isName x hx
  · obtain rfl : x = f.nextId := by
      have hlt' := (hext.filled hf.filled) b x hx
      rw [nodes_size_addInstr] at hlt'
      exact eq_nextId (Nat.not_lt.mpr hlt) hlt'
    have hinstr : (f.addInstr p none i).instr f.nextId = i := instr_addNode_nextId (f := f)
    rw [hinstr] at hy
    exact hext.named (hops y hy) (index_lt_of_named hf (hops y hy))

end Steps

def GrownWritable (f g : Func) : Prop := f.Extends g ∧ g.Writable

theorem rule_writable (hp : p.index < f.blocks.size) :
    Emit.Rule p (GrownWritable f) fun g y => g.Named y where
  constant g v hg := by
    have hext := extends_addConstant g v
    refine ⟨⟨hg.1.trans hext, hg.2.addConstant v⟩, hext, ?_⟩
    intro x hx
    obtain rfl := Option.some.inj hx
    exact .inl ⟨v, instr_addConstant g v⟩
  append g i hg hi hops := by
    have hext := extends_addInstr g p none hi
    have hp' : p.index < g.blocks.size := hg.1.blocks ▸ hp
    refine ⟨⟨hg.1.trans hext, hg.2.addInstr hp' hi hops⟩, hext, ?_⟩
    intro x hx
    obtain rfl := Option.some.inj hx
    exact .inr ((valueIds_addInstr_perm hp').mem_iff.mpr List.mem_cons_self)
  mono g g' y hg hext hy := hext.named hy (index_lt_of_named hg.2 hy)

/-- All that a stored descriptor fetches has a name or is constant. -/
theorem Writable.fetchesOnly_named (hw : f.Writable) {l : LoopId} {d : Descriptor}
    (h : (Analysis.ofFunc f).stored? l x = some d) : d.FetchesOnly f.Named := by
  refine Analysis.fetchesOnly_of_stored? (fun x hx y hy => ?_) hw.closed h
  rcases hx with ⟨v, hv⟩ | hx
  · rw [hv] at hy
    cases hy
  · rcases mem_valueIds.mp hx with hparam | ⟨b, hb⟩
    · obtain ⟨k, hk⟩ := hw.param x hparam
      rw [hk] at hy
      cases hy
    · exact hw.closed b x (List.mem_append_left _ hb) y hy

theorem Writable.hoistBounds (hw : f.Writable) (hf : f.Linked) : f.hoistBounds.1.Writable := by
  refine (keeps_hoistBounds hf hw.filled (fun g hg => hg.1)
    (fun l p hp => rule_writable (Analysis.index_lt_of_preheader hf.toCoherent hp))
    (fun l x d h y hy g hg => ?_) (⟨extends_refl f, hw⟩ : GrownWritable f f)).2
  have hnamed := hw.fetchesOnly_named h y hy
  exact hg.1.named hnamed (index_lt_of_named hw hnamed)

/-- A parsed function is found again in its own text, and with hoisted bounds it is parsed from
its text to a function with the same text. -/
theorem parse_text_and_hoisted {text : String} {fs : List Func} (h : parse text = .ok fs)
    (hf : f ∈ fs) : parse f.text = .ok [f] ∧
      ∃ g, parse f.hoistBounds.1.text = .ok [g] ∧ g.text = f.hoistBounds.1.text :=
  ⟨parse_text h hf,
    ((writable_of_parse h hf).hoistBounds (linked_of_parse h hf)).parse_text⟩

end Func

/-- What the only function of a text is like can be worked out from the characters. -/
theorem Func.exists_parsed {text : String} {chars : List Char} (htext : text = String.ofList chars)
    {P : Func → Prop} [DecidablePred P]
    (h : ((Reader.program.read chars).bind fun r => (r.1.mapM Definition.resolve).toOption).any
      (fun fs => fs.length = 1 ∧ ∀ f ∈ fs, P f) = true) :
    ∃ f, parse text = .ok [f] ∧ P f := by
  obtain ⟨fs, hfs, hcheck⟩ := (Option.any_eq_true _ _).mp h
  obtain ⟨hlength, hP⟩ := of_decide_eq_true hcheck
  obtain ⟨f, rfl⟩ := List.length_eq_one_iff.mp hlength
  obtain ⟨⟨ds, rest⟩, hread, hok⟩ := Option.bind_eq_some_iff.mp hfs
  refine ⟨f, ?_, hP f (List.mem_singleton_self f)⟩
  rw [parse, read?_of_eq htext, hread]
  dsimp only [Option.map_some]
  cases hresolve : ds.mapM Definition.resolve with
  | error e =>
    rw [hresolve] at hok
    cases hok
  | ok gs =>
    rw [hresolve] at hok
    exact congrArg Except.ok (Option.some.inj hok)

/-- A loop that counts up to the argument. -/
def countingText : String :=
  "define i32 @counting(i32 %n) \x7b
entry:
  br label %header
header:
  %i = phi i32 [ 0, %entry ], [ %next, %body ]
  %test = icmp slt i32 %i, %n
  br i1 %test, label %body, label %exit
body:
  %next = add i32 %i, 1
  br label %header
exit:
  ret i32 %i
\x7d
"

/-- The bounds of the counter are hoisted, and both functions survive printing. -/
theorem counting_text_and_hoisted : ∃ f, Func.parse countingText = .ok [f] ∧
    f.hoistBounds.1 ≠ f ∧ Func.parse f.text = .ok [f] ∧
      ∃ g, Func.parse f.hoistBounds.1.text = .ok [g] ∧ g.text = f.hoistBounds.1.text := by
  obtain ⟨f, hparse, hhoisted⟩ :=
    Func.exists_parsed (rfl : countingText = _) (P := fun f => f.hoistBounds.1 ≠ f)
      (by decide +kernel)
  exact ⟨f, hparse, hhoisted, Func.parse_text_and_hoisted hparse (List.mem_singleton_self f)⟩

end LoopBounds
