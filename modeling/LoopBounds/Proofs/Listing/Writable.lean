import LoopBounds.Proofs.Func.Coherent
import LoopBounds.Proofs.Listing.Consistency
import LoopBounds.Proofs.Listing.Roundtrip

/-!
# Functions that can be written

A function that has been parsed has distinct names for its values and distinct labels, and its
lines use nothing else. Any function like that is parsed again from its text, and the function
that is found has the same text.
-/

namespace LoopBounds

open Listing

namespace Func

/-- Values and blocks have distinct names, and what is used has a name or is a constant. The
blocks are arranged, and the edges are those of the terminators. -/
structure Writable (f : Func) : Prop where
  returns : f.returns ≠ .i1
  name : IsName f.name
  nonempty : 0 < f.blocks.size
  filled : f.Filled
  param : ∀ p ∈ f.params, ∃ k, f.instr p = .param k
  arranged : ∀ b, b.index < f.blocks.size → f.Arranged (f.block b)
  closed : f.Closed
  names : (f.valueIds.map f.nameOf).Nodup
  isName : ∀ x ∈ f.valueIds, IsName (f.nameOf x)
  labels : (f.blockIds.map fun b => (f.block b).label).Nodup
  isLabel : ∀ b, b.index < f.blocks.size → IsName (f.block b).label
  targets : ∀ b, ∀ x ∈ (f.block b).instrs, ∀ t ∈ (f.instr x).targets, t.index < f.blocks.size
  preds : ∀ b, b.index < f.blocks.size →
    (f.block b).preds.map BlockId.index = f.listing.preds (f.block b).label
  sources : ∀ b, ∀ x ∈ (f.block b).phis, f.instr x ≠ .phi []
  fits : ∀ b, b.index < f.blocks.size → f.PhisFit (f.block b)

variable {f : Func} {bb : Block} {b : BlockId} {x y : InstrId}

theorem mem_blockIds : b ∈ f.blockIds ↔ b.index < f.blocks.size := by
  simp only [blockIds, List.mem_map, List.mem_range]
  constructor
  · rintro ⟨i, hi, rfl⟩
    exact hi
  · exact fun h => ⟨b.index, h, rfl⟩

section Lines

theorem operands_lineOf (f : Func) (x : InstrId) :
    (f.lineOf x).operands = (f.instr x).operands.map f.operandOf := by
  unfold lineOf
  cases f.instr x with
  | phi sources => simp [Line.operands, Instr.operands, sourceOf]
  | ret value => cases value <;> rfl
  | _ => rfl

theorem targets_lineOf (f : Func) (x : InstrId) :
    (f.lineOf x).targets = (f.instr x).targets.map fun t => (f.block t).label := by
  unfold lineOf
  cases f.instr x <;> rfl

theorem isPhi_lineOf (f : Func) (x : InstrId) : (f.lineOf x).isPhi = (f.instr x).isPhi := by
  unfold lineOf
  cases f.instr x <;> rfl

theorem defines?_lineOf (hleaf : (f.instr x).isLeaf = false)
    (hterm : (f.instr x).isTerminator = false) : (f.lineOf x).defines? = some (f.nameOf x) := by
  unfold lineOf
  cases h : f.instr x with
  | constant | param =>
    rw [h] at hleaf
    cases hleaf
  | jump | branch | ret =>
    rw [h] at hterm
    cases hterm
  | _ => rfl

theorem defines?_lineOf_of_isTerminator (hterm : (f.instr x).isTerminator = true) :
    (f.lineOf x).defines? = none := by
  unfold lineOf
  cases h : f.instr x with
  | jump | branch | ret => rfl
  | _ =>
    rw [h] at hterm
    cases hterm

theorem operandOf_of_named (hx : f.Named x) :
    (∃ v : Int32, f.operandOf x = .literal (toString v.toInt)) ∨
      f.operandOf x = .value (f.nameOf x) ∧ x ∈ f.valueIds := by
  rw [operandOf]
  cases hv : f.constant? x with
  | some v => exact .inl ⟨v, rfl⟩
  | none =>
    refine .inr ⟨rfl, hx.resolve_left ?_⟩
    rintro ⟨v, hconst⟩
    rw [constant?, hconst] at hv
    cases hv

/-- Literals are already in the form in which integers are printed. -/
theorem normalize_operandOf (f : Func) (x : InstrId) :
    (f.operandOf x).normalize = f.operandOf x := by
  unfold operandOf
  cases f.constant? x with
  | none => rfl
  | some v => simp only [Operand.normalize, literalValue_toString]

theorem normalize_lineOf (f : Func) (x : InstrId) : (f.lineOf x).normalize = f.lineOf x := by
  unfold lineOf
  cases f.instr x with
  | phi sources => simp [Line.normalize, sourceOf, normalize_operandOf]
  | ret value => cases value <;> simp [Line.normalize, normalize_operandOf]
  | _ => simp [Line.normalize, normalize_operandOf]

theorem normalize_listing (f : Func) : f.listing.normalize = f.listing := by
  simp [Definition.normalize, listing, Section.normalize, sectionOf, normalize_lineOf]

theorem labels_listing (f : Func) :
    f.listing.labels = f.blockIds.map fun b => (f.block b).label := by
  simp [Definition.labels, listing, sectionOf, Function.comp_def]

theorem lines_listing (f : Func) :
    f.listing.lines = f.blockIds.flatMap fun b => (f.block b).instrs.map f.lineOf := by
  rw [Definition.lines, listing, List.flatMap_map]
  rfl

theorem mem_lines_listing {l : Line} :
    l ∈ f.listing.lines ↔ ∃ b, ∃ x ∈ (f.block b).instrs, f.lineOf x = l := by
  simp only [lines_listing, List.mem_flatMap, List.mem_map, mem_blockIds]
  constructor
  · rintro ⟨b, -, h⟩
    exact ⟨b, h⟩
  · rintro ⟨b, x, hx, h⟩
    exact ⟨b, index_lt_of_mem_instrs hx, x, hx, h⟩

theorem getElem?_labels_listing (hb : b.index < f.blocks.size) :
    f.listing.labels[b.index]? = some (f.block b).label := by
  simp [labels_listing, blockIds, hb]

theorem mem_labels_listing (hb : b.index < f.blocks.size) :
    (f.block b).label ∈ f.listing.labels := List.mem_of_getElem? (getElem?_labels_listing hb)

theorem preds_listing (f : Func) (label : String) : f.listing.preds label =
    (f.blockIds.filter fun b => label ∈ ((f.block b).instrs.flatMap fun x =>
      (f.instr x).targets.map fun t => (f.block t).label)).map BlockId.index := by
  rw [Definition.preds, listing, List.zipIdx_map, zipIdx_blockIds, List.map_map, List.filter_map,
    List.map_map]
  simp only [Function.comp_def, Prod.map, id, sectionOf, List.flatMap_map, targets_lineOf]

end Lines

section Arranged

theorem Arranged.isLeaf (h : f.Arranged bb) (hx : x ∈ bb.instrs) : (f.instr x).isLeaf = false := by
  have hkind {i : Instr} (hi : i.isPhi = true ∨ i.isTerminator = true) : i.isLeaf = false := by
    cases i with
    | constant | param => simp [Instr.isPhi, Instr.isTerminator] at hi
    | _ => rfl
  rcases List.mem_append.mp hx with hx | hx
  · rcases List.mem_append.mp hx with hx | hx
    · exact hkind (.inl (h.phi x hx))
    · exact (h.body x hx).2.2
  · obtain ⟨y, hy, hterm⟩ := h.terminator
    rw [hy, Option.mem_toList] at hx
    exact hkind (.inr (Option.some.inj hx ▸ hterm))

theorem Arranged.isTerminator_of_mem_values (h : f.Arranged bb) (hx : x ∈ bb.values) :
    (f.instr x).isTerminator = false := by
  rcases List.mem_append.mp hx with hx | hx
  · have hphi := h.phi x hx
    cases hi : f.instr x with
    | phi => rfl
    | _ =>
      rw [hi] at hphi
      cases hphi
  · exact (h.body x hx).2.1

theorem Arranged.mem_phis (h : f.Arranged bb) (hx : x ∈ bb.instrs)
    (hphi : (f.instr x).isPhi = true) : x ∈ bb.phis := by
  rcases List.mem_append.mp hx with hx | hx
  · refine (List.mem_append.mp hx).resolve_right fun hx => ?_
    rw [(h.body x hx).1] at hphi
    cases hphi
  · obtain ⟨y, hy, hterm⟩ := h.terminator
    rw [hy, Option.mem_toList] at hx
    obtain rfl := Option.some.inj hx
    cases hi : f.instr y with
    | phi =>
      rw [hi] at hterm
      cases hterm
    | _ =>
      rw [hi] at hphi
      cases hphi

theorem Arranged.filterMap_defines? (h : f.Arranged bb) :
    (bb.instrs.map f.lineOf).filterMap Line.defines? = bb.values.map f.nameOf := by
  obtain ⟨y, hy, hterm⟩ := h.terminator
  have hvalues : (bb.values.map f.lineOf).filterMap Line.defines? = bb.values.map f.nameOf := by
    rw [List.filterMap_map, ← List.filterMap_eq_map]
    refine List.filterMap_congr fun x hx => defines?_lineOf ?_ (h.isTerminator_of_mem_values hx)
    exact h.isLeaf (List.mem_append_left _ hx)
  rw [Block.instrs, hy, List.map_append, List.filterMap_append]
  simp only [Option.toList_some, List.map_cons, List.map_nil,
    List.filterMap_cons_none (defines?_lineOf_of_isTerminator hterm), List.filterMap_nil,
    List.append_nil]
  exact hvalues

theorem valueNames_listing (h : ∀ b, b.index < f.blocks.size → f.Arranged (f.block b)) :
    f.listing.valueNames = f.valueIds.map f.nameOf := by
  rw [Definition.valueNames, lines_listing, List.filterMap_flatMap, valueIds, List.map_append,
    List.map_flatMap]
  exact congrArg (_ ++ ·)
    (List.flatMap_congr fun b hb => (h b (mem_blockIds.mp hb)).filterMap_defines?)

end Arranged

section Written

variable (h : f.Writable)

include h

theorem Writable.constant?_param (hx : x ∈ f.params) : f.constant? x = none := by
  obtain ⟨k, hk⟩ := h.param x hx
  rw [constant?, hk]
  rfl

theorem Writable.isLeaf (hx : x ∈ (f.block b).instrs) : (f.instr x).isLeaf = false :=
  (h.arranged b (index_lt_of_mem_instrs hx)).isLeaf hx

theorem Writable.printable : f.Printable where
  params _ hp := h.constant?_param hp
  listed _ _ hx := h.isLeaf hx
  preds := h.preds

theorem Writable.wellFormed_operandOf (hx : f.Named x) : (f.operandOf x).WellFormed := by
  rcases operandOf_of_named hx with ⟨v, heq⟩ | ⟨heq, hmem⟩
  · rw [heq]
    exact isLiteral_toString _
  · rw [heq]
    exact h.isName x hmem

theorem Writable.source_lt (hx : x ∈ (f.block b).phis) {sources : List (InstrId × BlockId)}
    (hphi : f.instr x = .phi sources) {s : InstrId × BlockId} (hs : s ∈ sources) :
    s.2.index < f.blocks.size := by
  have hb := index_lt_of_mem_instrs (List.mem_append_left _ (List.mem_append_left _ hx))
  obtain ⟨sources', hphi', hpreds, -⟩ := h.fits b hb x hx
  obtain rfl := Instr.phi.inj (hphi.symm.trans hphi')
  have hmem := List.mem_map_of_mem (f := BlockId.index) (hpreds s hs)
  rw [h.preds b hb, preds_listing] at hmem
  obtain ⟨c, hc, heq⟩ := List.mem_map.mp hmem
  exact heq ▸ mem_blockIds.mp (List.mem_of_mem_filter hc)

theorem Writable.wellFormed_lineOf (hx : x ∈ (f.block b).instrs) : (f.lineOf x).WellFormed := by
  have harr := h.arranged b (index_lt_of_mem_instrs hx)
  have hoperand {y : InstrId} (hy : y ∈ (f.instr x).operands) : (f.operandOf y).WellFormed :=
    h.wellFormed_operandOf (h.closed b x hx y hy)
  have hlabel {t : BlockId} (ht : t ∈ (f.instr x).targets) : IsName (f.block t).label :=
    h.isLabel t (h.targets b x hx t ht)
  have hname (hterm : (f.instr x).isTerminator = false) : IsName (f.nameOf x) :=
    h.isName x (mem_valueIds.mpr (.inr ⟨b, harr.mem_values hx hterm⟩))
  have hleaf := harr.isLeaf hx
  unfold lineOf
  cases hi : f.instr x with
  | constant | param =>
    rw [hi] at hleaf
    cases hleaf
  | phi sources =>
    have hmem := harr.mem_phis hx (by rw [hi]; rfl)
    rw [hi] at hoperand hname
    refine ⟨hname rfl, ?_, fun s hs => ?_⟩
    · intro hnil
      exact h.sources b x hmem (by rw [hi, List.map_eq_nil_iff.mp hnil])
    · obtain ⟨s', hs', rfl⟩ := List.mem_map.mp hs
      exact ⟨hoperand (List.mem_map_of_mem hs'), h.isLabel _ (h.source_lt hmem hi hs')⟩
  | arith op y z | compare op y z =>
    rw [hi] at hoperand hname
    exact ⟨hname rfl, hoperand (by simp [Instr.operands]), hoperand (by simp [Instr.operands])⟩
  | neg y =>
    rw [hi] at hoperand hname
    exact ⟨hname rfl, hoperand (by simp [Instr.operands])⟩
  | jump t =>
    rw [hi] at hlabel
    exact hlabel (by simp [Instr.targets])
  | branch c t e =>
    rw [hi] at hoperand hlabel
    exact ⟨hoperand (by simp [Instr.operands]), hlabel (by simp [Instr.targets]),
      hlabel (by simp [Instr.targets])⟩
  | ret value =>
    rw [hi] at hoperand
    intro o ho
    obtain ⟨y, hy, rfl⟩ := Option.map_eq_some_iff.mp ho
    exact hoperand (by simpa [Instr.operands] using hy)

theorem Writable.wellFormed : f.listing.WellFormed where
  returns := h.returns
  name := h.name
  params n hn := by
    obtain ⟨p, hp, rfl⟩ := List.mem_map.mp hn
    exact h.isName p (mem_valueIds.mpr (.inl hp))
  nonempty := by
    have hne := h.nonempty.ne'
    simpa [listing, blockIds] using hne
  sections s hs := by
    obtain ⟨b, hb, rfl⟩ := List.mem_map.mp hs
    have hb := mem_blockIds.mp hb
    have harr := h.arranged b hb
    obtain ⟨y, hy, hterm⟩ := harr.terminator
    refine ⟨h.isLabel b hb, List.forall_mem_map.mpr fun x hx => h.wellFormed_lineOf hx,
      (f.block b).phis.map f.lineOf, (f.block b).body.map f.lineOf, f.lineOf y, ?_,
      List.forall_mem_map.mpr fun x hx => ?_, List.forall_mem_map.mpr fun x hx => ?_, ?_⟩
    · simp [sectionOf, Block.instrs, hy]
    · rw [isPhi_lineOf, harr.phi x hx]
    · obtain ⟨hphi, hterm, hleaf⟩ := harr.body x hx
      rw [isPhi_lineOf, Line.isTerminator, defines?_lineOf hleaf hterm]
      exact ⟨hphi, rfl⟩
    · rw [Line.isTerminator, defines?_lineOf_of_isTerminator hterm]
      rfl

theorem Writable.phisFit : f.listing.PhisFit := by
  intro s hs n sources hmem
  obtain ⟨b, hb, rfl⟩ := List.mem_map.mp hs
  have hb := mem_blockIds.mp hb
  obtain ⟨x, hx, heq⟩ := List.mem_map.mp hmem
  have hphi : (f.instr x).isPhi = true := by
    rw [← isPhi_lineOf, heq]
    rfl
  have hx := (h.arranged b hb).mem_phis hx hphi
  obtain ⟨sources', hi, hpreds, hlength⟩ := h.fits b hb x hx
  rw [lineOf, hi] at heq
  obtain ⟨-, rfl⟩ := Line.phi.inj heq
  rw [Definition.Fits, sectionOf, ← h.preds b hb]
  refine ⟨by simp [hlength], fun t ht => ?_⟩
  obtain ⟨s, hs, rfl⟩ := List.mem_map.mp ht
  exact ⟨s.2.index, List.mem_map_of_mem (hpreds s hs),
    getElem?_labels_listing (h.source_lt hx hi hs)⟩

theorem Writable.consistent : f.listing.Consistent where
  labels := labels_listing f ▸ h.labels
  names := valueNames_listing h.arranged ▸ h.names
  literals l hl s hs := by
    obtain ⟨b, x, hx, rfl⟩ := mem_lines_listing.mp hl
    rw [operands_lineOf] at hs
    obtain ⟨y, hy, heq⟩ := List.mem_map.mp hs
    rcases operandOf_of_named (h.closed b x hx y hy) with ⟨v, hv⟩ | ⟨hv, -⟩
    · rw [hv] at heq
      obtain rfl := Operand.literal.inj heq
      exact ⟨v, readLiteral_toString v⟩
    · rw [hv] at heq
      cases heq
  values l hl n hn := by
    obtain ⟨b, x, hx, rfl⟩ := mem_lines_listing.mp hl
    rw [operands_lineOf] at hn
    obtain ⟨y, hy, heq⟩ := List.mem_map.mp hn
    rcases operandOf_of_named (h.closed b x hx y hy) with ⟨v, hv⟩ | ⟨hv, hmem⟩
    · rw [hv] at heq
      cases heq
    · rw [hv] at heq
      obtain rfl := Operand.value.inj heq
      rw [valueNames_listing h.arranged]
      exact List.mem_map_of_mem hmem
  used l hl t ht := by
    obtain ⟨b, x, hx, rfl⟩ := mem_lines_listing.mp hl
    cases hi : f.instr x with
    | phi sources =>
      have hmem := (h.arranged b (index_lt_of_mem_instrs hx)).mem_phis hx (by rw [hi]; rfl)
      rw [lineOf, hi] at ht
      obtain ⟨s', hs', rfl⟩ := List.mem_map.mp ht
      obtain ⟨s, hs, rfl⟩ := List.mem_map.mp hs'
      exact mem_labels_listing (h.source_lt hmem hi hs)
    | _ =>
      have htarget : t ∈ (f.lineOf x).targets := by
        rw [lineOf, hi] at ht ⊢
        exact ht
      rw [targets_lineOf] at htarget
      obtain ⟨c, hc, rfl⟩ := List.mem_map.mp htarget
      exact mem_labels_listing (h.targets b x hx c hc)
  phis := h.phisFit

/-- The text of a writable function is parsed, and what is found has the same text. -/
theorem Writable.parse_text : ∃ g, parse f.text = .ok [g] ∧ g.text = f.text := by
  obtain ⟨g, hg⟩ := (Definition.exists_resolve_iff h.wellFormed).mpr h.consistent
  obtain ⟨vs, hvs⟩ := resolve_eq_ok_iff.mp hg
  refine ⟨g, parse_text_of_listing h.printable h.wellFormed hg, ?_⟩
  rw [← text_listing (hvs.printable h.wellFormed), hvs.listing_eq h.wellFormed, normalize_listing,
    text_listing h.printable]

end Written

end Func

namespace Listing

variable {d : Definition} {vs : List Int32} {f : Func} {l : Line} {n : String}

theorem Line.WellFormed.isName (h : l.WellFormed) (hn : l.defines? = some n) : IsName n := by
  cases l with
  | phi | arith | neg | compare =>
    obtain rfl := Option.some.inj hn
    exact h.1
  | _ => cases hn

theorem Definition.Resolves.writable (h : d.Resolves vs f) (hd : d.WellFormed) : f.Writable := by
  have hlisting : f.listing = d.normalize := h.listing_eq hd
  have hwell : f.listing.WellFormed := hlisting ▸ hd.normalize
  have harranged : ∀ b, b.index < f.blocks.size → f.Arranged (f.block b) :=
    fun b hb => h.arranged hd hb
  have hsection {b : BlockId} (hb : b.index < f.blocks.size) : (f.sectionOf b).WellFormed :=
    hwell.sections _ (List.mem_map_of_mem (Func.mem_blockIds.mpr hb))
  have hline {b : BlockId} {x : InstrId} (hx : x ∈ (f.block b).instrs) :
      (f.lineOf x).WellFormed :=
    (hsection (Func.index_lt_of_mem_instrs hx)).lines _ (List.mem_map_of_mem hx)
  exact {
    returns := hwell.returns
    name := hwell.name
    nonempty := h.size_blocks hd ▸ List.length_pos_of_ne_nil hd.nonempty
    filled := (h.laid hd).filled
    param := fun p hp => by
      rw [h.params_eq hd, mem_idsFrom] at hp
      have hk : p.index < d.params.length := by omega
      rw [Func.instr, h.node_param hd (List.getElem?_eq_getElem hk)]
      exact ⟨_, rfl⟩
    arranged := harranged
    closed := h.closed hd
    names := by
      rw [← Func.valueNames_listing harranged, hlisting, valueNames, filterMap_defines?_normalize]
      exact h.names
    isName := fun x hx => by
      rcases Func.mem_valueIds.mp hx with hx | ⟨b, hx⟩
      · exact hwell.params _ (List.mem_map_of_mem hx)
      · have hinstrs : x ∈ (f.block b).instrs := List.mem_append_left _ hx
        have harr := harranged b (Func.index_lt_of_mem_instrs hinstrs)
        exact (hline hinstrs).isName
          (Func.defines?_lineOf (harr.isLeaf hinstrs) (harr.isTerminator_of_mem_values hx))
    labels := by
      rw [← Func.labels_listing, hlisting, labels_normalize]
      exact h.labels
    isLabel := fun b hb => (hsection hb).label
    targets := fun b x hx t ht => by
      obtain ⟨l, hl, hstands⟩ := h.stands_of_mem hd hx
      rw [hstands.instr] at ht
      obtain ⟨s, -, hs⟩ := exists_left_of_forall₂ (h.means hl).targets ht
      rw [h.size_blocks hd, ← List.length_map (f := Section.label)]
      exact (List.getElem?_eq_some_iff.mp (index_lt_of_label hs)).1
    preds := (h.printable hd).preds
    sources := fun b x hx hi => by
      have hx' := hline (List.mem_append_left _ (List.mem_append_left _ hx))
      rw [Func.lineOf, hi] at hx'
      exact hx'.2.1 rfl
    fits := fun b hb => (Func.fault?_eq_none_iff.mp h.verified b hb).2 }

end Listing

/-- A parsed function can be written. -/
theorem Func.writable_of_parse {f : Func} {fs : List Func} {text : String}
    (h : parse text = .ok fs) (hf : f ∈ fs) : f.Writable := by
  obtain ⟨d, vs, hd, hvs⟩ := exists_definition_of_parse h hf
  exact hvs.writable hd

theorem Func.built_of_parse {f : Func} {fs : List Func} {text : String}
    (h : parse text = .ok fs) (hf : f ∈ fs) : f.Built := by
  obtain ⟨d, vs, hd, hvs⟩ := exists_definition_of_parse h hf
  exact hvs.built hd

theorem Func.Writable.linked {f : Func} (h : f.Writable) (hf : f.Coherent) : f.Linked where
  toCoherent := hf
  operand b x hx y hy := by
    rcases h.closed b x hx y hy with ⟨v, hv⟩ | hmem
    · exact .inl (by rw [hv]; rfl)
    · rcases mem_valueIds.mp hmem with hparam | ⟨c, hc⟩
      · exact .inl (hf.param y hparam)
      · have hhome := hf.home c y (List.mem_append_left _ hc)
        exact .inr (by rwa [Listed, hhome])

theorem Func.linked_of_parse {f : Func} {fs : List Func} {text : String}
    (h : parse text = .ok fs) (hf : f ∈ fs) : f.Linked :=
  (writable_of_parse h hf).linked (built_of_parse h hf).coherent

end LoopBounds
