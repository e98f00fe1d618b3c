import LoopBounds.Proofs.Listing.Writable

/-!
# What the names of a definition denote

The positions of lines are predicted before any line is added. In the resolved function every
line stands at its predicted position, every name denotes the one value that bears it, every
literal the one constant with its value, and every label the one block that bears it.
-/

namespace LoopBounds

namespace Func

variable {f g : Func} {x y : InstrId} {v : Int32}

section Denoting

/-- The value `x` bears the name, and no other value does. -/
structure Bears (f : Func) (name : String) (x : InstrId) : Prop where
  mem : x ∈ f.valueIds
  named : f.nameOf x = name
  unique : ∀ y ∈ f.valueIds, f.nameOf y = name → y = x

/-- Block `b` bears the label, and no other block does. -/
structure Labels (f : Func) (label : String) (b : BlockId) : Prop where
  mem : b ∈ f.blockIds
  labelled : (f.block b).label = label
  unique : ∀ c ∈ f.blockIds, (f.block c).label = label → c = b

open Listing

/-- The operand as written denotes `x`: the value of its name, or the constant of its digits. -/
def Denotes (f : Func) : Operand → InstrId → Prop
  | .value name, x => f.Bears name x
  | .literal digits, x => ∃ v, f.instr x = .constant v ∧ v.toInt = literalValue digits ∧
      ∀ y, f.instr y = .constant v → y = x

/-- The line as written says what the instruction is. -/
inductive Spells (f : Func) : Line → Instr → Prop
  | phi {name sources sources'} :
      List.Forall₂ (fun s t => f.Denotes s.1 t.1 ∧ f.Labels s.2 t.2) sources sources' →
      Spells f (.phi name sources) (.phi sources')
  | arith {name op x y x' y'} : f.Denotes x x' → f.Denotes y y' →
      Spells f (.arith name op x y) (.arith op x' y')
  | neg {name x x'} : f.Denotes x x' → Spells f (.neg name x) (.neg x')
  | compare {name op x y x' y'} : f.Denotes x x' → f.Denotes y y' →
      Spells f (.compare name op x y) (.compare op x' y')
  | jump {t t'} : f.Labels t t' → Spells f (.jump t) (.jump t')
  | branch {c t e c' t' e'} : f.Denotes c c' → f.Labels t t' → f.Labels e e' →
      Spells f (.branch c t e) (.branch c' t' e')
  | ret : Spells f (.ret none) (.ret none)
  | retValue {x x'} : f.Denotes x x' → Spells f (.ret (some x)) (.ret (some x'))

end Denoting

end Func

namespace Listing

namespace Definition

/-- The position of the first line of the section at `i`, when the first of all lines gets
position `start`. -/
def offset (d : Definition) (start i : ℕ) : ℕ :=
  start + ((d.sections.take i).flatMap Section.lines).length

/-- The function `f` is what the definition says, with its lines at the positions from `start`
on. -/
structure Denotes (d : Definition) (start : ℕ) (f : Func) : Prop where
  name : f.name = d.name
  returns : f.returns = d.returns
  params : f.params = idsFrom 0 d.params.length
  param : ∀ k n, d.params[k]? = some n → f.node ⟨k⟩ = ⟨n, .entry, .param k⟩
  labels : f.blockIds.map (fun b => (f.block b).label) = d.labels
  /-- Lines are added one after the other, so each gets its predicted position, -/
  size : f.nodes.size = start + d.lines.length
  instrs : ∀ i s, d.sections[i]? = some s →
    (f.block ⟨i⟩).instrs = idsFrom (d.offset start i) s.lines.length
  line : ∀ k l, d.lines[k]? = some l → f.Spells l (f.instr ⟨start + k⟩) ∧
    ⟨start + k⟩ ∈ (f.block (f.home ⟨start + k⟩)).instrs
  /-- which is where the names are looked up. -/
  predicted : ∀ n x, (n, x) ∈ (d.names start).values → f.Bears n x
  predictedLabel : ∀ t b, (t, b) ∈ (d.names start).labels → f.Labels t b
  verified : f.verify = .ok ()

variable {d : Definition} {vs : List Int32} {f : Func} {l : Line} {i : Instr} {o : Operand}
  {x : InstrId} {b : BlockId} {n t : String}

section Resolves

variable (h : d.Resolves vs f) (hd : d.WellFormed)

include h hd

theorem Resolves.bears (hx : (n, x) ∈ (d.table vs).values) : f.Bears n x := by
  have hkeys : ((d.table vs).values.map Prod.fst).Nodup := by
    rw [Definition.table, keys_values]
    exact h.names
  have hop : (d.table vs).operand (d.ground vs) (.value n) = .ok x :=
    Names.operand_value_eq_ok_iff.mpr ((lookup_eq_some_iff_mem hkeys).mpr hx)
  obtain ⟨heq, hnamed⟩ := h.operandOf hd hop
  rw [Func.operandOf, Operand.normalize] at heq
  split at heq
  · cases heq
  · rename_i hconst
    have hname : f.nameOf x = n := Operand.value.inj heq
    have hmem : x ∈ f.valueIds := by
      refine hnamed.resolve_left ?_
      rintro ⟨v, hv⟩
      rw [Func.constant?, hv] at hconst
      cases hconst
    exact ⟨hmem, hname, fun y hy hyn =>
      List.inj_on_of_nodup_map (h.writable hd).names hy hmem (hyn.trans hname.symm)⟩

theorem Resolves.labels_of_mem (hb : (t, b) ∈ (d.table vs).labels) : f.Labels t b := by
  have hget := mem_labels.mp hb
  have hmem : b ∈ f.blockIds := by
    rw [Func.mem_blockIds, h.size_blocks hd, ← List.length_map (f := Section.label)]
    exact (List.getElem?_eq_some_iff.mp hget).1
  have hlabel := h.label_block hd hget
  exact ⟨hmem, hlabel, fun c hc heq =>
    List.inj_on_of_nodup_map (h.writable hd).labels hc hmem (heq.trans hlabel.symm)⟩

theorem Resolves.labels_of_label (hb : (d.table vs).label t = .ok b) : f.Labels t b := by
  obtain ⟨u, w, heq, -⟩ := List.lookup_eq_some_iff.mp (Names.label_eq_ok_iff.mp hb)
  exact h.labels_of_mem hd (heq ▸ List.mem_append_right _ List.mem_cons_self)

theorem Resolves.denotes_operand (hx : (d.table vs).operand (d.ground vs) o = .ok x) :
    f.Denotes o x := by
  cases o with
  | value n =>
    obtain ⟨u, w, heq, -⟩ := List.lookup_eq_some_iff.mp (Names.operand_value_eq_ok_iff.mp hx)
    exact h.bears hd (heq ▸ List.mem_append_right _ List.mem_cons_self)
  | literal s =>
    obtain ⟨v, hv, hfind⟩ := Names.operand_literal_eq_ok_iff.mp hx
    obtain ⟨hlt, hinstr⟩ := Func.findConstant?_eq_some hfind
    have hconst : f.instr x = .constant v :=
      (congrArg Node.instr ((h.laid hd).old x hlt)).trans hinstr
    exact ⟨v, hconst, (literalValue_of_readLiteral hv).symm,
      fun y hy => (h.built hd).constantsPooled.unique hy hconst⟩

theorem Resolves.spells (hl : (d.table vs).Means (d.ground vs) l i) : f.Spells l i := by
  have hop {o : Operand} {x : InstrId} := h.denotes_operand hd (o := o) (x := x)
  have hlabel {t : String} {b : BlockId} := h.labels_of_label hd (t := t) (b := b)
  cases hl with
  | phi hsources => exact .phi (hsources.imp fun _ _ hs => ⟨hop hs.1, hlabel hs.2⟩)
  | arith hx hy => exact .arith (hop hx) (hop hy)
  | neg hx => exact .neg (hop hx)
  | compare hx hy => exact .compare (hop hx) (hop hy)
  | jump ht => exact .jump (hlabel ht)
  | branch hc ht he => exact .branch (hop hc) (hlabel ht) (hlabel he)
  | ret => exact .ret
  | retValue hx => exact .retValue (hop hx)

theorem Resolves.denotes : d.Denotes (d.ground vs).nodes.size f where
  name := (h.laid hd).head.1.trans (skeletal_ground hd.nonempty vs).name
  returns := (h.laid hd).head.returns.trans (skeletal_ground hd.nonempty vs).returns
  params := h.params_eq hd
  param k n := h.node_param hd
  labels := by rw [← Func.labels_listing, h.listing_eq hd, labels_normalize]
  size := (h.laid hd).size
  instrs i s hs := (h.laid hd).ids i s hs
  line k l hl := by
    obtain ⟨b, hstands, hmem⟩ := (h.laid hd).line k l hl
    rw [hstands.instr, hstands.home]
    exact ⟨h.spells hd (h.means (List.mem_of_getElem? hl)), hmem⟩
  predicted n x := h.bears hd
  predictedLabel t b := h.labels_of_mem hd
  verified := verify_eq_ok_iff.mpr h.verified

end Resolves

theorem constantNotCollected_not_mem_faults {function : String} {v : Int32} :
    .malformed function (.constantNotCollected v) ∉ d.faults := by
  have hphi {label : String} {l : Line} :
      .constantNotCollected v ∉ d.phiFaults label l := by
    cases l with
    | phi n sources =>
      rw [phiFaults]
      split_ifs <;> simp
    | _ => exact List.not_mem_nil
  have hliteral {s : String} : .malformed function (.constantNotCollected v) ∉ literalFaults s := by
    rw [literalFaults]
    split_ifs <;> simp
  have hmention {m : Mention} :
      .malformed function (.constantNotCollected v) ∉ d.mentionFaults m := by
    cases m with
    | operand o =>
      cases o with
      | value n =>
        rw [mentionFaults]
        split_ifs <;> simp
      | literal s => exact List.not_mem_nil
    | label t =>
      rw [mentionFaults]
      split_ifs <;> simp
  simp [faults, mismatches, hphi, hliteral, hmention]

end Definition

end Listing

namespace Func

open Listing

/-- A text that can be read is parsed just when its definitions are consistent, and otherwise the
first fault of the first definition with one is reported. In a parsed function every name
denotes the value that bears it, at the position predicted once the constants are there; that a
constant is missing is never reported. -/
theorem parse_of_read? {text : String} {ds : List Definition} (h : read? text = some ds) :
    Detects (parse text) (ds.flatMap Definition.faults) ∧
      ((∃ fs, parse text = .ok fs) ↔ ∀ d ∈ ds, d.Consistent) ∧
      (∀ fs, parse text = .ok fs → List.Forall₂ (fun d f => ∃ g,
        Definition.collectConstants d.skeleton (d.lines.flatMap Line.literals) = .ok g ∧
          d.Denotes g.nodes.size f) ds fs) ∧
      ∀ function v, parse text ≠ .error (.malformed function (.constantNotCollected v)) := by
  have hparse : parse text = ds.mapM Definition.resolve := by rw [parse, h]
  have hwell := wellFormed_of_read? h
  have hdetects : Detects (parse text) (ds.flatMap Definition.faults) :=
    hparse ▸ detects_mapM fun d hd => Definition.detects_resolve (hwell d hd)
  refine ⟨hdetects, ?_, fun fs hfs => ?_, fun function v herror => ?_⟩
  · rw [hdetects.exists_ok_iff, List.flatMap_eq_nil_iff]
    exact forall₂_congr fun d _ => Definition.faults_eq_nil_iff
  · have hresolve := (List.forall₂_and_left (p := (· ∈ ds)) _ _).mpr
      ⟨fun d hd => hd, mapM_eq_ok_iff.mp (hparse ▸ hfs)⟩
    refine hresolve.imp fun d f hdf => ?_
    obtain ⟨hd, hdf⟩ := hdf
    obtain ⟨vs, hvs⟩ := resolve_eq_ok_iff.mp hdf
    exact ⟨d.ground vs, collectConstants_eq_ok_iff.mpr ⟨vs, hvs.literals, rfl⟩,
      hvs.denotes (hwell d hd)⟩
  · have hmem := List.mem_of_head? (hdetects.eq_error_iff.mp herror)
    obtain ⟨d, -, hd⟩ := List.mem_flatMap.mp hmem
    exact Definition.constantNotCollected_not_mem_faults hd

end Func

/-- The second function has five faults, of which the literal is found first. -/
def faultyText : String :=
  "define i32 @right(i32 %n) \x7b
entry:
  br label %loop
loop:
  %i = phi i32 [7, %entry], [%j, %loop]
  %j = add i32 %i, 7
  %c = icmp slt i32 %j, %n
  br i1 %c, label %loop, label %exit
exit:
  ret i32 %j
\x7d
define i32 @wrong(i32 %n) \x7b
entry:
  %k = phi i32 [%m, %entry]
  %n = sub i32 %x, 2147483648
  br label %nowhere
\x7d
"

theorem faultyText_parse : ∃ ds, Listing.read? faultyText = some ds ∧
    ds.flatMap Listing.Definition.faults = [.literalOutOfRange "2147483648",
      .malformed "wrong" (.valueDefinedTwice "n"), .undefinedValue "m", .undefinedValue "x",
      .undefinedLabel "nowhere", .malformed "wrong" (.phiMismatch "k" "entry")] ∧
    Func.parse faultyText = .error (.literalOutOfRange "2147483648") := by
  have hcheck : (Listing.read? faultyText).any (fun ds => ds.flatMap Listing.Definition.faults =
      [.literalOutOfRange "2147483648", .malformed "wrong" (.valueDefinedTwice "n"),
        .undefinedValue "m", .undefinedValue "x", .undefinedLabel "nowhere",
        .malformed "wrong" (.phiMismatch "k" "entry")]) = true := by
    rw [Listing.read?_of_eq (rfl : faultyText = _)]
    decide +kernel
  obtain ⟨ds, hread, hfaults⟩ := (Option.any_eq_true _ _).mp hcheck
  have hfaults := of_decide_eq_true hfaults
  have hdetects := (Func.parse_of_read? hread).1
  rw [hfaults] at hdetects
  exact ⟨ds, hread, hfaults, hdetects⟩

end LoopBounds
