import LoopBounds.Proofs.Listing.HoistedCode
import LoopBounds.Proofs.Range.Lengthening
import LoopBounds.Proofs.Range.Termination

/-!
# What the flag of hoisting says

Hoisting tells whether there are bounds that have been hoisted. Bounds that are a constant or a
value that is there already take no instruction, and without a taken test nothing is written at
all. So the text of the function changes for some of the queries only, and the flag is raised for
each of them.
-/

namespace LoopBounds

open Listing

variable {f g : Func} {p b : BlockId} {x : InstrId}

namespace Func

theorem Writable.text_eq_iff (hf : f.Writable) (hg : g.Writable) :
    g.text = f.text ↔ g.listing = f.listing := by
  rw [← text_listing hf.printable, ← text_listing hg.printable]
  constructor
  · intro h
    have hread := read?_text hg.wellFormed
    rw [h, read?_text hf.wellFormed] at hread
    exact (List.singleton_inj.mp (Option.some.inj hread)).symm
  · intro h
    rw [h]

theorem Longer.index_lt (h : f.Longer g p) : p.index < g.blocks.size := by
  by_contra hp
  rw [Longer, block, block, Array.getElem?_eq_none (Nat.not_lt.mp hp)] at h
  exact Nat.not_lt_zero _ h

section Lines

variable (hfg : f.Extends g)

include hfg

theorem Extends.nameOf (hx : x.index < f.nodes.size) : g.nameOf x = f.nameOf x := by
  rw [Func.nameOf, Func.nameOf, hfg.node x hx]

theorem Extends.operandOf (hx : x.index < f.nodes.size) : g.operandOf x = f.operandOf x := by
  rw [Func.operandOf, Func.operandOf, hfg.constant?_eq hx, hfg.nameOf hx]

theorem Extends.lineOf (hx : x.index < f.nodes.size)
    (hops : ∀ y ∈ (f.instr x).operands, y.index < f.nodes.size) : g.lineOf x = f.lineOf x := by
  have hoperand : ∀ y ∈ (f.instr x).operands, g.operandOf y = f.operandOf y :=
    fun y hy => hfg.operandOf (hops y hy)
  unfold Func.lineOf
  rw [hfg.instr hx, hfg.nameOf hx]
  cases hi : f.instr x with
  | phi sources =>
    have hsource : ∀ s ∈ sources, g.sourceOf s = f.sourceOf s := by
      intro s hs
      rw [sourceOf, sourceOf, hfg.label, hoperand s.1 (hi ▸ List.mem_map_of_mem hs)]
    simp only [List.map_congr_left hsource]
  | ret value =>
    cases value with
    | none => rfl
    | some y => simp [hoperand y (by simp [hi, Instr.operands])]
  | _ => simp_all [Instr.operands, hfg.label]

theorem Extends.listing_eq (hf : f.Writable) (hblock : ∀ b, g.block b = f.block b) :
    g.listing = f.listing := by
  have hparams : f.params.map g.nameOf = f.params.map f.nameOf := by
    apply List.map_congr_left
    intro x hx
    exact hfg.nameOf (index_lt_of_mem_valueIds hf (List.mem_append_left _ hx))
  have hsection (b : BlockId) : g.sectionOf b = f.sectionOf b := by
    have hlines : ∀ x ∈ (f.block b).instrs, g.lineOf x = f.lineOf x := by
      intro x hx
      apply hfg.lineOf (hf.filled b x hx)
      intro y hy
      exact index_lt_of_named hf (hf.closed b x hx y hy)
    rw [sectionOf, sectionOf, hblock, List.map_congr_left hlines]
  rw [listing, listing, hfg.returns, hfg.name, hfg.params, hfg.blockIds, hparams, funext hsection]

theorem Extends.listing_ne (h : f.Longer g p) : g.listing ≠ f.listing := by
  intro heq
  have hsections : g.blockIds.map g.sectionOf = f.blockIds.map f.sectionOf :=
    congrArg Definition.sections heq
  rw [hfg.blockIds] at hsections
  have hsection : g.sectionOf p = f.sectionOf p :=
    List.map_inj_left.mp hsections p (mem_blockIds.mpr (hfg.blocks ▸ h.index_lt))
  have hlength := congrArg (fun s => s.lines.length) hsection
  simp only [sectionOf, List.length_map, Block.instrs, List.length_append, hfg.phis,
    hfg.terminator] at hlength
  rw [Longer] at h
  omega

/-- The text changes just when a block has got new code. -/
theorem Extends.text_ne_iff (hf : f.Writable) (hg : g.Writable) :
    g.text ≠ f.text ↔ ∃ b, f.Longer g b := by
  rw [Ne, hf.text_eq_iff hg]
  constructor
  · intro hne
    by_contra! hshort
    exact hne (hfg.listing_eq hf fun b => hfg.block_of_not_longer (hshort b))
  · rintro ⟨b, hb⟩
    exact hfg.listing_ne hb

end Lines

/-- Hoisting raises its flag just when there is a query for whose bounds there is code that holds
without a finite test. The text of a parsed function changes just when one of these queries takes
an instruction. -/
theorem hoistBounds_changed_iff {text : String} {fs : List Func} {changed : Bool}
    (h : parse text = .ok fs) (hf : f ∈ fs) (hg : f.hoistBounds = (g, changed)) :
    (changed = true ↔ ∃ l q, q ∈ (Analysis.ofFunc f).hoistedQueries f l) ∧
    (g.text ≠ f.text ↔
      ∃ l q, q ∈ (Analysis.ofFunc f).hoistedQueries f l ∧ q.writesCode = true) ∧
    (g.text ≠ f.text ↔ ∃ b, f.added g b ≠ []) := by
  have hw := writable_of_parse h hf
  have hlinked := linked_of_parse h hf
  have hchanged := changed_hoistBounds hlinked hw.filled
  have hext := extends_hoistBounds f
  have hwritable := hw.hoistBounds hlinked
  have hlonger : (∃ p, f.Longer f.hoistBounds.1 p) ↔
      ∃ l q, q ∈ (Analysis.ofFunc f).hoistedQueries f l ∧ q.writesCode = true := by
    constructor
    · rintro ⟨p, hp⟩
      by_contra! hnone
      have hsame := block_hoistBounds hlinked hw.filled
        (fun l q hq => Bool.eq_false_of_not_eq_true (hnone l q hq)) p
      rw [Longer, hsame] at hp
      exact Nat.lt_irrefl _ hp
    · rintro ⟨l, q, hq, hwrites⟩
      apply longer_hoistBounds hlinked hw.filled hq hwrites
      intro m t test ht htest
      obtain ⟨kind, count, op, lower, upper, rfl, -⟩ := hw.isTripCount_of_tripCount? hlinked ht
      obtain rfl := Option.some.inj htest
      exact ⟨rfl, rfl⟩
  rw [hg] at hchanged hext hwritable hlonger
  exact ⟨hchanged, (hext.text_ne_iff hw hwritable).trans hlonger,
    (hext.text_ne_iff hw hwritable).trans (exists_congr fun b => hext.added_ne_nil_iff.symm)⟩

end Func

/-- The bounds of the counter take instructions, and the text says so. -/
theorem counting_changed : ∃ f g, Func.parse countingText = .ok [f] ∧
    f.hoistBounds = (g, true) ∧ g.text ≠ f.text ∧
      ∃ l q, q ∈ (Analysis.ofFunc f).hoistedQueries f l ∧ q.writesCode = true := by
  obtain ⟨f, hparse, hchanged, hcode⟩ := Func.exists_parsed (rfl : countingText = _)
    (P := fun f => f.hoistBounds.2 = true ∧ f.added f.hoistBounds.1 ⟨0⟩ ≠ []) (by decide +kernel)
  obtain ⟨-, hwrites, hadded⟩ := Func.hoistBounds_changed_iff hparse (List.mem_singleton_self f)
    (Prod.ext rfl hchanged : f.hoistBounds = (f.hoistBounds.1, true))
  have htext := hadded.mpr ⟨⟨0⟩, hcode⟩
  exact ⟨f, _, hparse, Prod.ext rfl hchanged, htext, hwrites.mp htext⟩

/-- A loop that counts in steps of two, for which there is no code. It computes the argument
anew. -/
def evensText : String :=
  "define i32 @evens(i32 %n) \x7b
entry:
  br label %header
header:
  %i = phi i32 [ 0, %entry ], [ %next, %body ]
  %test = icmp slt i32 %i, 10
  br i1 %test, label %body, label %exit
body:
  %same = add i32 %n, 0
  %next = add i32 %i, 2
  br label %header
exit:
  ret i32 %i
\x7d
"

/-- The bounds of `%same` are the argument itself: the flag is raised and the function stays the
same. -/
theorem evens_unchanged : ∃ f, Func.parse evensText = .ok [f] ∧ f.hoistBounds = (f, true) :=
  Func.exists_parsed (rfl : evensText = _) (by decide +kernel)

end LoopBounds
