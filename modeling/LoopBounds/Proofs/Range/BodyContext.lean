import LoopBounds.Proofs.Classify.Before
import LoopBounds.Proofs.Classify.Owned
import LoopBounds.Proofs.Func.Growth
import LoopBounds.Proofs.Range.ExactCount
import LoopBounds.Proofs.Range.Query
import LoopBounds.Range.Hoist

/-!
# Questions at the body context

Bounds in front of a loop are asked for at the end of one of its latches. Where the loop is
the innermost one around that latch, the answers fetch only what is there at the end of the
preheader. A latch may also lie in an inner loop. Then the answers speak of the inner loop:
the values of the outer loop are fetched there, and only the taken test of the inner loop can
give rise to code.

The answers do not change when the function grows by code.
-/

namespace LoopBounds

open Descriptor

variable {f g : Func} {a : Analysis} {b p : BlockId} {context x : InstrId} {l m : LoopId}
variable {d t : Descriptor} {inBody : Bool}

namespace Func.Extends

variable (hfg : f.Extends g)

include hfg

theorem terminator?_eq (b : BlockId) : g.terminator? b = f.terminator? b := hfg.terminator b

theorem constant?_eq (hx : x.index < f.nodes.size) : g.constant? x = f.constant? x :=
  congrArg Instr.constant? (hfg.instr hx)

theorem fetch_eq (hx : x.index < f.nodes.size) : g.fetch x = f.fetch x := by
  rw [Func.fetch, Func.fetch, hfg.constant?_eq hx]

theorem bodyContext?_eq (a : Analysis) (l : LoopId) : a.bodyContext? g l = a.bodyContext? f l := by
  simp only [Analysis.bodyContext?, funext hfg.terminator?_eq]

theorem tripCount?_eq (a : Analysis) (l : LoopId) : a.tripCount? g l = a.tripCount? f l := by
  rw [Analysis.tripCount?, Analysis.tripCount?, hfg.terminator?_eq]

theorem contextLoop?_eq (a : Analysis) (hc : context.index < f.nodes.size) :
    a.contextLoop? g context = a.contextLoop? f context := by
  rw [Analysis.contextLoop?, Analysis.contextLoop?, hfg.home hc]

theorem lookup_eq (a : Analysis) (l : LoopId) (hx : x.index < f.nodes.size) :
    a.lookup g l x = a.lookup f l x := by
  rw [Analysis.lookup, Analysis.lookup, hfg.constant?_eq hx, hfg.params, hfg.home hx,
    hfg.fetch_eq hx]

theorem query?_eq (a : Analysis) (hc : context.index < f.nodes.size)
    (hx : x.index < f.nodes.size) : a.query? g context x = a.query? f context x := by
  simp only [Analysis.query?, hfg.contextLoop?_eq a hc, hfg.lookup_eq a _ hx, hfg.tripCount?_eq]

theorem takenTest?_eq (a : Analysis) (hc : context.index < f.nodes.size) :
    a.takenTest? g context = a.takenTest? f context := by
  simp only [Analysis.takenTest?, hfg.contextLoop?_eq a hc, hfg.tripCount?_eq]

theorem isLoopValue_eq (a : Analysis) (l : LoopId) (d : Descriptor)
    (hx : x.index < f.nodes.size) : a.isLoopValue g l x d = a.isLoopValue f l x d := by
  rw [Analysis.isLoopValue, Analysis.isLoopValue, hfg.constant?_eq hx, hfg.params, hfg.home hx]

end Func.Extends

namespace Analysis

theorem bodyContext?_eq_some (h : a.bodyContext? f l = some context) :
    ∃ b ∈ (a.forest.get l).latches, b ≠ (a.forest.get l).header ∧
      f.terminator? b = some context := by
  obtain ⟨b, hb, hterm⟩ := List.exists_of_findSome?_eq_some h
  simp only [List.mem_filter, decide_eq_true_eq] at hb
  exact ⟨b, hb.1, hb.2, hterm⟩

theorem query?_eq_some {q : Query} (h : a.query? f context x = some q) :
    ∃ m inBody d, a.contextLoop? f context = some (m, inBody) ∧ a.lookup f m x = some d ∧
      q = ⟨d, a.tripCount? f m, inBody⟩ := by
  simp only [query?, bind, Option.bind_eq_some_iff] at h
  obtain ⟨⟨m, inBody⟩, hm, d, hd, hq⟩ := h
  exact ⟨m, inBody, d, hm, hd, (Option.some.inj hq).symm⟩

theorem takenTest?_eq_some (h : a.takenTest? f context = some (d, inBody)) :
    ∃ m kind count, a.contextLoop? f context = some (m, inBody) ∧
      a.tripCount? f m = some (guardedCount kind count d) := by
  simp only [takenTest?, Option.bind_eq_bind, Option.bind_eq_some_iff, Option.pure_def] at h
  obtain ⟨⟨m, inBody'⟩, hm, t, ht, test, htest, heq⟩ := h
  obtain ⟨rfl, rfl⟩ := Prod.mk.inj (Option.some.inj heq)
  cases t with
  | guardedCount kind count taken =>
    obtain rfl := Option.some.inj htest
    exact ⟨m, kind, count, hm, ht⟩
  | _ => cases htest

theorem innermost?_of_contextLoop? (h : a.contextLoop? f context = some (m, inBody)) :
    a.forest.innermost? (f.home context) = some m := by
  unfold contextLoop? at h
  dsimp only at h
  split at h
  · rename_i m' hm'
    obtain ⟨rfl, -⟩ := Prod.mk.inj (Option.some.inj h)
    exact hm'
  · cases h

theorem forest_ofFunc (f : Func) : (ofFunc f).forest = f.flow.loopForest := rfl

theorem mem_loopValues : (x, d) ∈ a.loopValues f l ↔ x.index < f.nodes.size ∧
    a.stored? l x = some d ∧ a.isLoopValue f l x d = true := by
  have hid : x ∈ f.instrIds ↔ x.index < f.nodes.size := by
    simp only [Func.instrIds, List.mem_map, List.mem_range]
    exact ⟨fun ⟨i, hi, heq⟩ => heq ▸ hi, fun h => ⟨x.index, h, rfl⟩⟩
  rw [loopValues, List.mem_filterMap, ← hid]
  constructor
  · rintro ⟨y, hy, h⟩
    split at h
    · rename_i e he
      split_ifs at h with hvalue
      obtain ⟨rfl, rfl⟩ := Prod.mk.inj (Option.some.inj h)
      exact ⟨hy, he, hvalue⟩
    · cases h
  · rintro ⟨hx, hd, hvalue⟩
    exact ⟨x, hx, by simp only [hd, hvalue, if_true]⟩

/-- The body context ends a block of the loop other than the header. -/
theorem bodyContext?_spec (hf : f.Coherent)
    (hp : (f.flow.loopForest.get l).preheader = some p)
    (h : (ofFunc f).bodyContext? f l = some context) :
    f.home context ∈ (f.flow.loopForest.get l).blocks ∧
      context ∈ (f.block (f.home context)).instrs := by
  obtain ⟨b, hb, -, hterm⟩ := bodyContext?_eq_some h
  have hmem : context ∈ (f.block b).instrs := List.mem_append_right _ (Option.mem_toList.mpr hterm)
  rw [home_of_terminator? hf hterm]
  exact ⟨(hf.flow.natural (mem_ids_of_preheader hp)).latch_mem b hb, hmem⟩

section Linked

variable (hf : f.Linked)

include hf

theorem innermost?_of_mem_loopValues (h : (x, d) ∈ (ofFunc f).loopValues f l) :
    f.flow.loopForest.innermost? (f.home x) = some l := by
  obtain ⟨-, hstored, hvalue⟩ := mem_loopValues.mp h
  rcases owns_or_trip hf hstored with hx | ⟨-, htrip⟩
  · exact (LoopView.isMember_eq_true_iff.mp hx.member).2
  · have hkind := LoopView.tripKind?_of_tripCount? htrip
    simp only [isLoopValue, Bool.and_eq_true, Option.isNone_iff_eq_none] at hvalue
    rw [hvalue.1.1.1] at hkind
    cases hkind

/-- Where the context lies in a loop inside the loop, a loop value is fetched. -/
theorem lookup_of_contextLoop?_ne (hx : (x, d) ∈ (ofFunc f).loopValues f l)
    (hm : (ofFunc f).contextLoop? f context = some (m, inBody))
    (hb : f.home context ∈ (f.flow.loopForest.get l).blocks) (hne : m ≠ l) :
    (ofFunc f).lookup f m x = some (.fetch x) := by
  obtain ⟨-, hstored, hvalue⟩ := mem_loopValues.mp hx
  have hl := LoopForest.mem_ids.mpr (lt_of_stored? hstored)
  have hinnermost := innermost?_of_contextLoop? hm
  rw [forest_ofFunc] at hinnermost
  obtain ⟨hm, -, hinner⟩ := hf.flow.innermost?_eq_some_iff.mp hinnermost
  obtain ⟨-, -, hsmallest⟩ := hf.flow.innermost?_eq_some_iff.mp (innermost?_of_mem_loopValues hf hx)
  have hml := hinner l hl ((hf.flow.finished.recorded l _).mpr hb)
  have hout : f.flow.loopForest.contains m (f.home x) = false := by
    by_contra hin
    exact hne (hf.flow.eq_of_inside hm hl hml (hsmallest m hm (Bool.not_eq_false _ ▸ hin)))
  have hnone : (ofFunc f).stored? m x = none := by
    rw [Option.eq_none_iff_forall_ne_some]
    intro e he
    have := (hf.flow.finished.recorded m _).mpr (home_mem_of_stored? hf he)
    rw [hout] at this
    cases this
  have hconst : f.constant? x = none := by
    simp only [isLoopValue, Bool.and_eq_true, Option.isNone_iff_eq_none] at hvalue
    exact hvalue.1.2
  simp [lookup, hnone, forest_ofFunc, hout, Func.fetch, hconst]

end Linked

section Valid

variable (hf : f.Valid)

include hf

theorem fetchesOnly_availableAtEnd (hp : (f.flow.loopForest.get l).preheader = some p)
    (h : (ofFunc f).stored? l x = some d) : d.FetchesOnly (f.AvailableAtEnd p) := by
  have hl := lt_of_stored? h
  let S := Setting.words hf (fun _ => 0) hl
  intro y hy
  rcases S.fetchesOnly_of_stored? hl h y hy with hleaf | ⟨hlisted, hout, hd⟩
  · exact .inl hleaf
  · have hsucc := header_mem_succs_of_preheader hf.toCoherent hp
    refine .inr ⟨hlisted, hd.of_succ ?_ hsucc⟩
    intro heq
    exact hout (heq ▸ S.natural.header_mem)

theorem fetchesOnly_index_lt (hfill : f.Filled) (h : (ofFunc f).stored? l x = some d) :
    d.FetchesOnly fun y => y.index < f.nodes.size := by
  have hl := lt_of_stored? h
  intro y hy
  rcases (Setting.words hf (fun _ => 0) hl).fetchesOnly_of_stored? hl h y hy with hleaf | hbefore
  · exact Func.index_lt_of_isLeaf hleaf
  · exact hfill.index_lt_of_listed hbefore.1

theorem exists_comparison_of_tripCount? {kind : TripKind} {count test : Descriptor}
    (hl : l.index < f.flow.loopForest.loops.size)
    (h : (ofFunc f).tripCount? f l = some (guardedCount kind count test)) :
    ∃ op cmp lower upper, test = binary op lower upper ∧ op.comparison? = some cmp ∧
      lower.IsTerm ∧ upper.IsTerm := by
  let S := Setting.words hf (fun _ => 0) hl
  obtain ⟨control, -, htrip⟩ := S.exists_control hl h
  obtain ⟨a, b, cmp, stride, lower, upper, towards, hcontrol, htest⟩ := exists_linearTest htrip
  obtain ⟨c, y, z, op, hcompared⟩ := Setting.test_of_control? hcontrol
  have hk := S.sound_classes
  obtain ⟨-, hlower, hupper⟩ := htest.terms (Setting.wellFormed_of_lookup hk hcompared.left)
    (Setting.wellFormed_of_lookup hk hcompared.right)
  obtain ⟨step, -, hmoves, heq⟩ := LoopView.linearTripCount?_eq_some htest.trip
  rw [tripCountOf, combine_testOperation] at heq
  obtain ⟨-, -, rfl⟩ := guardedCount.inj heq
  exact ⟨_, _, lower, upper, rfl, comparison?_testOperation hmoves, hlower, hupper⟩

end Valid

end Analysis

end LoopBounds
