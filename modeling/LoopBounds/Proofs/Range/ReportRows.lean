import LoopBounds.Proofs.Listing.Hoisted
import LoopBounds.Proofs.Range.Anchored
import LoopBounds.Proofs.Range.BodyContext
import LoopBounds.Report.Text

/-!
# Rows of the range report

The report asks for the ranges of a loop at two places, the end of the header and the end of the
first latch that is not the header. The loop is the innermost one around its header, so the header
row speaks of the loop itself. The latch may lie in an inner loop. Then the body row speaks of that
inner loop, in which the value is fetched: its upper bound is the value itself. No bound of the loop
itself is that, because the descriptors of a loop only fetch what lies outside.
-/

namespace LoopBounds

open Descriptor

/-- The first latch other than the header. -/
def Loop.bodyLatch? (l : Loop) : Option BlockId := l.latches.find? (· ≠ l.header)

theorem Loop.isSome_bodyLatch? {l : Loop} :
    l.bodyLatch?.isSome = true ↔ ∃ b ∈ l.latches, b ≠ l.header := by
  simp [bodyLatch?]

theorem Loop.bodyLatch?_eq_some {l : Loop} {b : BlockId} (h : l.bodyLatch? = some b) :
    b ∈ l.latches ∧ b ≠ l.header :=
  ⟨List.mem_of_find?_eq_some h, by simpa using List.find?_some h⟩

section Flow

variable {g : FlowGraph} {l : LoopId} {b : BlockId} (hg : g.Coherent)

include hg

theorem FlowGraph.Coherent.header_mem_succs_of_mem_latches (hl : l ∈ g.loopForest.ids)
    (hb : b ∈ (g.loopForest.get l).latches) : (g.loopForest.get l).header ∈ g.succs b := by
  rw [hg.latches_get hl] at hb
  exact (hg.mem_latches.mp hb).1

end Flow

namespace Analysis

variable {f : Func} {a : Analysis} {l m : LoopId} {x context : InstrId} {d : Descriptor}
variable {b : BlockId} {inBody : Bool} {place : Place} {r : ValueRange}

/-- The range of a value that `d` describes in a loop, under the trip count of the loop. -/
def rangeIn (a : Analysis) (f : Func) (l : LoopId) (d : Descriptor) (inBody : Bool) : ValueRange :=
  Query.range ⟨d, a.tripCount? f l, inBody⟩

/-- What the body row shows of a value of loop `l` when `m` is the innermost loop around the latch
`b`: the range in the loop itself, or that of the fetched value in the inner loop. -/
def latchRange (a : Analysis) (f : Func) (l m : LoopId) (b : BlockId) (x : InstrId)
    (d : Descriptor) : ValueRange :=
  if m = l then a.rangeIn f l d true
  else a.rangeIn f m (.fetch x) (decide ((a.forest.get m).header ≠ b))

/-- The innermost loop around the latch at which the body row is asked for. -/
def bodyLoop? (a : Analysis) (l : LoopId) : Option LoopId :=
  (a.forest.get l).bodyLatch?.bind a.forest.innermost?

theorem mem_rangeRows : (place, r) ∈ a.rangeRows f l x ↔
    ∃ context, a.placeContext? f l place = some context ∧ a.range? f context x = some r := by
  cases place <;> simp [rangeRows, Option.bind_eq_some_iff]

theorem places_rangeRows (a : Analysis) (f : Func) (l : LoopId) (x : InstrId) :
    ((a.rangeRows f l x).map Prod.fst).Sublist [.header, .body] := by
  have hplace (place : Place) (row : Place × ValueRange) (h : (do
      let context ← a.placeContext? f l place
      return (place, ← a.range? f context x)) = some row) : row.1 = place := by
    obtain ⟨context, -, h⟩ := Option.bind_eq_some_iff.mp h
    obtain ⟨r, -, h⟩ := Option.bind_eq_some_iff.mp h
    exact Option.some.inj h ▸ rfl
  rw [rangeRows, List.filterMap_cons, List.filterMap_cons, List.filterMap_nil]
  split
  · split
    · simp
    · rename_i hbody
      simp [hplace _ _ hbody]
  · rename_i hheader
    split
    · simp [hplace _ _ hheader]
    · rename_i hbody
      simp [hplace _ _ hheader, hplace _ _ hbody]

/-- The body context ends the first latch other than the header, if all latches have an end. -/
theorem bodyContext?_eq_bind
    (hterm : ∀ b ∈ (a.forest.get l).latches, (f.terminator? b).isSome = true) :
    a.bodyContext? f l = (a.forest.get l).bodyLatch?.bind f.terminator? := by
  unfold bodyContext? Loop.bodyLatch?
  rw [← List.head?_filter]
  dsimp only
  cases heq : (a.forest.get l).latches.filter (· ≠ (a.forest.get l).header) with
  | nil => rfl
  | cons b rest =>
    have hb : b ∈ (a.forest.get l).latches := List.mem_of_mem_filter (heq ▸ List.mem_cons_self)
    obtain ⟨context, hc⟩ := Option.isSome_iff_exists.mp (hterm b hb)
    simp [hc]

theorem range?_of_terminator? (hf : f.Coherent) (hc : f.terminator? b = some context)
    (hm : a.forest.innermost? b = some m) (hd : a.lookup f m x = some d) :
    a.range? f context x = some (a.rangeIn f m d (decide ((a.forest.get m).header ≠ b))) := by
  have hhome := home_of_terminator? hf hc
  simp [range?, query?, contextLoop?, hhome, hm, hd, rangeIn]

/-- The descriptors of a loop fetch only what lies outside. -/
theorem fetchesOnly_outside (h : (ofFunc f).stored? l x = some d) :
    d.FetchesOnly fun y => (LoopView.mk f f.flow.loopForest l).isOutside y = true := by
  have hl := lt_of_stored? h
  rw [stored?, classesOf_ofFunc hl] at h
  have hsupplied (x : InstrId) : (LoopView.mk f f.flow.loopForest l).Supplied
      (fun y => (LoopView.mk f f.flow.loopForest l).isOutside y = true) x :=
    fun y _ hout _ => hout
  have hclasses := LoopView.allFormed_classes (q := fun _ => True) (fun _ _ _ _ => trivial)
    (fun _ _ => trivial) fun x _ => hsupplied x
  rcases LoopView.lookup_classesWithTripCount h with h | ⟨-, h⟩
  · exact (hclasses _ h).fetches
  · exact (hclasses.tripCount? (fun c _ => hsupplied c) h).2

theorem upper_rangeIn_fetch (a : Analysis) (f : Func) (m : LoopId) (x : InstrId) (inBody : Bool) :
    (a.rangeIn f m (.fetch x) inBody).bounds.upper = .ofInstr x 1 0 := by
  simp only [rangeIn, Query.range, bounds, boundsWith, fetchBounds]
  split_ifs <;> rfl

theorem lookup_of_mem_loopValues (hx : (x, d) ∈ (ofFunc f).loopValues f l) :
    (ofFunc f).lookup f l x = some d := by
  rw [lookup, (mem_loopValues.mp hx).2.1]

theorem mem_ids_of_mem_loopValues (hx : (x, d) ∈ (ofFunc f).loopValues f l) :
    l ∈ f.flow.loopForest.ids :=
  LoopForest.mem_ids.mpr (lt_of_stored? (mem_loopValues.mp hx).2.1)

section Linked

variable (hf : f.Linked) (hx : (x, d) ∈ (ofFunc f).loopValues f l)

include hf

include hx

theorem isOutside_of_mem_loopValues :
    (LoopView.mk f f.flow.loopForest l).isOutside x = false := by
  obtain ⟨-, hstored, hvalue⟩ := mem_loopValues.mp hx
  rcases owns_or_trip hf hstored with hown | ⟨-, htrip⟩
  · exact hown.isOutside_eq_false
  · have hkind := LoopView.tripKind?_of_tripCount? htrip
    simp only [isLoopValue, Bool.and_eq_true, Option.isNone_iff_eq_none] at hvalue
    rw [hvalue.1.1.1] at hkind
    cases hkind

theorem rangeIn_ne_fetch (inBody inBody' : Bool) :
    (ofFunc f).rangeIn f l d inBody ≠ (ofFunc f).rangeIn f m (.fetch x) inBody' := by
  intro heq
  have hstored := (mem_loopValues.mp hx).2.1
  have htrip : ∀ t ∈ (ofFunc f).tripCount? f l, t.FetchesOnly
      fun y => (LoopView.mk f f.flow.loopForest l).isOutside y = true := by
    intro t ht
    obtain ⟨control, -, ht⟩ := Option.bind_eq_some_iff.mp ht
    exact fetchesOnly_outside ht
  have hanchored : ((ofFunc f).rangeIn f l d inBody).bounds.upper.AnchoredIn
      fun y => (LoopView.mk f f.flow.loopForest l).isOutside y = true :=
    (anchoredIn_bounds htrip (fetchesOnly_outside hstored)).upper
  rw [heq, upper_rangeIn_fetch] at hanchored
  have hout : (LoopView.mk f f.flow.loopForest l).isOutside x = true := hanchored x rfl
  rw [isOutside_of_mem_loopValues hf hx] at hout
  cases hout

theorem mem_headerRow : (.header, r) ∈ (ofFunc f).rangeRows f l x ↔
    (f.terminator? (f.flow.loopForest.get l).header).isSome = true ∧
      r = (ofFunc f).rangeIn f l d false := by
  have hinnermost := hf.flow.innermost?_header (mem_ids_of_mem_loopValues hx)
  have hrange {context : InstrId}
      (hc : f.terminator? (f.flow.loopForest.get l).header = some context) :
      (ofFunc f).range? f context x = some ((ofFunc f).rangeIn f l d false) := by
    rw [range?_of_terminator? (a := ofFunc f) hf.toCoherent hc hinnermost
      (lookup_of_mem_loopValues hx)]
    simp [forest_ofFunc]
  rw [mem_rangeRows]
  constructor
  · rintro ⟨context, hc, hr⟩
    rw [hrange hc] at hr
    exact ⟨Option.isSome_of_eq_some hc, (Option.some.inj hr).symm⟩
  · rintro ⟨hsome, rfl⟩
    obtain ⟨context, hc⟩ := Option.isSome_iff_exists.mp hsome
    exact ⟨context, hc, hrange hc⟩

theorem range?_of_bodyLatch? (hb : (f.flow.loopForest.get l).bodyLatch? = some b)
    (hc : f.terminator? b = some context) (hm : f.flow.loopForest.innermost? b = some m) :
    (ofFunc f).range? f context x = some ((ofFunc f).latchRange f l m b x d) := by
  obtain ⟨hlatch, hheader⟩ := Loop.bodyLatch?_eq_some hb
  by_cases heq : m = l
  · subst heq
    rw [range?_of_terminator? (a := ofFunc f) hf.toCoherent hc hm (lookup_of_mem_loopValues hx),
      latchRange, if_pos rfl, forest_ofFunc, decide_eq_true hheader.symm]
  · have hhome := home_of_terminator? hf.toCoherent hc
    have hinner : (ofFunc f).contextLoop? f context =
        some (m, decide ((f.flow.loopForest.get m).header ≠ b)) := by
      simp [contextLoop?, hhome, forest_ofFunc, hm]
    have hmem : f.home context ∈ (f.flow.loopForest.get l).blocks := by
      rw [hhome]
      exact (hf.flow.natural (mem_ids_of_mem_loopValues hx)).latch_mem b hlatch
    have hlookup := lookup_of_contextLoop?_ne hf hx hinner hmem heq
    rw [range?_of_terminator? (a := ofFunc f) hf.toCoherent hc hm hlookup, latchRange, if_neg heq]

variable (hterm : ∀ b, f.flow.succs b ≠ [] → (f.terminator? b).isSome = true)

include hterm

theorem isSome_terminator?_of_mem_latches (hb : b ∈ (f.flow.loopForest.get l).latches) :
    (f.terminator? b).isSome = true :=
  hterm b (List.ne_nil_of_mem
    (hf.flow.header_mem_succs_of_mem_latches (mem_ids_of_mem_loopValues hx) hb))

/-- The body row speaks of the innermost loop around the latch. -/
theorem mem_bodyRow : (.body, r) ∈ (ofFunc f).rangeRows f l x ↔
    ∃ b m, (f.flow.loopForest.get l).bodyLatch? = some b ∧
      f.flow.loopForest.innermost? b = some m ∧ r = (ofFunc f).latchRange f l m b x d := by
  have hends {b : BlockId} (hb : b ∈ (f.flow.loopForest.get l).latches) :
      (f.terminator? b).isSome = true := isSome_terminator?_of_mem_latches hf hx hterm hb
  have hcontext : (ofFunc f).placeContext? f l .body =
      (f.flow.loopForest.get l).bodyLatch?.bind f.terminator? := bodyContext?_eq_bind fun _ => hends
  rw [mem_rangeRows, hcontext]
  constructor
  · rintro ⟨context, hc, hr⟩
    obtain ⟨b, hb, hc⟩ := Option.bind_eq_some_iff.mp hc
    have hmem := (hf.flow.natural (mem_ids_of_mem_loopValues hx)).latch_mem b
      (Loop.bodyLatch?_eq_some hb).1
    obtain ⟨m, hm⟩ := hf.flow.finished.exists_innermost? hmem
    rw [range?_of_bodyLatch? hf hx hb hc hm] at hr
    exact ⟨b, m, hb, hm, (Option.some.inj hr).symm⟩
  · rintro ⟨b, m, hb, hm, rfl⟩
    obtain ⟨context, hc⟩ := Option.isSome_iff_exists.mp (hends (Loop.bodyLatch?_eq_some hb).1)
    exact ⟨context, Option.bind_eq_some_iff.mpr ⟨b, hb, hc⟩,
      range?_of_bodyLatch? hf hx hb hc hm⟩

theorem exists_bodyRow : (∃ r, (.body, r) ∈ (ofFunc f).rangeRows f l x) ↔
    ∃ b ∈ (f.flow.loopForest.get l).latches, b ≠ (f.flow.loopForest.get l).header := by
  rw [← Loop.isSome_bodyLatch?]
  constructor
  · rintro ⟨r, hr⟩
    obtain ⟨b, m, hb, -⟩ := (mem_bodyRow hf hx hterm).mp hr
    exact Option.isSome_of_eq_some hb
  · intro hsome
    obtain ⟨b, hb⟩ := Option.isSome_iff_exists.mp hsome
    have hmem := (hf.flow.natural (mem_ids_of_mem_loopValues hx)).latch_mem b
      (Loop.bodyLatch?_eq_some hb).1
    obtain ⟨m, hm⟩ := hf.flow.finished.exists_innermost? hmem
    exact ⟨_, (mem_bodyRow hf hx hterm).mpr ⟨b, m, hb, hm, rfl⟩⟩

/-- The body row shows the value in its own loop exactly if this is the innermost one around the
latch. -/
theorem ownBodyRow_iff : (.body, (ofFunc f).rangeIn f l d true) ∈ (ofFunc f).rangeRows f l x ↔
    (ofFunc f).bodyLoop? l = some l := by
  rw [mem_bodyRow hf hx hterm, bodyLoop?, forest_ofFunc, Option.bind_eq_some_iff]
  refine exists_congr fun b => ?_
  constructor
  · rintro ⟨m, hb, hm, hr⟩
    rw [latchRange] at hr
    split_ifs at hr with heq
    · exact ⟨hb, heq ▸ hm⟩
    · exact absurd hr (rangeIn_ne_fetch hf hx _ _)
  · rintro ⟨hb, hm⟩
    exact ⟨l, hb, hm, by rw [latchRange, if_pos rfl]⟩

end Linked

end Analysis

theorem Func.Writable.isSome_terminator? {f : Func} {b : BlockId} (hw : f.Writable)
    (hb : f.flow.succs b ≠ []) : (f.terminator? b).isSome = true := by
  by_cases hlt : b.index < f.blocks.size
  · obtain ⟨y, hy, -⟩ := (hw.arranged b hlt).terminator
    exact Option.isSome_of_eq_some hy
  · have hvacant : f.block b = Block.vacant := by
      simp [Func.block, hlt]
    refine absurd ?_ hb
    rw [show f.flow.succs b = (f.block b).succs from rfl, hvacant, Block.vacant]

/-- In the report on a parsed function the header row of a loop value shows its range in that loop.
There is a body row exactly if a latch other than the header is there. It shows the range in that
loop exactly if this is the innermost one around the first such latch, and otherwise the range of
the fetched value in the innermost one. -/
theorem Func.rangeRows_of_parse {text : String} {fs : List Func} {f : Func} {l : LoopId}
    {x : InstrId} {d : Descriptor} (h : parse text = .ok fs) (hmem : f ∈ fs)
    (hx : (x, d) ∈ (Analysis.ofFunc f).loopValues f l) :
    (∀ r, (.header, r) ∈ (Analysis.ofFunc f).rangeRows f l x ↔
      (f.terminator? (f.flow.loopForest.get l).header).isSome = true ∧
        r = (Analysis.ofFunc f).rangeIn f l d false) ∧
    ((∃ r, (.body, r) ∈ (Analysis.ofFunc f).rangeRows f l x) ↔
      ∃ b ∈ (f.flow.loopForest.get l).latches, b ≠ (f.flow.loopForest.get l).header) ∧
    ((.body, (Analysis.ofFunc f).rangeIn f l d true) ∈ (Analysis.ofFunc f).rangeRows f l x ↔
      (Analysis.ofFunc f).bodyLoop? l = some l) ∧
    (∀ r, (.body, r) ∈ (Analysis.ofFunc f).rangeRows f l x ↔
      ∃ b m, (f.flow.loopForest.get l).bodyLatch? = some b ∧
        f.flow.loopForest.innermost? b = some m ∧
        r = (Analysis.ofFunc f).latchRange f l m b x d) ∧
    (((Analysis.ofFunc f).rangeRows f l x).map Prod.fst).Sublist [.header, .body] := by
  have hf := linked_of_parse h hmem
  have hterm (b : BlockId) := (writable_of_parse h hmem).isSome_terminator? (b := b)
  refine ⟨fun r => ?_, ?_, ?_, fun r => ?_, ?_⟩
  · exact Analysis.mem_headerRow hf hx
  · exact Analysis.exists_bodyRow hf hx hterm
  · exact Analysis.ownBodyRow_iff hf hx hterm
  · exact Analysis.mem_bodyRow hf hx hterm
  · exact Analysis.places_rangeRows _ f l x

/-- A loop that runs ten times. Its latch is the only block of an inner loop. -/
def nestedText : String :=
  "define void @nested(i32 %n) \x7b
entry: br label %outer
outer:
  %i = phi i32 [0, %entry], [%i2, %inner]
  %i2 = add i32 %i, 1
  %c = icmp slt i32 %i, 10
  br i1 %c, label %inner, label %exit
inner: br i1 %n, label %inner, label %outer
exit: ret void
\x7d
"

/-- The counter of the outer loop of `nestedText`. -/
def nestedCounter : Descriptor := .linear (.constant 1) (.constant 0)

/-- The outer loop of `nestedText` has its latch in the inner one, where its counter is fetched. -/
theorem nested_loops : ∃ f, Func.parse nestedText = .ok [f] ∧
    (⟨5⟩, nestedCounter) ∈ (Analysis.ofFunc f).loopValues f ⟨1⟩ ∧
    (f.terminator? (f.flow.loopForest.get ⟨1⟩).header).isSome = true ∧
    (Analysis.ofFunc f).rangeIn f ⟨1⟩ nestedCounter false = ⟨⟨.constant 0, .constant 10⟩, false⟩ ∧
    (Analysis.ofFunc f).rangeIn f ⟨1⟩ nestedCounter true = ⟨⟨.constant 0, .constant 9⟩, false⟩ ∧
    (f.flow.loopForest.get ⟨1⟩).bodyLatch? = some ⟨2⟩ ∧
    f.flow.loopForest.innermost? ⟨2⟩ = some ⟨0⟩ ∧
    (Analysis.ofFunc f).latchRange f ⟨1⟩ ⟨0⟩ ⟨2⟩ ⟨5⟩ nestedCounter =
      ⟨.exactly (.ofInstr ⟨5⟩ 1 0), false⟩ ∧
    (.body, ⟨⟨.constant 0, .constant 9⟩, false⟩) ∉ (Analysis.ofFunc f).rangeRows f ⟨1⟩ ⟨5⟩ :=
  Func.exists_parsed (rfl : nestedText = _) (by decide +kernel)

/-- The header row of the counter speaks of the outer loop. The body row only says that the counter
is itself. -/
theorem nested_rows : ∃ f, Func.parse nestedText = .ok [f] ∧
    (.header, ⟨⟨.constant 0, .constant 10⟩, false⟩) ∈ (Analysis.ofFunc f).rangeRows f ⟨1⟩ ⟨5⟩ ∧
    (.body, ⟨.exactly (.ofInstr ⟨5⟩ 1 0), false⟩) ∈ (Analysis.ofFunc f).rangeRows f ⟨1⟩ ⟨5⟩ := by
  obtain ⟨f, hparse, hx, hterm, hheader, -, hlatch, hinner, hbody, -⟩ := nested_loops
  obtain ⟨hheaderRow, -, -, hbodyRow, -⟩ :=
    Func.rangeRows_of_parse hparse (List.mem_singleton_self f) hx
  exact ⟨f, hparse, (hheaderRow _).mpr ⟨hterm, hheader.symm⟩,
    (hbodyRow _).mpr ⟨⟨2⟩, ⟨0⟩, hlatch, hinner, hbody.symm⟩⟩

/-- In the body of the outer loop the counter lies between zero and nine, but no row says so. -/
theorem nested_body_lost : ∃ f, Func.parse nestedText = .ok [f] ∧
    (⟨5⟩, nestedCounter) ∈ (Analysis.ofFunc f).loopValues f ⟨1⟩ ∧
    (∃ b ∈ (f.flow.loopForest.get ⟨1⟩).latches, b ≠ (f.flow.loopForest.get ⟨1⟩).header) ∧
    (Analysis.ofFunc f).rangeIn f ⟨1⟩ nestedCounter true = ⟨⟨.constant 0, .constant 9⟩, false⟩ ∧
    (.body, (Analysis.ofFunc f).rangeIn f ⟨1⟩ nestedCounter true) ∉
      (Analysis.ofFunc f).rangeRows f ⟨1⟩ ⟨5⟩ := by
  obtain ⟨f, hparse, hx, -, -, hown, hlatch, -, -, hlost⟩ := nested_loops
  refine ⟨f, hparse, hx, ⟨⟨2⟩, Loop.bodyLatch?_eq_some hlatch⟩, hown, ?_⟩
  rw [hown]
  exact hlost

end LoopBounds
