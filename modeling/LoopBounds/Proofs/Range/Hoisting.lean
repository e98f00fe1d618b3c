import LoopBounds.Proofs.Range.BodyContext
import LoopBounds.Proofs.Range.Decision
import LoopBounds.Proofs.Run.Growth

/-!
# Bounds in front of loops

Hoisting adds code to preheaders and so changes no behaviour. The function stays valid as long
as all that is fetched is there at the end of the preheader. That is so for the bounds of a
loop, and for its own taken test. Where the latch that serves as body context lies in an inner
loop, the taken test of the inner loop is written instead. What it fetches may be computed in
the outer loop, and then it is not there yet.
-/

namespace LoopBounds

open Descriptor Emit

variable {f g : Func} {a : Analysis} {p : BlockId} {context x : InstrId} {l m : LoopId}
variable {d test : Descriptor} {inBody : Bool} {I : Func → Prop}

namespace Func

/-- The taken test that hoisting writes to the preheader `p` of loop `l` is that of another
loop, the innermost one around the body context of `l`. -/
def BorrowsTest (f : Func) (l : LoopId) (p : BlockId) (test : Descriptor) : Prop :=
  let a := Analysis.ofFunc f
  ∃ context m inBody kind count,
    (a.forest.get l).preheader = some p ∧ a.bodyContext? f l = some context ∧
    a.contextLoop? f context = some (m, inBody) ∧ m ≠ l ∧ a.loopValues f l ≠ [] ∧
    a.tripCount? f m = some (guardedCount kind count test) ∧ kind.needsTaken = true ∧
    test.canEmit none inBody .upper = true

end Func

namespace Emit

theorem rule_true (p : BlockId) : Rule p (fun _ => True) fun _ _ => True where
  constant g v _ := ⟨trivial, Func.extends_addConstant g v, by simp⟩
  append g i _ hi _ := ⟨trivial, Func.extends_addInstr g p none hi, by simp⟩
  mono _ _ _ _ _ _ := trivial

/-- The functions that have grown from `f` and are valid. -/
def GrownValid (f g : Func) : Prop := f.Extends g ∧ g.Valid

theorem rule_valid (hfill : f.Filled) (hp : p.index < f.blocks.size) :
    Rule p (GrownValid f) fun g y => g.AvailableAtEnd p y where
  constant g v hg := by
    have hext := Func.extends_addConstant g v
    refine ⟨⟨hg.1.trans hext, Func.valid_addConstant hg.2 (hg.1.filled hfill) v⟩, hext, ?_⟩
    intro x hx
    obtain rfl := Option.some.inj hx
    exact .inl (Func.isLeaf_addConstant g v)
  append g i hg hi hops := by
    have hext := Func.extends_addInstr g p none hi
    have hvalid : (g.addInstr p none i).Valid :=
      Func.valid_addInstr hg.2 (hg.1.filled hfill) hi hops
    refine ⟨⟨hg.1.trans hext, hvalid⟩, hext, ?_⟩
    intro x hx
    obtain rfl := Option.some.inj hx
    exact Func.availableAtEnd_addInstr none i (hg.1.blocks ▸ hp)
  mono g g' y hg hext hy := hext.availableAtEnd (hg.1.filled hfill) hy

theorem grownValid_emit (hfill : f.Filled) (hp : p.index < f.blocks.size)
    (hd : d.FetchesOnly (f.AvailableAtEnd p)) (hg : GrownValid f g) :
    GrownValid f (outcome (d.emit none inBody p .upper) g).2 :=
  (keeps_emit (rule_valid hfill hp) (fun _ ht => by cases ht)
    (fun y hy _ hg => hg.1.availableAtEnd hfill (hd y hy)) .upper g hg).keeps

end Emit

namespace Analysis

theorem generateBounds_func (a : Analysis) (g : Func) (context x : InstrId) (p : BlockId) :
    (a.generateBounds g context x p).2 = g ∨ ∃ q, a.query? g context x = some q ∧
      (a.generateBounds g context x p).2 = (outcome (q.emitBounds p) g).2 := by
  unfold generateBounds
  split
  · rename_i q hq
    split_ifs
    · exact .inr ⟨q, hq, rfl⟩
    · exact .inl rfl
  · exact .inl rfl

theorem generateTaken_func (a : Analysis) (g : Func) (context : InstrId) (p : BlockId) :
    (a.generateTaken g context p).2 = g ∨ ∃ test inBody,
      a.takenTest? g context = some (test, inBody) ∧ test.canEmit none inBody .upper = true ∧
      (a.generateTaken g context p).2 = (outcome (test.emit none inBody p .upper) g).2 := by
  unfold generateTaken
  split
  · rename_i test inBody htest
    split_ifs with hcan
    · exact .inr ⟨test, inBody, htest, hcan, rfl⟩
    · exact .inl rfl
  · exact .inl rfl

section Fold

variable (a) {values : List (InstrId × Descriptor)}

/-- A value is passed over without a trace, or code for its bounds is written, which hold without
a finite test. -/
theorem hoistValue_cases (context : InstrId) (p : BlockId) (h : Hoisted) (x : InstrId) :
    a.hoistValue context p h x = h ∨ ∃ tests code g, a.tests? h.func context x = some tests ∧
      tests.needsFinite = false ∧ a.generateBounds h.func context x p = (some code, g) ∧
      a.hoistValue context p h x = ⟨g, true, h.needsTaken || tests.needsTaken⟩ := by
  unfold hoistValue
  cases htests : a.tests? h.func context x with
  | none => exact .inl rfl
  | some tests =>
    dsimp only
    split_ifs with hfinite
    · exact .inl rfl
    · cases hgen : a.generateBounds h.func context x p with
      | mk code g =>
        cases code with
        | none =>
          have hsame := a.generateBounds_of_none h.func context x p (by rw [hgen])
          rw [hgen] at hsame
          obtain rfl : g = h.func := hsame
          exact .inl rfl
        | some code =>
          exact .inr ⟨tests, code, g, rfl, Bool.eq_false_of_not_eq_true hfinite, rfl, rfl⟩

/-- What the code for each value keeps is kept, and a taken test is needed only where a query
says so. -/
theorem foldl_hoistValue (values : List InstrId) {h : Hoisted} (hI : I h.func)
    (hgen : ∀ x ∈ values, ∀ g tests, I g → a.tests? g context x = some tests →
      tests.needsFinite = false → (a.generateBounds g context x p).1.isSome = true →
      I (a.generateBounds g context x p).2) :
    I (values.foldl (a.hoistValue context p) h).func ∧
      ((values.foldl (a.hoistValue context p) h).needsTaken = true → h.needsTaken = true ∨
        ∃ x ∈ values, ∃ g q, I g ∧ a.query? g context x = some q ∧ q.needsTaken = true) := by
  induction values generalizing h with
  | nil => exact ⟨hI, .inl⟩
  | cons x values ih =>
    rw [List.foldl_cons]
    have hrest : ∀ y ∈ values, _ := fun y hy => hgen y (List.mem_cons_of_mem _ hy)
    rcases a.hoistValue_cases context p h x with
      hsame | ⟨tests, code, g, htests, hfinite, hcode, hnew⟩
    · rw [hsame]
      exact (ih hI hrest).imp_right fun hneeds h' => (hneeds h').imp_right
        fun ⟨y, hy, hq⟩ => ⟨y, List.mem_cons_of_mem _ hy, hq⟩
    · have hg := hgen x List.mem_cons_self h.func tests hI htests hfinite (by rw [hcode]; rfl)
      rw [hcode] at hg
      rw [hnew]
      refine (ih (h := ⟨g, true, h.needsTaken || tests.needsTaken⟩) hg hrest).imp_right
        fun hneeds h' => ?_
      rcases hneeds h' with h' | ⟨y, hy, hq⟩
      · refine (Bool.or_eq_true_iff.mp h').imp_right fun hneeds => ?_
        obtain ⟨q, hq, htests⟩ := Option.bind_eq_some_iff.mp htests
        obtain ⟨-, -, -, -, rfl⟩ := Query.tests?_eq_some_iff.mp htests
        exact ⟨x, List.mem_cons_self, h.func, q, hI, hq, hneeds⟩
      · exact .inr ⟨y, List.mem_cons_of_mem _ hy, hq⟩

theorem hoistLoop_keeps (hg : I g)
    (hgen : ∀ p context, (a.forest.get l).preheader = some p →
      a.bodyContext? g l = some context → ∀ t ∈ a.loopValues g l, ∀ g' tests, I g' →
        a.tests? g' context t.1 = some tests → tests.needsFinite = false →
        (a.generateBounds g' context t.1 p).1.isSome = true →
        I (a.generateBounds g' context t.1 p).2)
    (htaken : ∀ p context, (a.forest.get l).preheader = some p →
      a.bodyContext? g l = some context → ∀ g', I g' →
      (∃ t ∈ a.loopValues g l, ∃ g'' q, I g'' ∧ a.query? g'' context t.1 = some q ∧
        q.needsTaken = true) → (a.generateTaken g' context p).1.isSome = true →
      I (a.generateTaken g' context p).2) :
    I (a.hoistLoop g l).1 := by
  unfold hoistLoop
  split
  · rename_i p context hp hc
    have hstart : I (⟨g, false, false⟩ : Hoisted).func := hg
    obtain ⟨hkeeps, hneeds⟩ := a.foldl_hoistValue ((a.loopValues g l).map Prod.fst) hstart
      (List.forall_mem_map.mpr (hgen p context hp hc))
    dsimp only
    split_ifs with hneeded
    · rcases hneeds hneeded with h | ⟨x, hx, hq⟩
      · cases h
      · obtain ⟨t, ht, rfl⟩ := List.mem_map.mp hx
        refine Decidable.byCases (htaken p context hp hc _ hkeeps ⟨t, ht, hq⟩) fun hnone => ?_
        rwa [a.generateTaken_of_none _ _ _ (Option.not_isSome_iff_eq_none.mp hnone)]
    · exact hkeeps
  · exact hg

theorem extends_generateBounds (a : Analysis) (g : Func) (context x : InstrId) (p : BlockId) :
    g.Extends (a.generateBounds g context x p).2 := by
  rcases a.generateBounds_func g context x p with heq | ⟨q, -, heq⟩
  · rw [heq]
    exact Func.extends_refl g
  · rw [heq]
    exact (yields_emitBounds (rule_true p) (fun _ _ _ _ _ _ => trivial)
      (fun _ _ _ _ => trivial) trivial).grows

theorem extends_generateTaken (a : Analysis) (g : Func) (context : InstrId) (p : BlockId) :
    g.Extends (a.generateTaken g context p).2 := by
  rcases a.generateTaken_func g context p with heq | ⟨test, inBody, -, -, heq⟩
  · rw [heq]
    exact Func.extends_refl g
  · rw [heq]
    exact (keeps_emit (rule_true p) (fun _ _ _ _ _ _ => trivial) (fun _ _ _ _ => trivial) .upper
      g trivial).grows

theorem extends_hoistValue (a : Analysis) (context : InstrId) (p : BlockId) (h : Hoisted)
    (x : InstrId) : h.func.Extends (a.hoistValue context p h x).func := by
  rcases a.hoistValue_cases context p h x with hsame | ⟨tests, code, g, -, -, hcode, hnew⟩
  · rw [hsame]
    exact Func.extends_refl h.func
  · have hext := a.extends_generateBounds h.func context x p
    rw [hcode] at hext
    exact hnew ▸ hext

theorem extends_hoistLoop (a : Analysis) (g : Func) (l : LoopId) :
    g.Extends (a.hoistLoop g l).1 := by
  apply a.hoistLoop_keeps (I := g.Extends) (Func.extends_refl g)
  · intro p context _ _ t _ g' _ hg' _ _ _
    exact hg'.trans (a.extends_generateBounds g' context t.1 p)
  · intro p context _ _ g' hg' _ _
    exact hg'.trans (a.extends_generateTaken g' context p)

end Fold

/-- New code has no descriptor, so the values of a loop stay the same. -/
theorem loopValues_eq (hf : f.Linked) (hfill : f.Filled) (hg : f.Extends g) (l : LoopId) :
    (ofFunc f).loopValues g l = (ofFunc f).loopValues f l := by
  obtain ⟨k, hk⟩ := Nat.exists_eq_add_of_le hg.size
  have hids : g.instrIds = f.instrIds ++ (List.range k).map fun i => ⟨f.nodes.size + i⟩ := by
    rw [Func.instrIds, hk, List.range_add, List.map_append, List.map_map]
    rfl
  rw [loopValues, hids, List.filterMap_append]
  refine (congrArg₂ _ (List.filterMap_congr fun x hx => ?_) ?_).trans (List.append_nil _)
  · obtain ⟨i, hi, rfl⟩ := List.mem_map.mp hx
    split
    · rw [hg.isLoopValue_eq _ l _ (List.mem_range.mp hi)]
    · rfl
  · apply List.filterMap_eq_nil_iff.mpr
    intro x hx
    obtain ⟨i, -, rfl⟩ := List.mem_map.mp hx
    split
    · rename_i d hstored
      exact absurd (index_lt_of_stored? hf hfill hstored) (Nat.not_lt.mpr (Nat.le_add_right _ i))
    · rfl

/-- No code is written for a value where the context lies in a loop inside that of the value. -/
theorem generateBounds_of_inner (hf : f.Linked) (hfill : f.Filled) (hg : f.Extends g)
    (hp : (f.flow.loopForest.get l).preheader = some p)
    (hc : (ofFunc f).bodyContext? f l = some context) (hx : (x, d) ∈ (ofFunc f).loopValues f l)
    (hm : (ofFunc f).contextLoop? f context = some (m, inBody)) (hne : m ≠ l) :
    ((ofFunc f).generateBounds g context x p).2 = g := by
  obtain ⟨hmem, hinstrs⟩ := bodyContext?_spec hf.toCoherent hp hc
  rcases (ofFunc f).generateBounds_func g context x p with heq | ⟨q, hq, heq⟩
  · exact heq
  · rw [hg.query?_eq _ (hfill _ context hinstrs) (mem_loopValues.mp hx).1] at hq
    obtain ⟨m', inBody', e, hm', he, rfl⟩ := query?_eq_some hq
    obtain ⟨rfl, rfl⟩ := Prod.mk.inj (Option.some.inj (hm.symm.trans hm'))
    rw [lookup_of_contextLoop?_ne hf hx hm hmem hne] at he
    obtain rfl := Option.some.inj he
    rw [heq]
    rfl

section Borrowed

variable (hf : f.Valid) (hfill : f.Filled)

include hf hfill

/-- The bounds of a loop value are computed from what is there at the end of the preheader, or
no code is needed for them. -/
theorem grownValid_generateBounds (hp : (f.flow.loopForest.get l).preheader = some p)
    (hc : (ofFunc f).bodyContext? f l = some context) (hx : (x, d) ∈ (ofFunc f).loopValues f l)
    (hg : GrownValid f g) : GrownValid f ((ofFunc f).generateBounds g context x p).2 := by
  obtain ⟨-, hinstrs⟩ := bodyContext?_spec hf.toCoherent hp hc
  obtain ⟨hlt, hstored, -⟩ := mem_loopValues.mp hx
  rcases (ofFunc f).generateBounds_func g context x p with heq | ⟨q, hq, heq⟩
  · rwa [heq]
  · rw [hg.1.query?_eq _ (hfill _ context hinstrs) hlt] at hq
    obtain ⟨m, inBody, e, hm, he, rfl⟩ := query?_eq_some hq
    have hrule := rule_valid hfill (index_lt_of_preheader hf.toCoherent hp)
    have hgrown {e : Descriptor} (he : e.FetchesOnly (f.AvailableAtEnd p)) :
        e.FetchesOnly fun y => ∀ g, GrownValid f g → g.AvailableAtEnd p y :=
      fun y hy g hg => hg.1.availableAtEnd hfill (he y hy)
    by_cases hne : m = l
    · subst hne
      rw [heq]
      refine (yields_emitBounds hrule (fun t ht => hgrown ?_) (hgrown ?_) hg).keeps
      · obtain ⟨control, -, ht⟩ := Option.bind_eq_some_iff.mp ht
        exact fetchesOnly_availableAtEnd hf hp ht
      · rw [lookup, hstored] at he
        exact Option.some.inj he ▸ fetchesOnly_availableAtEnd hf hp hstored
    · rwa [generateBounds_of_inner hf.linked hfill hg.1 hp hc hx hm hne]

theorem grownValid_generateTaken (hp : (f.flow.loopForest.get l).preheader = some p)
    (hc : (ofFunc f).bodyContext? f l = some context) (hx : (x, d) ∈ (ofFunc f).loopValues f l)
    (hneeded : ∃ q, (ofFunc f).query? f context x = some q ∧ q.needsTaken = true)
    (hborrow : ∀ test, f.BorrowsTest l p test → test.FetchesOnly (f.AvailableAtEnd p))
    (hg : GrownValid f g) : GrownValid f ((ofFunc f).generateTaken g context p).2 := by
  obtain ⟨hmem, hinstrs⟩ := bodyContext?_spec hf.toCoherent hp hc
  rcases (ofFunc f).generateTaken_func g context p with heq | ⟨test, inBody, htest, hcan, heq⟩
  · rwa [heq]
  · rw [hg.1.takenTest?_eq _ (hfill _ context hinstrs)] at htest
    obtain ⟨m, kind, count, hm, htrip⟩ := takenTest?_eq_some htest
    have hfetched : test.FetchesOnly (f.AvailableAtEnd p) := by
      by_cases hne : m = l
      · subst hne
        obtain ⟨control, -, ht⟩ := Option.bind_eq_some_iff.mp htrip
        exact (fetchesOnly_guardedCount.mp (fetchesOnly_availableAtEnd hf hp ht)).2
      · obtain ⟨q, hq, hneeds⟩ := hneeded
        obtain ⟨m', inBody', e, hm', -, rfl⟩ := query?_eq_some hq
        obtain ⟨rfl, rfl⟩ := Prod.mk.inj (Option.some.inj (hm.symm.trans hm'))
        refine hborrow test ⟨context, m, inBody, kind, count, hp, hc, hm, hne,
          List.ne_nil_of_mem hx, htrip, ?_, hcan⟩
        simpa [Query.needsTaken, htrip, tripKind?] using hneeds
    rw [heq]
    exact grownValid_emit hfill (index_lt_of_preheader hf.toCoherent hp) hfetched hg

/-- A function stays valid when code is hoisted in front of a loop, if the taken test is not
borrowed or reads only what is there. -/
theorem grownValid_hoistLoop
    (hborrow : ∀ p test, f.BorrowsTest l p test → test.FetchesOnly (f.AvailableAtEnd p))
    (hg : GrownValid f g) : GrownValid f ((ofFunc f).hoistLoop g l).1 := by
  have hvalues {t : InstrId × Descriptor} (ht : t ∈ (ofFunc f).loopValues g l) :
      t ∈ (ofFunc f).loopValues f l := loopValues_eq hf.linked hfill hg.1 l ▸ ht
  apply (ofFunc f).hoistLoop_keeps hg
  · intro p context hp hc t ht g' _ hg' _ _ _
    rw [hg.1.bodyContext?_eq] at hc
    exact grownValid_generateBounds hf hfill hp hc (hvalues ht) hg'
  · rintro p context hp hc g' hg' ⟨t, ht, g'', q, hg'', hq, hneeds⟩ -
    rw [hg.1.bodyContext?_eq] at hc
    have hlt := (mem_loopValues.mp (hvalues ht)).1
    have hcontext := hfill _ context (bodyContext?_spec hf.toCoherent hp hc).2
    rw [hg''.1.query?_eq _ hcontext hlt] at hq
    exact grownValid_generateTaken hf hfill hp hc (hvalues ht) ⟨q, hq, hneeds⟩ (hborrow p) hg'

/-- Hoisting in front of a loop that borrows a test writes just this test. -/
theorem hoistLoop_of_borrowsTest (hborrow : f.BorrowsTest l p test) (hg : f.Extends g) :
    ∃ inBody, test.canEmit none inBody .upper = true ∧
      ((ofFunc f).hoistLoop g l).1 = (outcome (test.emit none inBody p .upper) g).2 := by
  obtain ⟨context, m, inBody, kind, count, hp, hc, hm, hne, hvalues, htrip, hneeds, hcan⟩ := hborrow
  obtain ⟨hmem, hinstrs⟩ := bodyContext?_spec hf.toCoherent hp hc
  have hcontext := hfill _ context hinstrs
  refine ⟨inBody, hcan, ?_⟩
  -- Every value is fetched, so no code is written for it, and the test of the inner loop is
  -- needed.
  have hstep {t : InstrId × Descriptor} (ht : t ∈ (ofFunc f).loopValues f l) (h : Hoisted)
      (hh : h.func = g) : (ofFunc f).hoistValue context p h t.1 = ⟨g, true, true⟩ := by
    have hlookup : (ofFunc f).lookup f m t.1 = some (.fetch t.1) :=
      lookup_of_contextLoop?_ne hf.linked (d := t.2) ht hm hmem hne
    have hquery : (ofFunc f).query? h.func context t.1 =
        some ⟨.fetch t.1, some (guardedCount kind count test), inBody⟩ := by
      rw [hh, hg.query?_eq _ hcontext (mem_loopValues.mp ht).1]
      simp [query?, hm, hlookup, htrip]
    have htests : (ofFunc f).tests? h.func context t.1 = some ⟨false, true⟩ := by
      rw [tests?, hquery]
      refine Query.tests?_eq_some_iff.mpr ⟨_, rfl, fun _ => hcan, rfl, ?_⟩
      simp [Query.needsFinite, Query.needsTaken, needsTripCount, tripKind?, hneeds]
    unfold hoistValue
    rw [htests]
    have hsome : ((ofFunc f).query? h.func context t.1).bind Query.tests? = some ⟨false, true⟩ :=
      htests
    rw [hquery, Option.bind_some] at hsome
    have hcode : (ofFunc f).generateBounds h.func context t.1 p = (some ⟨none, t.1⟩, g) := by
      unfold generateBounds
      rw [hquery]
      dsimp only
      rw [hsome, hh]
      rfl
    simp [hcode]
  have hfold {values : List (InstrId × Descriptor)} (hsub : values ⊆ (ofFunc f).loopValues f l)
      (hne : values ≠ []) (h : Hoisted) (hh : h.func = g) :
      (values.map Prod.fst).foldl ((ofFunc f).hoistValue context p) h = ⟨g, true, true⟩ := by
    induction values generalizing h with
    | nil => exact absurd rfl hne
    | cons t values ih =>
      rw [List.map_cons, List.foldl_cons, hstep (hsub List.mem_cons_self) h hh]
      cases values with
      | nil => rfl
      | cons t' values =>
        exact ih (fun _ hx => hsub (List.mem_cons_of_mem _ hx)) (List.cons_ne_nil _ _) _ rfl
  have htest : (ofFunc f).takenTest? g context = some (test, inBody) := by
    rw [hg.takenTest?_eq _ hcontext]
    simp only [takenTest?, hm, htrip, taken?, bind, Option.bind_some, pure]
  unfold hoistLoop
  rw [hp, hg.bodyContext?_eq, hc]
  dsimp only
  rw [loopValues_eq hf.linked hfill hg, hfold (List.Subset.refl _) hvalues ⟨g, false, false⟩ rfl,
    if_pos rfl, generateTaken, htest]
  dsimp only
  rw [if_pos hcan]
  rfl

end Borrowed

/-- One step of hoisting through the loops of a function. -/
def hoistStep (a : Analysis) (s : Func × Bool) (l : LoopId) : Func × Bool :=
  ((a.hoistLoop s.1 l).1, s.2 || (a.hoistLoop s.1 l).2)

theorem hoistStep_fst (a : Analysis) (s : Func × Bool) (l : LoopId) :
    (a.hoistStep s l).1 = (a.hoistLoop s.1 l).1 := rfl

/-- What is kept in front of each loop is kept by hoisting through all of them. -/
theorem foldl_hoistStep_keeps (a : Analysis) (hkeeps : ∀ g l, I g → I (a.hoistLoop g l).1)
    (ls : List LoopId) {s : Func × Bool} (hs : I s.1) : I (ls.foldl a.hoistStep s).1 :=
  List.foldlRecOn (motive := fun s : Func × Bool => I s.1) ls _ hs
    fun s hs l _ => hkeeps s.1 l hs

theorem extends_foldl_hoistStep (a : Analysis) (ls : List LoopId) (s : Func × Bool) :
    s.1.Extends (ls.foldl a.hoistStep s).1 :=
  a.foldl_hoistStep_keeps (fun g l hg => hg.trans (a.extends_hoistLoop g l)) ls
    (Func.extends_refl s.1)

end Analysis

namespace Func

theorem hoistBounds_eq (f : Func) : f.hoistBounds =
    (Analysis.ofFunc f).forest.outerToInner.foldl (Analysis.ofFunc f).hoistStep (f, false) := by
  refine congrArg (fun step => List.foldl step (f, false) _) (funext₂ fun ⟨g, changed⟩ l => ?_)
  rcases heq : (Analysis.ofFunc f).hoistLoop g l with ⟨g', here⟩
  simp only [Analysis.hoistStep, heq]

theorem extends_hoistBounds (f : Func) : f.Extends f.hoistBounds.1 := by
  rw [hoistBounds_eq]
  exact Analysis.extends_foldl_hoistStep _ _ (f, false)

section Rule

variable {Q : Func → InstrId → Prop} (hf : f.Linked) (hfill : f.Filled)
variable (hext : ∀ g, I g → f.Extends g)
variable (hrule : ∀ l p, (f.flow.loopForest.get l).preheader = some p → Rule p I Q)
variable (hfetch : ∀ l x d, (Analysis.ofFunc f).stored? l x = some d →
  d.FetchesOnly fun y => ∀ g, I g → Q g y)

include hf hfill hext hrule hfetch

theorem keeps_generateBounds (hp : (f.flow.loopForest.get l).preheader = some p)
    (hc : (Analysis.ofFunc f).bodyContext? f l = some context)
    (hx : (x, d) ∈ (Analysis.ofFunc f).loopValues f l) (hg : I g) :
    I ((Analysis.ofFunc f).generateBounds g context x p).2 := by
  obtain ⟨-, hinstrs⟩ := Analysis.bodyContext?_spec hf.toCoherent hp hc
  obtain ⟨hlt, -, hvalue⟩ := Analysis.mem_loopValues.mp hx
  rcases (Analysis.ofFunc f).generateBounds_func g context x p with heq | ⟨q, hq, heq⟩
  · rwa [heq]
  · rw [(hext g hg).query?_eq _ (hfill _ context hinstrs) hlt] at hq
    obtain ⟨m, inBody, e, -, he, rfl⟩ := Analysis.query?_eq_some hq
    have hbounds (he : e.FetchesOnly fun y => ∀ g, I g → Q g y) :
        I (outcome (Query.emitBounds ⟨e, (Analysis.ofFunc f).tripCount? f m, inBody⟩ p) g).2 := by
      refine (yields_emitBounds (hrule l p hp) (fun t ht => ?_) he hg).keeps
      obtain ⟨control, -, ht⟩ := Option.bind_eq_some_iff.mp ht
      exact hfetch m control t ht
    rw [heq]
    cases hstored : (Analysis.ofFunc f).stored? m x with
    | some e' =>
      rw [Analysis.lookup, hstored] at he
      obtain rfl := Option.some.inj he
      exact hbounds (hfetch m x e' hstored)
    | none =>
      have hconst : f.constant? x = none := by
        simp only [Analysis.isLoopValue, Bool.and_eq_true, Option.isNone_iff_eq_none] at hvalue
        exact hvalue.1.2
      rw [Analysis.lookup, hstored] at he
      dsimp only at he
      split_ifs at he
      rw [fetch, hconst] at he
      obtain rfl := Option.some.inj he
      exact hg

theorem keeps_generateTaken (hp : (f.flow.loopForest.get l).preheader = some p)
    (hc : (Analysis.ofFunc f).bodyContext? f l = some context) (hg : I g) :
    I ((Analysis.ofFunc f).generateTaken g context p).2 := by
  obtain ⟨-, hinstrs⟩ := Analysis.bodyContext?_spec hf.toCoherent hp hc
  rcases (Analysis.ofFunc f).generateTaken_func g context p with heq | ⟨test, inBody, htest, -, heq⟩
  · rwa [heq]
  · rw [(hext g hg).takenTest?_eq _ (hfill _ context hinstrs)] at htest
    obtain ⟨m, kind, count, -, htrip⟩ := Analysis.takenTest?_eq_some htest
    obtain ⟨control, -, ht⟩ := Option.bind_eq_some_iff.mp htrip
    rw [heq]
    exact (keeps_emit (hrule l p hp) (fun _ ht => by cases ht)
      (fetchesOnly_guardedCount.mp (hfetch m control _ ht)).2 .upper g hg).keeps

/-- What a rule for code keeps is kept by hoisting, if the rule admits all that the stored
descriptors fetch. -/
theorem keeps_hoistBounds (hI : I f) : I f.hoistBounds.1 := by
  rw [hoistBounds_eq]
  refine (Analysis.ofFunc f).foldl_hoistStep_keeps (fun g l hg => ?_) _ hI
  have hextends := hext g hg
  apply (Analysis.ofFunc f).hoistLoop_keeps hg
  · intro p context hp hc t ht g' _ hg' _ _ _
    rw [hextends.bodyContext?_eq] at hc
    rw [Analysis.loopValues_eq hf hfill hextends] at ht
    exact keeps_generateBounds hf hfill hext hrule hfetch hp hc ht hg'
  · intro p context hp hc g' hg' _ _
    rw [hextends.bodyContext?_eq] at hc
    exact keeps_generateTaken hf hfill hext hrule hfetch hp hc hg'

end Rule

variable (hf : f.Valid) (hfill : f.Filled)

include hf hfill

theorem valid_hoistBounds
    (hborrow : ∀ l p test, f.BorrowsTest l p test → test.FetchesOnly (f.AvailableAtEnd p)) :
    f.hoistBounds.1.Valid := by
  have hgrown : GrownValid f f.hoistBounds.1 := by
    rw [hoistBounds_eq]
    exact (Analysis.ofFunc f).foldl_hoistStep_keeps
      (fun _ l hg => Analysis.grownValid_hoistLoop hf hfill (hborrow l) hg) _ ⟨extends_refl f, hf⟩
  exact hgrown.2

theorem fetchesOnly_of_valid_hoistBounds (hvalid : f.hoistBounds.1.Valid)
    (hborrow : f.BorrowsTest l p test) : test.FetchesOnly (f.AvailableAtEnd p) := by
  obtain ⟨context, m, inBody, kind, count, hp, hc, hm, -, -, htrip, -, -⟩ := id hborrow
  have hl : l ∈ (Analysis.ofFunc f).forest.outerToInner :=
    hf.flow.finished.mem_outerToInner.mpr (Analysis.mem_ids_of_preheader hp)
  obtain ⟨u, w, heq⟩ := List.append_of_mem hl
  -- The function as it is when it is the turn of the loop, and the code written then.
  have hbefore := Analysis.extends_foldl_hoistStep (Analysis.ofFunc f) u (f, false)
  generalize hs : u.foldl (Analysis.ofFunc f).hoistStep (f, false) = s at hbefore
  obtain ⟨inBody, hcan, hcode⟩ := Analysis.hoistLoop_of_borrowsTest hf hfill hborrow hbefore
  have hafter : (outcome (test.emit none inBody p .upper) s.1).2.Extends f.hoistBounds.1 := by
    rw [← hcode, ← Analysis.hoistStep_fst, hoistBounds_eq, heq, List.foldl_append, hs,
      List.foldl_cons]
    exact Analysis.extends_foldl_hoistStep _ w ((Analysis.ofFunc f).hoistStep s l)
  obtain ⟨hlt, -⟩ := Analysis.contextLoop?_eq_some hf.flow.finished hm
  obtain ⟨op, cmp, lower, upper, rfl, hop, hlower, hupper⟩ :=
    Analysis.exists_comparison_of_tripCount? hf hlt htrip
  have hpreheader : p.index < s.1.blocks.size :=
    hbefore.blocks ▸ Analysis.index_lt_of_preheader hf.toCoherent hp
  obtain ⟨x, g, hout, -, hreads⟩ := demands_emit_compare hop hlower hupper hcan s.1 hpreheader
  rw [hout] at hafter
  intro y hy
  obtain ⟨control, -, hstored⟩ := Option.bind_eq_some_iff.mp htrip
  have hold := (fetchesOnly_guardedCount.mp (Analysis.fetchesOnly_index_lt hf hfill hstored)).2 y hy
  exact (extends_hoistBounds f).availableAtEnd_of_lt hold (hreads _ hafter hvalid y hy)

/-- Hoisting changes no behaviour. It keeps the function valid exactly if every taken test that
it borrows from another loop reads only what is there at the end of the preheader. -/
theorem hoistBounds_valid_iff : (f.hoistBounds.1.Valid ↔
    ∀ l p test, f.BorrowsTest l p test → test.FetchesOnly (f.AvailableAtEnd p)) ∧
      f.SameBehaviour f.hoistBounds.1 :=
  ⟨⟨fun hvalid _ _ _ => fetchesOnly_of_valid_hoistBounds hf hfill hvalid,
    valid_hoistBounds hf hfill⟩, (extends_hoistBounds f).sameBehaviour hfill hf⟩

end Func

/-- Two loops with one latch, which lies in the inner one. The inner loop runs up to the
variable of the outer loop. -/
def borrow : Func :=
  .ofTables "borrow" .i32 [⟨0⟩, ⟨1⟩]
    #[
      { label := "entry", succs := [⟨1⟩], terminator := some ⟨4⟩ },
      { label := "outer", preds := [⟨0⟩, ⟨3⟩], succs := [⟨2⟩, ⟨4⟩], phis := [⟨5⟩],
        body := [⟨6⟩, ⟨7⟩], terminator := some ⟨8⟩ },
      { label := "inner", preds := [⟨1⟩, ⟨3⟩], succs := [⟨3⟩, ⟨4⟩], phis := [⟨9⟩],
        body := [⟨10⟩], terminator := some ⟨11⟩ },
      { label := "latch", preds := [⟨2⟩], succs := [⟨2⟩, ⟨1⟩], body := [⟨12⟩, ⟨13⟩],
        terminator := some ⟨14⟩ },
      { label := "exit", preds := [⟨1⟩, ⟨2⟩], terminator := some ⟨15⟩ }]
    #[
      ⟨"n", ⟨0⟩, .param 0⟩,
      ⟨"e", ⟨0⟩, .param 1⟩,
      ⟨"c0", ⟨0⟩, .constant 0⟩,
      ⟨"c1", ⟨0⟩, .constant 1⟩,
      ⟨"t1", ⟨0⟩, .jump ⟨1⟩⟩,
      ⟨"i", ⟨1⟩, .phi [(⟨2⟩, ⟨0⟩), (⟨6⟩, ⟨3⟩)]⟩,
      ⟨"i2", ⟨1⟩, .arith .add ⟨5⟩ ⟨3⟩⟩,
      ⟨"f", ⟨1⟩, .compare .lt ⟨1⟩ ⟨2⟩⟩,
      ⟨"t2", ⟨1⟩, .branch ⟨7⟩ ⟨2⟩ ⟨4⟩⟩,
      ⟨"j", ⟨2⟩, .phi [(⟨2⟩, ⟨1⟩), (⟨12⟩, ⟨3⟩)]⟩,
      ⟨"c", ⟨2⟩, .compare .lt ⟨9⟩ ⟨5⟩⟩,
      ⟨"t3", ⟨2⟩, .branch ⟨10⟩ ⟨3⟩ ⟨4⟩⟩,
      ⟨"j2", ⟨3⟩, .arith .add ⟨9⟩ ⟨3⟩⟩,
      ⟨"d", ⟨3⟩, .compare .lt ⟨12⟩ ⟨0⟩⟩,
      ⟨"t4", ⟨3⟩, .branch ⟨13⟩ ⟨2⟩ ⟨1⟩⟩,
      ⟨"t5", ⟨4⟩, .ret (some ⟨2⟩)⟩]
    5

theorem borrow_valid : borrow.Valid := Func.valid_of_check (by decide +kernel)

theorem borrow_filled : borrow.Filled := Func.filled_of_check rfl

theorem borrow_not_available : ¬ borrow.AvailableAtEnd ⟨0⟩ ⟨5⟩ := by
  rintro (hleaf | ⟨-, hd⟩)
  · cases hleaf
  · have := hd [] .entry
    simp [borrow, Func.ofTables, Func.home, Func.node] at this

/-- The outer loop borrows the test of the inner one, which reads the variable of the outer
loop; therefore hoisting does not keep this function valid. -/
theorem borrow_borrowsTest : ∃ test, borrow.BorrowsTest ⟨1⟩ ⟨0⟩ test ∧
    ¬ test.FetchesOnly (borrow.AvailableAtEnd ⟨0⟩) ∧ ¬ borrow.hoistBounds.1.Valid := by
  have htest : borrow.BorrowsTest ⟨1⟩ ⟨0⟩ (binary .lt (constant 0) (.fetch ⟨5⟩)) :=
    ⟨⟨14⟩, ⟨0⟩, true, ⟨true, false⟩, .fetch ⟨5⟩, by decide +kernel, by decide +kernel,
      by decide +kernel, by decide, by decide +kernel, by decide +kernel, rfl, rfl⟩
  have hnot : ¬ (binary .lt (constant 0) (.fetch ⟨5⟩)).FetchesOnly
      (borrow.AvailableAtEnd ⟨0⟩) := by
    simpa using borrow_not_available
  refine ⟨_, htest, hnot, fun hvalid => hnot ?_⟩
  exact (Func.hoistBounds_valid_iff borrow_valid borrow_filled).1.mp hvalid _ _ _ htest

theorem borrow_hoistBounds : borrow.hoistBounds =
    [⟨1⟩, ⟨0⟩].foldl (Analysis.ofFunc borrow).hoistStep (borrow, false) := by
  have hids : (Analysis.ofFunc borrow).forest.loops.toList.map Loop.id = [⟨0⟩, ⟨1⟩] := by
    decide +kernel
  have horder : (Analysis.ofFunc borrow).forest.outerFirst ⟨0⟩ ⟨1⟩ = false := by decide +kernel
  rw [Func.hoistBounds_eq, LoopForest.outerToInner, hids]
  simp [List.mergeSort, List.MergeSort.Internal.splitInTwo, horder]

/-- Hoisting leaves a comparison in the entry that reads the variable of the outer loop. -/
theorem borrow_not_valid : borrow.Valid ∧ ¬ borrow.hoistBounds.1.Valid := by
  refine ⟨borrow_valid, fun hvalid => ?_⟩
  have hext := Func.extends_hoistBounds borrow
  rw [borrow_hoistBounds] at hvalid hext
  have hav := hvalid.operand_available ⟨0⟩ [] ⟨16⟩ [⟨4⟩] (by decide +kernel) (by decide +kernel) ⟨5⟩
    (by decide +kernel)
  refine borrow_not_available (hext.availableAtEnd_of_lt (by decide) ?_)
  rcases hav with hleaf | hdone | ⟨hlisted, -, hd⟩
  · exact .inl hleaf
  · cases hdone
  · exact .inr ⟨hlisted, hd⟩

end LoopBounds
