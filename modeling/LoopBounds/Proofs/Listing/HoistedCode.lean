import LoopBounds.Proofs.Listing.Hoisted

/-!
# What hoisting adds

Hoisting appends code to preheaders and leaves everything else as it is. The code comes from two
sources: the bounds that the values of a loop have in its body, as far as they hold without a
finite test, and taken tests. Where the body context lies in an inner loop, the values of the
outer loop are fetched there, and no code is written for them. A function for which nothing is
hoisted stays the same.
-/

namespace LoopBounds

open Emit

variable {f g : Func} {p : BlockId} {context x : InstrId} {l : LoopId}

namespace Analysis

section Unchanged

variable (a : Analysis) (context : InstrId) (p : BlockId)

theorem foldl_hoistValue_cases (values : List InstrId) (h : Hoisted) :
    values.foldl (a.hoistValue context p) h = h ∨
      (values.foldl (a.hoistValue context p) h).changed = true := by
  induction values generalizing h with
  | nil => exact .inl rfl
  | cons x values ih =>
    rw [List.foldl_cons]
    rcases a.hoistValue_cases context p h x with hsame | ⟨tests, code, g, -, -, -, hnew⟩
    · rw [hsame]
      exact ih h
    · rw [hnew]
      exact .inr ((ih _).elim (fun heq => by rw [heq]) id)

theorem hoistLoop_cases (g : Func) (l : LoopId) :
    a.hoistLoop g l = (g, false) ∨ (a.hoistLoop g l).2 = true := by
  unfold hoistLoop
  split
  · exact (a.foldl_hoistValue_cases _ _ _ _).imp (fun heq => by rw [heq]; rfl) id
  · exact .inl rfl

theorem foldl_hoistStep_cases (ls : List LoopId) (s : Func × Bool) :
    ls.foldl a.hoistStep s = s ∨ (ls.foldl a.hoistStep s).2 = true := by
  induction ls generalizing s with
  | nil => exact .inl rfl
  | cons l ls ih =>
    rw [List.foldl_cons]
    rcases a.hoistLoop_cases s.1 l with hsame | hnew
    · have hstep : a.hoistStep s l = s := by rw [hoistStep, hsame, Bool.or_false]
      rw [hstep]
      exact ih s
    · have hstep : (a.hoistStep s l).2 = true := by rw [hoistStep, hnew, Bool.or_true]
      exact .inr ((ih _).elim (fun heq => by rw [heq, hstep]) id)

end Unchanged

end Analysis

namespace Func

theorem hoistBounds_of_not_changed (h : f.hoistBounds.2 = false) : f.hoistBounds.1 = f := by
  rw [hoistBounds_eq] at h ⊢
  rcases (Analysis.ofFunc f).foldl_hoistStep_cases (Analysis.ofFunc f).forest.outerToInner
    (f, false) with hsame | hnew
  · rw [hsame]
  · rw [hnew] at h
    cases h

/-- The function `g` has grown from `f` by code in preheaders: for bounds that the values of a
loop have at the end of its body and that hold without a finite test, and for taken tests. -/
inductive Hoists (f : Func) : Func → Prop
  | start : f.Hoists f
  | bounds {g g' : Func} {l : LoopId} {p : BlockId} {context x : InstrId} {d : Descriptor}
      {r : ValueRange} {code : BoundCode} : f.Hoists g →
      (f.flow.loopForest.get l).preheader = some p →
      (Analysis.ofFunc f).bodyContext? f l = some context →
      (Analysis.ofFunc f).contextLoop? f context = some (l, true) →
      (x, d) ∈ (Analysis.ofFunc f).loopValues f l →
      (Analysis.ofFunc f).range? f context x = some r → r.needsFiniteTest = false →
      (Analysis.ofFunc f).generateBounds g context x p = (some code, g') → f.Hoists g'
  | taken {g g' : Func} {l : LoopId} {p : BlockId} {context x : InstrId} : f.Hoists g →
      (f.flow.loopForest.get l).preheader = some p →
      (Analysis.ofFunc f).bodyContext? f l = some context →
      (Analysis.ofFunc f).generateTaken g context p = (some x, g') → f.Hoists g'

theorem Hoists.extends (h : f.Hoists g) : f.Extends g := by
  induction h with
  | start => exact extends_refl f
  | @bounds g g' l p context x d r code _ _ _ _ _ _ _ hgen ih =>
    have := (Analysis.ofFunc f).extends_generateBounds g context x p
    rw [hgen] at this
    exact ih.trans this
  | @taken g g' l p context x _ _ _ hgen ih =>
    have := (Analysis.ofFunc f).extends_generateTaken g context p
    rw [hgen] at this
    exact ih.trans this

section Linked

variable (hf : f.Linked) (hfill : f.Filled)

include hf hfill

/-- Code for the bounds of a value is written where the body context lies in no inner loop. -/
theorem Hoists.generateBounds {tests : GuardTests} {d : Descriptor} (h : f.Hoists g)
    (hp : (f.flow.loopForest.get l).preheader = some p)
    (hc : (Analysis.ofFunc f).bodyContext? f l = some context)
    (hx : (x, d) ∈ (Analysis.ofFunc f).loopValues f l)
    (htests : (Analysis.ofFunc f).tests? g context x = some tests)
    (hfinite : tests.needsFinite = false)
    (hsome : ((Analysis.ofFunc f).generateBounds g context x p).1.isSome = true) :
    f.Hoists ((Analysis.ofFunc f).generateBounds g context x p).2 := by
  obtain ⟨-, hinstrs⟩ := Analysis.bodyContext?_spec hf.toCoherent hp hc
  obtain ⟨q, hq, htests⟩ := Option.bind_eq_some_iff.mp htests
  rw [h.extends.query?_eq _ (hfill _ context hinstrs) (Analysis.mem_loopValues.mp hx).1] at hq
  obtain ⟨m, inBody, e, hm, -, -⟩ := Analysis.query?_eq_some hq
  by_cases hne : m = l
  · subst hne
    obtain ⟨b, -, hb, hterm⟩ := Analysis.bodyContext?_eq_some hc
    have hbody : inBody = true := by
      rw [(Analysis.contextLoop?_eq_some hf.flow.finished hm).2.2,
        Analysis.home_of_terminator? hf.toCoherent hterm]
      exact decide_eq_true hb
    have hrange : (Analysis.ofFunc f).range? f context x = some q.range := by
      rw [Analysis.range?, hq]
      rfl
    obtain ⟨-, -, -, -, rfl⟩ := Query.tests?_eq_some_iff.mp htests
    obtain ⟨code, hcode⟩ := Option.isSome_iff_exists.mp hsome
    exact .bounds h hp hc (hbody ▸ hm) hx hrange hfinite (Prod.ext hcode rfl)
  · rwa [Analysis.generateBounds_of_inner hf hfill h.extends hp hc hx hm hne]

theorem Hoists.hoistLoop (h : f.Hoists g) (l : LoopId) :
    f.Hoists ((Analysis.ofFunc f).hoistLoop g l).1 := by
  apply (Analysis.ofFunc f).hoistLoop_keeps h
  · intro p context hp hc t ht g' tests hg' htests hfinite hsome
    rw [h.extends.bodyContext?_eq] at hc
    rw [Analysis.loopValues_eq hf hfill h.extends] at ht
    exact hg'.generateBounds hf hfill hp hc ht htests hfinite hsome
  · intro p context hp hc g' hg' _ hsome
    rw [h.extends.bodyContext?_eq] at hc
    obtain ⟨x, hx⟩ := Option.isSome_iff_exists.mp hsome
    exact .taken hg' hp hc (Prod.ext hx rfl)

theorem hoists_hoistBounds : f.Hoists f.hoistBounds.1 := by
  rw [hoistBounds_eq]
  exact (Analysis.ofFunc f).foldl_hoistStep_keeps (fun _ l hg => hg.hoistLoop hf hfill l) _ .start

end Linked

/-- Hoisting in a parsed function only appends code to preheaders. -/
theorem appends_hoistBounds (hw : f.Writable) (hf : f.Linked) :
    f.Appends (fun b => ∃ l, (f.flow.loopForest.get l).preheader = some b) f.hoistBounds.1 := by
  have hkeeps := keeps_hoistBounds hf hw.filled
    (I := f.Appends fun b => ∃ l, (f.flow.loopForest.get l).preheader = some b)
    (fun g hg => hg.toExtends)
    (fun l p hp => rule_appends (Analysis.index_lt_of_preheader hf.toCoherent hp) ⟨l, hp⟩)
    fun l x d h y hy g hg => (index_lt_of_named hw (hw.fetchesOnly_named h y hy)).trans_le hg.size
  exact hkeeps (appends_refl f _)

/-- Hoisting in a parsed function keeps all nodes where they are, and of the blocks it only
changes preheaders, by code at the end of their bodies. Each new instruction adds, subtracts,
negates or compares nodes that come before it, and all other new nodes are constants. The code is
that of taken tests and of bounds that hold without a finite test. If nothing is said to have
been hoisted, the function is the same. -/
theorem hoistBounds_appends {text : String} {fs : List Func} {changed : Bool}
    (h : parse text = .ok fs) (hf : f ∈ fs) (hg : f.hoistBounds = (g, changed)) :
    f.nodes.toList <+: g.nodes.toList ∧
    (g.name = f.name ∧ g.returns = f.returns ∧ g.params = f.params ∧
      g.blocks.size = f.blocks.size) ∧
    (∀ b, g.block b = { f.block b with body := (f.block b).body ++ f.added g b } ∧
      (f.added g b ≠ [] → ∃ l, (f.flow.loopForest.get l).preheader = some b) ∧
      ∀ z ∈ f.added g b, f.nodes.size ≤ z.index ∧ z.index < g.nodes.size ∧ (g.instr z).IsCode ∧
        ∀ y ∈ (g.instr z).operands, y.index < z.index) ∧
    (∀ z, f.nodes.size ≤ z.index → z.index < g.nodes.size →
      (∃ v, g.instr z = .constant v) ∨ z ∈ f.added g (g.home z)) ∧
    f.Hoists g ∧ (changed = false → g = f) := by
  have hw := writable_of_parse h hf
  have hlinked := linked_of_parse h hf
  have happends := appends_hoistBounds hw hlinked
  have hhoists := hoists_hoistBounds hlinked hw.filled
  have hsame : f.hoistBounds.2 = false → f.hoistBounds.1 = f := hoistBounds_of_not_changed
  rw [hg] at happends hhoists hsame
  refine ⟨happends.nodes_prefix, ⟨happends.name, happends.returns, happends.params,
    happends.blocks⟩, fun b => ?_, happends.fresh, hhoists, hsame⟩
  refine ⟨(happends.extendsBlock_added b).block, happends.confined b, fun z hz => ?_⟩
  obtain ⟨hnew, hlt⟩ := (happends.extendsBlock_added b).new z hz
  exact ⟨hnew, hlt, happends.isCode hz, happends.operand b z hz⟩

end Func

/-- The bounds of the counter are written to the entry, and the other blocks stay the same. -/
theorem counting_hoistBounds_appends : ∃ f g, Func.parse countingText = .ok [f] ∧
    f.hoistBounds = (g, true) ∧ f.nodes.toList <+: g.nodes.toList ∧ f.added g ⟨0⟩ ≠ [] ∧
    (f.flow.loopForest.get ⟨0⟩).preheader = some ⟨0⟩ ∧ g.block ⟨1⟩ = f.block ⟨1⟩ ∧ f.Hoists g := by
  obtain ⟨f, hparse, hchanged, hcode, hpreheader, hother⟩ := Func.exists_parsed
    (rfl : countingText = _) (P := fun f => f.hoistBounds.2 = true ∧
      f.added f.hoistBounds.1 ⟨0⟩ ≠ [] ∧ (f.flow.loopForest.get ⟨0⟩).preheader = some ⟨0⟩ ∧
      f.added f.hoistBounds.1 ⟨1⟩ = []) (by decide +kernel)
  obtain ⟨hnodes, -, hblock, -, hhoists, -⟩ := Func.hoistBounds_appends hparse
    (List.mem_singleton_self f) (Prod.ext rfl hchanged : f.hoistBounds = (f.hoistBounds.1, true))
  refine ⟨f, _, hparse, Prod.ext rfl hchanged, hnodes, hcode, hpreheader,
    (hblock ⟨1⟩).1.trans ?_, hhoists⟩
  rw [hother, List.append_nil]

end LoopBounds
