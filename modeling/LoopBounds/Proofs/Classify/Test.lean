import LoopBounds.Proofs.Classify.Stored

/-!
# The test of the header

When the header of a loop ends in a test with one side in the loop and the other outside,
every iteration that goes on has passed the test, and the test compares what the
descriptors of its operands give to the iteration.
-/

namespace LoopBounds

/-- The words that `a` and `b` give to iteration `k` compare by `cmp`. -/
def Descriptor.Compares {R : Type} [Arithmetic R] (cmp : Comparison) (ρ : InstrId → R)
    (a b : Descriptor) (k : ℕ) : Prop :=
  ∃ u v : Int32, a.Describes none ρ k (ofWord R u) ∧ b.Describes none ρ k (ofWord R v) ∧
    cmp.holds u.toInt v.toInt = true

namespace Setting

open Descriptor

variable {R : Type} [Arithmetic R] {S : Setting R} {ahead : InstrId → Option ℕ} {known : Classes}
variable {a b : Descriptor} {cmp op : Comparison} {c y z control : InstrId}

/-- A branch of the header on a comparison, with one side in the loop. -/
structure Test (S : Setting R) (known : Classes) (control : InstrId) (a b : Descriptor)
    (cmp : Comparison) (c y z : InstrId) (op : Comparison) : Prop where
  branch : ∃ t e, S.func.instr control = .branch c t e ∧
    (cmp = op ∧ t ∈ S.loop.blocks ∧ e ∉ S.loop.blocks ∨
      cmp = op.inverse ∧ t ∉ S.loop.blocks ∧ e ∈ S.loop.blocks)
  compare : S.func.instr c = .compare op y z
  left : S.view.lookup known y = some a
  right : S.view.lookup known z = some b

theorem test_of_control? (h : S.view.control? known control = some (a, b, cmp)) :
    ∃ c y z op, S.Test known control a b cmp c y z op := by
  unfold LoopView.control? at h
  split at h
  · rename_i c t e hbranch
    split at h
    · rename_i op y z hcompare
      simp only [bind, Option.bind_eq_some_iff] at h
      obtain ⟨a', ha, b', hb, h⟩ := h
      refine ⟨c, y, z, op, ?_⟩
      split at h
      · rename_i ht he
        cases h
        have hsides := And.intro (contains_iff.mp ht) (contains_eq_false_iff.mp he)
        exact ⟨⟨t, e, hbranch, .inl ⟨rfl, hsides⟩⟩, hcompare, ha, hb⟩
      · rename_i ht he
        cases h
        have hsides := And.intro (contains_eq_false_iff.mp ht) (contains_iff.mp he)
        exact ⟨⟨t, e, hbranch, .inr ⟨rfl, hsides⟩⟩, hcompare, ha, hb⟩
      · cases h
    · cases h
  · cases h

/-- A comparison yields one or zero by the words that its operands have at the time. -/
def comparing (op : Comparison) (a b : Descriptor) : Claim R := fun ρ n r =>
  ∃ u v : Int32, a.Describes none ρ n (ofWord R u) ∧ b.Describes none ρ n (ofWord R v) ∧
    r = ofWord R (if op.holds u.toInt v.toInt then 1 else 0)

theorem follows_compare (hk : S.Sound ahead known) (hc : S.func.instr c = .compare op y z)
    (hlisted : S.func.Listed c) (ha : S.view.lookup known y = some a)
    (hb : S.view.lookup known z = some b) : S.Follows c (comparing op a b) := by
  refine follows_of_executed hlisted fun s s' hs hallowed hstep hin hexec ρ hρ => ?_
  obtain ⟨v, hv⟩ := computed_of_executed hs hstep hin hexec (by rw [hc]; rfl)
  have hρ' := hρ.of_step hs hstep hin
  have hready : ∀ w ∈ [y, z], S.Ready s w := by
    have := hv.ready
    rwa [hc] at this
  have hvalue := hv.value
  rw [hc, Instr.value?, Option.some.injEq] at hvalue
  refine ⟨s.env y, s.env z, ?_, ?_, by rw [hv.reading, ← hvalue]⟩
  · rw [hv.iteration]
    exact Describes.to_none (meets_of_lookup hk hs hv.here ha (hready y (by simp)) ρ hρ')
  · rw [hv.iteration]
    exact Describes.to_none (meets_of_lookup hk hs hv.here hb (hready z (by simp)) ρ hρ')

/-- A value of the loop is compared in the loop. -/
theorem home_mem_of_compared (hcompare : S.func.instr c = .compare op y z)
    (hinside : ∃ w ∈ [y, z], S.view.isOutside w = false) {done : List InstrId}
    (hdone : ∀ w ∈ done, S.func.home w = S.loop.header)
    (hav : S.func.AvailableAfter done S.loop.header c) : S.func.home c ∈ S.loop.blocks := by
  obtain ⟨w, hw, hout⟩ := hinside
  obtain ⟨hleaf, hhome⟩ := isOutside_eq_false_iff.mp hout
  rcases hav with h | h | ⟨hlisted, -, hdom⟩
  · rw [hcompare] at h
    cases h
  · exact hdone c h ▸ loop_natural.header_mem
  · have hop : w ∈ (S.func.instr c).operands := by
      rw [hcompare]
      exact hw
    obtain ⟨before, after, heq⟩ : ∃ before after,
        (S.func.block (S.func.home c)).instrs = before ++ c :: after :=
      List.append_of_mem (List.mem_append_left _ hlisted)
    rcases S.valid.operand_available _ before c after heq (by rw [hcompare]; rfl) w hop with
      h | h | ⟨-, -, h⟩
    · rw [hleaf] at h
      cases h
    · have hmem : w ∈ (S.func.block (S.func.home c)).instrs := heq ▸ List.mem_append_left _ h
      rwa [← S.valid.home _ w hmem]
    · have hheader := loop_natural.eq_header_of_dominates hhome (h.trans hdom)
      have hreach : S.func.flow.Reachable S.loop.header :=
        loop_natural.reachable _ loop_natural.header_mem
      rw [hheader] at h
      rw [hdom.antisymm h hreach]
      exact loop_natural.header_mem

section Header

variable {s s' : State} {rest : List InstrId} (hk : S.Sound ahead known)
variable (htest : S.Test known control a b cmp c y z op)

include htest

include hk

/-- At the end of the header the condition is one or zero by what the descriptors of its
operands give to the iteration. -/
theorem Test.exists_words (hinside : ∃ w ∈ [y, z], S.view.isOutside w = false) (hs : S.Run s)
    (hhere : s.here = S.loop.header) (hrest : s.rest = control :: rest) {ρ : InstrId → R}
    (hρ : S.Fetches s ρ) : ∃ u v : Int32, a.Describes none ρ (S.iteration s) (ofWord R u) ∧
      b.Describes none ρ (S.iteration s) (ofWord R v) ∧
      s.env c = if op.holds u.toInt v.toInt then 1 else 0 := by
  obtain ⟨t, e, hbranch, -⟩ := htest.branch
  obtain ⟨done, heq⟩ := hs.placed.instrs_eq
  have hdone : ∀ w ∈ done, S.func.home w = S.loop.header := fun w hw =>
    hhere ▸ S.valid.home _ w (heq ▸ List.mem_append_left _ hw)
  have hav : S.func.AvailableAfter done s.here c := by
    rw [hrest] at heq
    exact S.valid.operand_available _ done control rest heq (by rw [hbranch]; rfl) c
      (by rw [hbranch]; exact List.mem_cons_self)
  have hhome := home_mem_of_compared htest.compare hinside hdone (hhere ▸ hav)
  have hleaf : (S.func.instr c).isLeaf = false := by rw [htest.compare]; rfl
  have hmem : s.here ∈ S.loop.blocks := hhere ▸ loop_natural.header_mem
  have hcur := hs.placed.current_of_availableAfter S.valid loop_natural hmem heq hav hleaf hhome
  have hlisted : S.func.Listed c := by
    rcases hav with h | h | h
    · rw [hleaf] at h
      cases h
    · have hc : c ∈ (S.func.block s.here).instrs := heq ▸ List.mem_append_left _ h
      have hc' : c ∈ (S.func.block (S.func.home c)).instrs := by rwa [S.valid.home _ c hc]
      rcases List.mem_append.mp hc' with hc' | hc'
      · exact hc'
      · have := S.valid.terminator _ c (by simpa using hc')
        rw [htest.compare] at this
        cases this
    · exact h.1
  obtain ⟨u, v, hu, hv, hr⟩ := follows_compare hk htest.compare hlisted htest.left htest.right
    s hs hmem hcur ρ hρ
  exact ⟨u, v, hu, hv, Arithmetic.cast_injective _ _ hr⟩

/-- Control that stays in the loop has passed the test. -/
theorem Test.compares (hinside : ∃ w ∈ [y, z], S.view.isOutside w = false) (hs : S.Run s)
    (hhere : s.here = S.loop.header) (hrest : s.rest = control :: rest) {b' : BlockId}
    (hnext : (S.func.instr control).next? s.env = some b') (hin : b' ∈ S.loop.blocks)
    {ρ : InstrId → R} (hρ : S.Fetches s ρ) : Compares cmp ρ a b (S.iteration s) := by
  obtain ⟨t, e, hbranch, hside⟩ := htest.branch
  obtain ⟨u, v, hu, hv, henv⟩ := htest.exists_words hk hinside hs hhere hrest hρ
  rw [hbranch, Instr.next?, Option.some.injEq] at hnext
  refine ⟨u, v, hu, hv, ?_⟩
  rcases hside with ⟨rfl, -, he⟩ | ⟨rfl, ht, -⟩
  · by_contra hfails
    rw [henv, if_neg hfails, if_neg (by decide)] at hnext
    exact he (hnext ▸ hin)
  · rw [Comparison.holds_inverse, Bool.not_eq_true']
    by_contra hholds
    rw [Bool.not_eq_false] at hholds
    rw [henv, if_pos hholds, if_pos (by decide)] at hnext
    exact ht (hnext ▸ hin)

/-- The test has held in all iterations before, and in this one once control has left the
header. -/
theorem Test.passed (hinside : ∃ w ∈ [y, z], S.view.isOutside w = false)
    (hcontrol : S.func.terminator? S.loop.header = some control) (hs : S.Run s)
    (hin : s.here ∈ S.loop.blocks) {ρ : InstrId → R} (hρ : S.Fetches s ρ) :
    (∀ k < S.iteration s, Compares cmp ρ a b k) ∧
      (s.here ≠ S.loop.header → Compares cmp ρ a b (S.iteration s)) := by
  induction hs with
  | start =>
    exact absurd hin (loop_natural.entry_not_mem (Func.entry_not_mem_succs S.valid))
  | @step s s' hs hallowed hstep ih =>
    have hrun : S.Run s := hs
    have hρ' := hρ.of_step hrun hstep hin
    rcases Func.step_cases hstep with ⟨x, rest, v, -, -, -, -, rfl⟩ |
      ⟨x, rest, b', hrest, hx, hnext, -, rfl⟩
    · exact ih hin hρ'
    have hedge : b' ∈ S.func.flow.succs s.here := hrun.placed.edge S.valid hrest hx hnext
    have hleft (hhere : s.here ∈ S.loop.blocks) : Compares cmp ρ a b (S.iteration s) := by
      by_cases hheader : s.here = S.loop.header
      · have hterm := (hrun.placed.rest_of_isTerminator S.valid hrest hx).2
        rw [hheader] at hterm
        obtain rfl : control = x := Option.some.inj (hcontrol.symm.trans hterm)
        exact htest.compares hk hinside hrun hheader hrest hnext hin hρ'
      · exact (ih hhere hρ').2 hheader
    by_cases hb' : b' = S.loop.header
    · refine ⟨fun k hlt => ?_, fun hne => absurd hb' hne⟩
      have hiter : S.iteration (S.func.enter s b') =
          if s.here ∈ S.loop.latches then S.iteration s + 1 else 0 := by
        rw [hb']
        exact Func.iteration_enter_header
      rw [hiter] at hlt
      split_ifs at hlt with hlatch
      · have hhere := loop_natural.latch_mem _ hlatch
        rcases Nat.lt_succ_iff_lt_or_eq.mp hlt with hlt | rfl
        · exact (ih hhere hρ').1 k hlt
        · exact hleft hhere
      · exact absurd hlt (Nat.not_lt_zero k)
    · have hhere : s.here ∈ S.loop.blocks :=
        loop_natural.entered _ _ hin hb' hrun.placed.reachable hedge
      have hiter : S.iteration (S.func.enter s b') = S.iteration s := Func.iteration_enter hb'
      rw [hiter]
      exact ⟨(ih hhere hρ').1, fun _ => hleft hhere⟩

end Header

end Setting

end LoopBounds
