import LoopBounds.Proofs.Range.BoundCode

/-!
# Taken tests are exact

The header of a loop ends in a branch on a comparison. Where the loop has a trip count, the
comparison is between a linear sequence and a limit, and the taken test compares the first
member with the same limit. Both compute words, and what wraps around does so in the same way in
both. So the test, computed in the preheader, tells whether control stays in the loop in the
first iteration.
-/

namespace LoopBounds

open Descriptor Emit

variable {f g h : Func} {l : Loop} {s t : State} {control : InstrId} {P Q : Prop}

namespace Func

/-- The instruction `control` is a branch, and from state `s` it stays in the loop just when
`P` holds. -/
def StaysIff (f : Func) (l : Loop) (s : State) (control : InstrId) (P : Prop) : Prop :=
  ∃ c t e, f.instr control = .branch c t e ∧
    ((if s.env c ≠ 0 then t else e) ∈ l.blocks ↔ P)

theorem StaysIff.congr (h : f.StaysIff l s control P) (hPQ : P ↔ Q) : f.StaysIff l s control Q :=
  let ⟨c, t, e, hbranch, hiff⟩ := h
  ⟨c, t, e, hbranch, hiff.trans hPQ⟩

theorem Matches.staysIff (hmatch : f.Matches g s t) (hfg : f.Extends g) (hfill : f.Filled)
    (hf : f.Valid) (hx : s.rest.head? = some control) (h : f.StaysIff l s control P) :
    g.StaysIff l t control P := by
  obtain ⟨c, t', e, hbranch, hiff⟩ := h
  have hc : c ∈ (f.instr control).operands := by
    rw [hbranch]
    exact List.mem_cons_self
  refine ⟨c, t', e, (hfg.instr (hfill _ control (hmatch.mem_instrs hx))).trans hbranch, ?_⟩
  rwa [hmatch.env_operands hf hfill hx c hc]

/-- In the first iteration of every run, control stays in the loop just when `cmp` holds of the
words of both descriptors. -/
def StartsIff (f : Func) (l : Loop) (cmp : Comparison) (lower upper : Descriptor) : Prop :=
  ∀ args s control rest, f.Run args (fun _ => True) s → s.here = l.header →
    l.iteration s.trail = 0 → s.rest = control :: rest →
    (f.instr control).isTerminator = true →
    f.StaysIff l s control (cmp.holds (lower.value s.env).toInt (upper.value s.env).toInt = true)

theorem StartsIff.extends {cmp : Comparison} {lower upper : Descriptor}
    (h : f.StartsIff l cmp lower upper) (hf : f.Valid) (hfill : f.Filled) (hfg : f.Extends g)
    (hlower : lower.FetchesOnly (·.index < f.nodes.size))
    (hupper : upper.FetchesOnly (·.index < f.nodes.size)) : g.StartsIff l cmp lower upper := by
  intro args t control rest ht hhere hiter hrest hterm
  obtain ⟨s, hs, hmatch⟩ := hfg.exists_matched hfill hf ht
  have hhead : s.rest.head? = some control :=
    (hmatch.head_cases (by rw [hrest]; rfl)).resolve_right fun hnew => by
      rw [hnew.2.kind.2.1] at hterm
      cases hterm
  obtain ⟨r, hr⟩ := List.head?_eq_some_iff.mp hhead
  rw [hfg.instr (hfill _ control (hmatch.mem_instrs hhead))] at hterm
  have hstays := h args s control r hs (hmatch.here ▸ hhere) (hmatch.trail ▸ hiter) hr hterm
  have hsame {d : Descriptor} (hd : d.FetchesOnly (·.index < f.nodes.size)) :
      d.value t.env = d.value s.env := value_congr fun y hy => hmatch.env y (hd y hy)
  rw [hsame hlower, hsame hupper]
  exact hmatch.staysIff hfg hfill hf hhead hstays

end Func

namespace Setting

variable {R : Type} [Arithmetic R] {S : Setting R} {known : Classes} {a b : Descriptor}
variable {cmp op : Comparison} {c y z : InstrId} {rest : List InstrId}

theorem Test.staysIff (htest : S.Test known control a b cmp c y z op) {u v : Int32}
    (henv : s.env c = if op.holds u.toInt v.toInt then 1 else 0) :
    S.func.StaysIff S.loop s control (cmp.holds u.toInt v.toInt = true) := by
  obtain ⟨t, e, hbranch, hsides⟩ := htest.branch
  refine ⟨c, t, e, hbranch, ?_⟩
  rcases hsides with ⟨rfl, ht, he⟩ | ⟨rfl, ht, he⟩
  · by_cases hholds : cmp.holds u.toInt v.toInt = true
    · rw [henv, if_pos hholds, if_pos (by decide)]
      exact iff_of_true ht hholds
    · rw [henv, if_neg hholds, if_neg (by decide)]
      exact iff_of_false he hholds
  · rw [Comparison.holds_inverse, Bool.not_eq_true']
    by_cases hholds : op.holds u.toInt v.toInt = true
    · rw [henv, if_pos hholds, if_pos (by decide)]
      exact iff_of_false ht (by rw [hholds]; decide)
    · rw [henv, if_neg hholds, if_neg (by decide)]
      exact iff_of_true he (Bool.eq_false_of_not_eq_true hholds)

end Setting

section Words

variable {l : LoopId} {d lower upper : Descriptor} {cmp : Comparison}

theorem ofWord_int32 (w : Int32) : ofWord Int32 w = w := Int32.cast_toInt w

theorem holds_words_of_surelyHolds (hlower : lower.IsTerm) (hupper : upper.IsTerm)
    (h : surelyHolds lower upper cmp = true) (ω : InstrId → Int32) :
    cmp.holds (lower.value ω).toInt (upper.value ω).toInt = true := by
  have hword {d : Descriptor} (hd : d.IsTerm) (c : Int32)
      (hc : d.atLeast? = some c ∨ d.atMost? = some c) : (d.value ω).toInt = c.toInt := by
    rw [hc.elim hd.value_of_atLeast? hd.value_of_atMost?, ofWord_int32]
  exact holds_of_surelyHolds_of (hword hlower) (hword hupper) h

/-- The branch of a linear test, in the first iteration, is one on the start and the limit of
the linear sequence. -/
theorem Descriptor.LinearTest.startsIff (hf : f.Valid) (hl : l.index < f.flow.loopForest.loops.size)
    {a b stride : Descriptor} {test towards : Comparison}
    (hcontrol : f.terminator? (f.flow.loopForest.get l).header = some control)
    (htest : (Setting.words hf (fun _ => 0) hl).view.control?
      (Setting.words hf (fun _ => 0) hl).view.classes control = some (a, b, test))
    (hlinear : LinearTest d a b test stride lower upper towards) (ha : a.WellFormed)
    (hb : b.WellFormed) : f.StartsIff (f.flow.loopForest.get l) towards lower upper := by
  intro args s control' rest hs hhere hiter hrest hterm
  let S := Setting.words hf args hl
  have hrun : S.Run s := hs
  have hk : S.Sound S.view.ahead S.view.classes := S.sound_classes
  obtain ⟨c, y, z, op, hcompared⟩ := S.test_of_control? htest
  obtain rfl : control' = control := by
    have := (hrun.placed.rest_of_isTerminator hf hrest hterm).2
    rw [hhere] at this
    exact Option.some.inj (this.symm.trans hcontrol)
  have hfetches : S.Fetches s s.env := fun y _ => by rw [State.reading_words]
  obtain ⟨u, v, hu, hv, henv⟩ := hcompared.exists_words hk
    (hcompared.exists_inside hk hlinear.linear) hrun hhere hrest hfetches
  obtain ⟨u', v', hu', hv', hagrees⟩ := hlinear.agrees ha hb Int32 s.env _ u v hu hv
  have hzero : S.iteration s = 0 := hiter
  rw [hzero, Nat.cast_zero, mul_zero, zero_add, ofWord_int32] at hu'
  rw [ofWord_int32] at hv'
  rw [← hu', ← hv', hagrees]
  exact hcompared.staysIff henv

/-- The taken test of a trip count compares terms. In the first iteration control stays in the
loop just when the comparison holds of their words, and it holds of all words if the trip count
needs no taken test. -/
theorem exists_takenTest (hf : f.Valid) (ht : (Analysis.ofFunc f).tripCount? f l = some d) :
    ∃ kind count op cmp lower upper, d = guardedCount kind count (binary op lower upper) ∧
      op.comparison? = some cmp ∧ lower.IsTerm ∧ upper.IsTerm ∧
      (kind.needsTaken = false → ∀ ω : InstrId → Int32,
        cmp.holds (lower.value ω).toInt (upper.value ω).toInt = true) ∧
      f.StartsIff (f.flow.loopForest.get l) cmp lower upper := by
  obtain ⟨_, -, hstored⟩ := Option.bind_eq_some_iff.mp ht
  have hl := Analysis.lt_of_stored? hstored
  have hk := (Setting.words hf (fun _ => 0) hl).sound_classes
  obtain ⟨control, hcontrol, htrip⟩ := (Setting.words hf (fun _ => 0) hl).exists_control hl ht
  obtain ⟨a, b, test, stride, lower, upper, towards, htest, hlinear⟩ := exists_linearTest htrip
  obtain ⟨c, y, z, op, hcompared⟩ := Setting.test_of_control? htest
  have ha := Setting.wellFormed_of_lookup hk hcompared.left
  have hb := Setting.wellFormed_of_lookup hk hcompared.right
  obtain ⟨-, hlower, hupper⟩ := hlinear.terms ha hb
  obtain ⟨step, -, hmoves, rfl⟩ := LoopView.linearTripCount?_eq_some hlinear.trip
  have hordered (ω : InstrId → Int32) :
      (orderedTest lower upper step.toInt towards).holds (lower.value ω).toInt
        (upper.value ω).toInt = towards.holds (lower.value ω).toInt (upper.value ω).toInt :=
    holds_orderedTest_of fun _ h => holds_words_of_surelyHolds hlower hupper h ω
  rw [tripCountOf, combine_testOperation]
  refine ⟨_, _, _, _, lower, upper, rfl, comparison?_testOperation hmoves, hlower, hupper, ?_, ?_⟩
  · intro hneeds ω
    exact holds_words_of_surelyHolds hlower hupper (by simpa using hneeds) ω
  · intro args s control' rest hs hhere hiter hrest hterm
    rw [hordered]
    exact hlinear.startsIff hf hl hcontrol htest ha hb args s control' rest hs hhere hiter hrest
      hterm

end Words

section Code

variable {g' : Func} {l : LoopId} {p : BlockId} {x : InstrId} {a b test : Descriptor}
variable {op : Operation} {cmp : Comparison} {inBody : Bool} {context : InstrId}

theorem Descriptor.computes_emit_compare (hop : op.comparison? = some cmp) (ha : a.IsTerm)
    (hb : b.IsTerm) : Computes
      (fun env => if cmp.holds (a.value env).toInt (b.value env).toInt then 1 else 0)
      ((binary op a b).emit none inBody p .upper) := by
  rw [emit_compare hop]
  exact (ha.computes_emitWith .upper).append₂ (hb.computes_emitWith .upper) (k := .compare cmp)
    (r := fun u v => if cmp.holds u.toInt v.toInt then 1 else 0) fun _ _ => ⟨trivial, fun _ => rfl⟩

theorem Descriptor.yields_emit_compare (hop : op.comparison? = some cmp) (ha : a.IsTerm)
    (hb : b.IsTerm) (hp : p.index < g.blocks.size) :
    Yields (fun _ => True) ((binary op a b).emit none inBody p .upper) g fun g' x =>
      (∃ y z, g'.instr x = .compare cmp y z) ∧ x ∈ g.added g' p := by
  rw [emit_compare hop]
  refine (ha.computes_emitWith .upper g).bind fun y g₁ hg₁ _ _ =>
    (hb.computes_emitWith .upper g₁).bind fun z g₂ hg₂ _ _ =>
      ⟨trivial, Func.extends_addInstr g₂ p none trivial, fun x hx => ?_⟩
  obtain rfl := Option.some.inj hx
  rw [outcome_append]
  refine ⟨⟨y, z, Func.instr_addNode_nextId⟩, ?_⟩
  rw [Func.added_addInstr (hg₁.trans hg₂) hp]
  exact List.mem_append_right _ List.mem_cons_self

/-- What is computed in the preheader from values from outside the loop has its value throughout
the loop. -/
theorem Func.Run.env_eq_of_appends {args : Nat → Int32} {allowed : State → Prop} {w : Env → Int32}
    (hs : h.Run args allowed s) (hh : h.Valid) (hg : g.Appends (· = p) g') (hgh : g'.Extends h)
    (hp : (h.flow.loopForest.get l).preheader = some p) (hx : h.home x = p)
    (hin : s.here ∈ (h.flow.loopForest.get l).blocks)
    (hw : ∀ env, h.Settled g.nodes.size g'.nodes.size env → env x = w env)
    (hcongr : ∀ env env', (∀ y, (h.instr y).isLeaf = true ∨
      h.home y ∉ (h.flow.loopForest.get l).blocks → env' y = env y) → w env' = w env) :
    s.env x = w s.env := by
  have hway (b : BlockId) := Analysis.wayIn_iff_of_preheader (b := b) hh.toCoherent hp
  refine hs.of_ways_in hh (hh.flow.natural (Analysis.mem_ids_of_preheader hp))
    (φ := fun env => env x = w env) (fun env env' hsame henv => ?_) ?_ hin
  · rw [hcongr env env' hsame, ← henv]
    exact hsame x (.inr (hx ▸ ((hway p).mpr rfl).2))
  · intro s z rest hs hout hedge hrest hz
    exact hw s.env (hg.settled hgh hh hs ((hway s.here).mp ⟨hedge, hout⟩) hrest hz)

/-- A taken test is generated from the trip count of the loop around the context. -/
theorem Analysis.generateTaken_eq_some {a : Analysis}
    (h : a.generateTaken g context p = (some x, g')) :
    ∃ m inBody kind count test, a.contextLoop? g context = some (m, inBody) ∧
      a.tripCount? g m = some (guardedCount kind count test) ∧
      outcome (test.emit none inBody p .upper) g = (some x, g') := by
  unfold generateTaken at h
  split at h
  · rename_i test inBody htest
    obtain ⟨m, kind, count, hm, htrip⟩ := takenTest?_eq_some htest
    split_ifs at h
    · exact ⟨m, inBody, kind, count, test, hm, htrip, h⟩
    · cases h
  · cases h

end Code

section Exact

variable {g' : Func} {l : LoopId} {p : BlockId} {x : InstrId} {context : InstrId} {inBody : Bool}
variable {kind : TripKind} {count test lower upper : Descriptor} {op : LoopBounds.Operation}
variable {cmp : Comparison}
variable (hf : f.Valid) (hfill : f.Filled)

include hf

theorem Analysis.fetchesOnly_takenTest (hfill : f.Filled)
    (hp : (f.flow.loopForest.get l).preheader = some p)
    (h : (ofFunc f).tripCount? f l = some (guardedCount kind count test)) :
    test.FetchesOnly fun y => f.AvailableAtEnd p y ∧ y.index < f.nodes.size ∧
      ((f.instr y).isLeaf = true ∨ f.home y ∉ (f.flow.loopForest.get l).blocks) := by
  obtain ⟨_, -, hstored⟩ := Option.bind_eq_some_iff.mp h
  have hl := lt_of_stored? hstored
  have hbefore := (Setting.words hf (fun _ => 0) hl).fetchesOnly_of_stored? hl hstored
  intro y hy
  exact ⟨(fetchesOnly_guardedCount.mp (fetchesOnly_availableAtEnd hf hp hstored)).2 y hy,
    (fetchesOnly_guardedCount.mp (fetchesOnly_index_lt hf hfill hstored)).2 y hy,
    ((fetchesOnly_guardedCount.mp hbefore).2 y hy).imp_right fun h => h.2.1⟩

/-- A comparison that is computed in the preheader, of what the loop does not compute, has the
truth value of the words throughout the loop, in every function that has grown from there. -/
theorem Func.Run.env_emit_compare {args : Nat → Int32} {allowed : State → Prop}
    (hs : h.Run args allowed s) (hh : h.Valid) (hfg : f.Extends g) (hgh : g'.Extends h)
    (hp : (f.flow.loopForest.get l).preheader = some p) (hop : op.comparison? = some cmp)
    (hlower : lower.IsTerm) (hupper : upper.IsTerm)
    (hfetches : (binary op lower upper).FetchesOnly fun y => y.index < f.nodes.size ∧
      ((f.instr y).isLeaf = true ∨ f.home y ∉ (f.flow.loopForest.get l).blocks))
    (hout : outcome ((binary op lower upper).emit none inBody p .upper) g = (some x, g'))
    (hadded : x ∈ g.added g' p) (hin : s.here ∈ (f.flow.loopForest.get l).blocks) :
    s.env x = if cmp.holds (lower.value s.env).toInt (upper.value s.env).toInt then 1 else 0 := by
  have hptarget : p.index < g.blocks.size :=
    hfg.blocks ▸ Analysis.index_lt_of_preheader hf.toCoherent hp
  have happends : g.Appends (· = p) g' := (appends_emit (P := (· = p)) hptarget rfl
    (fun y hy => (hfetches y hy).1.trans_le hfg.size) (fun _ ht => by cases ht) hout).1
  have hfh : f.Extends h := hfg.trans (happends.toExtends.trans hgh)
  have hcomputes : Computes
      (fun env => if cmp.holds (lower.value env).toInt (upper.value env).toInt then 1 else 0)
      ((binary op lower upper).emit none inBody p .upper) :=
    computes_emit_compare hop hlower hupper
  have hvalue := (hcomputes g).result
  rw [hout] at hvalue
  refine hs.env_eq_of_appends hh happends hgh (l := l) (by rwa [hfh.flow]) ?_ (by rwa [hfh.flow])
    (fun env => hvalue x rfl h env hgh) fun env env' hsame => ?_
  · exact (hgh.home (happends.index_lt hadded)).trans (happends.home_eq hadded)
  · have hread : (binary op lower upper).FetchesOnly fun y => env' y = env y := by
      intro y hy
      obtain ⟨hlt, hout⟩ := hfetches y hy
      apply hsame y
      rwa [hfh.instr hlt, hfh.home hlt, hfh.flow]
    obtain ⟨hl, hu⟩ := fetchesOnly_binary.mp hread
    rw [value_congr hl, value_congr hu]

include hfill

/-- A generated taken test is a comparison in its block, and it is true just when control stays
in the loop in the iteration that comes next, in every function that has grown from there. -/
theorem staysIff_of_generateTaken (hp : (f.flow.loopForest.get l).preheader = some p)
    (hfg : f.Extends g) (hg : g.Valid)
    (hcontext : (Analysis.ofFunc f).contextLoop? g context = some (l, inBody))
    (hgen : (Analysis.ofFunc f).generateTaken g context p = (some x, g')) :
    g'.Valid ∧ (∃ cmp y z, g'.instr x = .compare cmp y z) ∧ x ∈ g.added g' p ∧
      ∀ h, g'.Extends h → h.Valid → ∀ args s past control rest,
        h.Run args (fun _ => True) s →
        s.trail = (f.flow.loopForest.get l).header :: p :: past → s.rest = control :: rest →
        (h.instr control).isTerminator = true →
        h.StaysIff (f.flow.loopForest.get l) s control (s.env x ≠ 0) := by
  obtain ⟨m, inBody', kind, count, test, hm, htrip, hout⟩ := Analysis.generateTaken_eq_some hgen
  obtain ⟨rfl, -⟩ := Prod.mk.inj (Option.some.inj (hm.symm.trans hcontext))
  rw [hfg.tripCount?_eq] at htrip
  have hfetches := Analysis.fetchesOnly_takenTest hf hfill hp htrip
  obtain ⟨kind', count', op, cmp, lower, upper, heq, hop, hlower, hupper, -, hstarts⟩ :=
    exists_takenTest hf htrip
  obtain ⟨rfl, rfl, rfl⟩ := guardedCount.inj heq
  have hpf := Analysis.index_lt_of_preheader hf.toCoherent hp
  have hvalid : GrownValid f g' := by
    have hgrown : GrownValid f
        (outcome ((binary op lower upper).emit none inBody' p .upper) g).2 :=
      grownValid_emit hfill hpf (fun y hy => (hfetches y hy).1) ⟨hfg, hg⟩
    rwa [hout] at hgrown
  have hyields : Yields (fun _ => True) ((binary op lower upper).emit none inBody' p .upper) g
      fun g' x => (∃ y z, g'.instr x = .compare cmp y z) ∧ x ∈ g.added g' p :=
    yields_emit_compare hop hlower hupper (hfg.blocks ▸ hpf)
  have hcode := hyields.result
  rw [hout] at hcode
  obtain ⟨hcompare, hadded⟩ := hcode x rfl
  refine ⟨hvalid.2, ⟨cmp, hcompare⟩, hadded, ?_⟩
  intro h hgh hh args s past control rest hs htrail hrest hterm
  have hhere : s.here = (f.flow.loopForest.get m).header := (List.cons.inj htrail).1
  have hnatural := hf.flow.natural (Analysis.mem_ids_of_preheader hp)
  have henv := hs.env_emit_compare hf hh hfg hgh hp hop hlower hupper
    (fun y hy => (hfetches y hy).2) hout hadded (hhere ▸ hnatural.header_mem)
  have hiter : (f.flow.loopForest.get m).iteration s.trail = 0 := by
    have hpout := ((Analysis.wayIn_iff_of_preheader hf.toCoherent hp).mpr rfl).2
    rw [htrail, Loop.iteration, if_pos rfl,
      if_neg fun hlatch => hpout (hnatural.latch_mem p hlatch)]
  obtain ⟨hl, hu⟩ := fetchesOnly_binary.mp fun y hy => (hfetches y hy).2.1
  refine ((hstarts.extends hf hfill (hvalid.1.trans hgh) hl hu) args s control rest hs hhere hiter
    hrest hterm).congr ?_
  rw [henv]
  split_ifs with hholds
  · exact iff_of_true hholds (by decide)
  · exact iff_of_false hholds (by decide)

/-- The taken test is exact. If there is one for the loop around a context and it is computed in
the preheader, then whenever control comes from there the test is true just when the branch that
ends the header stays in the loop in the first iteration, whatever wraps around. If the trip
count needs no taken test, the branch stays in the loop in the first iteration of every run. -/
theorem Func.takenTest_exact :
    (∀ (l : LoopId) (p : BlockId) (g g' : Func) (context x : InstrId) (inBody : Bool),
      (f.flow.loopForest.get l).preheader = some p → f.Extends g → g.Valid →
      (Analysis.ofFunc f).contextLoop? g context = some (l, inBody) →
      (Analysis.ofFunc f).generateTaken g context p = (some x, g') →
      g'.Valid ∧ (∃ cmp y z, g'.instr x = .compare cmp y z) ∧ x ∈ g.added g' p ∧
        ∀ h, g'.Extends h → h.Valid → ∀ args s past control rest,
          h.Run args (fun _ => True) s →
          s.trail = (f.flow.loopForest.get l).header :: p :: past → s.rest = control :: rest →
          (h.instr control).isTerminator = true →
          h.StaysIff (f.flow.loopForest.get l) s control (s.env x ≠ 0)) ∧
    ∀ (l : LoopId) (t : Descriptor) (kind : TripKind),
      (Analysis.ofFunc f).tripCount? f l = some t → t.tripKind? = some kind →
      kind.needsTaken = false → ∀ args s control rest, f.Run args (fun _ => True) s →
        s.here = (f.flow.loopForest.get l).header →
        (f.flow.loopForest.get l).iteration s.trail = 0 → s.rest = control :: rest →
        (f.instr control).isTerminator = true →
        f.StaysIff (f.flow.loopForest.get l) s control True := by
  constructor
  · intro l p g g' context x inBody hp hfg hg hcontext hgen
    exact staysIff_of_generateTaken hf hfill hp hfg hg hcontext hgen
  · intro l t kind ht hkind hneeds args s control rest hs hhere hiter hrest hterm
    obtain ⟨kind', count, op, cmp, lower, upper, rfl, -, -, -, hsurely, hstays⟩ :=
      exists_takenTest hf ht
    obtain rfl := Option.some.inj hkind
    exact (hstays args s control rest hs hhere hiter hrest hterm).congr
      (iff_true_intro (hsurely hneeds s.env))

end Exact

/-- The limit `n - 10` wraps around in the test of the header and in the taken test alike, so both
are true. -/
theorem overrun_takenTest_exact : ∃ g s,
    (Analysis.ofFunc overrun).generateTaken overrun ⟨12⟩ ⟨0⟩ = (some ⟨15⟩, g) ∧
    g.Run (fun _ => -2147483643) (fun _ => True) s ∧ s.trail = [⟨1⟩, ⟨0⟩] ∧
    s.env ⟨7⟩ = 2147483643 ∧ s.env ⟨8⟩ = 1 ∧ s.env ⟨15⟩ ≠ 0 := by
  have hvalid : overrun.Valid := Func.valid_of_check (by decide +kernel)
  have hfill : overrun.Filled := Func.filled_of_check rfl
  have hgen : (Analysis.ofFunc overrun).generateTaken overrun ⟨12⟩ ⟨0⟩ = (some ⟨15⟩, _) :=
    Prod.ext (by decide +kernel) rfl
  obtain ⟨hvalid', -, -, hexact⟩ := (Func.takenTest_exact hvalid hfill).1 ⟨0⟩ ⟨0⟩ overrun _ ⟨12⟩
    ⟨15⟩ true (by decide +kernel) (Func.extends_refl overrun) hvalid (by decide +kernel) hgen
  obtain ⟨s, s', hs, -, hfound⟩ := Func.exists_step_of_after
    ((Analysis.ofFunc overrun).generateTaken overrun ⟨12⟩ ⟨0⟩).2 (fun _ => -2147483643)
    (fun _ => True) 5 (fun s _ => s.trail = [⟨1⟩, ⟨0⟩] ∧ s.rest = [⟨9⟩] ∧
      s.env ⟨7⟩ = 2147483643 ∧ s.env ⟨8⟩ = 1) (by decide +kernel)
  obtain ⟨htrail, hrest, hlimit, htest⟩ := of_decide_eq_true hfound
  refine ⟨_, s, hgen, hs, htrail, hlimit, htest, ?_⟩
  have hheader : (overrun.flow.loopForest.get ⟨0⟩).header = ⟨1⟩ := by decide +kernel
  obtain ⟨c, t, e, hbranch, hiff⟩ := hexact _ (Func.extends_refl _) hvalid' _ s [] ⟨9⟩ [] hs
    (hheader ▸ htrail) hrest (by decide +kernel)
  have hinstr : ((Analysis.ofFunc overrun).generateTaken overrun ⟨12⟩ ⟨0⟩).2.instr ⟨9⟩ =
      .branch ⟨8⟩ ⟨2⟩ ⟨3⟩ := by decide +kernel
  obtain ⟨rfl, rfl, rfl⟩ := Instr.branch.inj (hinstr.symm.trans hbranch)
  rw [htest] at hiff
  exact hiff.mp (by decide +kernel)

end LoopBounds
