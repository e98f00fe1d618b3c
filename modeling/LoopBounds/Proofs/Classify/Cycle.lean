import LoopBounds.Proofs.Classify.Known

/-!
# Cycles through the header

A phi of the header with one source from outside starts with that value and goes on with
what comes round the loop. The provisional meanings on its cycle say how the other members
follow from it. If what comes round is an invariant step, every member whose meaning is an
invariant is that far from the phi, and the phi is linear.
-/

namespace LoopBounds.Setting

variable {R : Type} [Arithmetic R] {S : Setting R} {ahead : InstrId → Option ℕ} {known : Classes}
variable {p : InstrId} {initial : Descriptor} {s s' : State}

/-- A phi `p` of the header whose one source from outside is described by `initial`. -/
structure EntryPhi (S : Setting R) (p : InstrId) (initial : Descriptor) : Prop where
  inner : S.Inner p
  header : S.func.home p = S.loop.header
  phi : ∃ sources, S.func.instr p = .phi sources
  inputs : ∃ y rest, S.view.inputs p = y :: rest ∧ S.view.isOutside y = true ∧
    initial = S.func.fetch y
  source : ∀ sources, S.func.instr p = .phi sources → ∀ y b, (y, b) ∈ sources →
    (b ∉ S.loop.blocks → initial = S.func.fetch y) ∧
    (b ∈ S.loop.blocks → y ∈ (S.view.inputs p).drop 1)

theorem EntryPhi.listed (hp : S.EntryPhi p initial) : S.func.Listed p := by
  obtain ⟨sources, h⟩ := hp.phi
  exact hp.inner.listed (by rw [h]; rfl)

theorem EntryPhi.isTerm (hp : S.EntryPhi p initial) : initial.IsTerm := by
  obtain ⟨y, rest, -, -, rfl⟩ := hp.inputs
  exact isTerm_fetch y

theorem entryPhi_of_isEntryPhi (hk : S.Sound ahead known) (hp : S.Inner p)
    (h : S.view.isEntryPhi p = true) (hstart : S.view.start? known p = some initial) :
    S.EntryPhi p initial := by
  unfold LoopView.isEntryPhi at h
  split at h
  · rename_i sources hphi
    have hphi : S.func.instr p = .phi sources := hphi
    simp only [Bool.and_eq_true, decide_eq_true_eq] at h
    obtain ⟨hhome, hlength⟩ := h
    have hhome : S.func.home p = S.loop.header := hhome
    have hlisted : S.func.Listed p := hp.listed (by rw [hphi]; rfl)
    obtain ⟨outer, inner, hin⟩ := exists_headerInputs hphi hlisted hhome
    obtain ⟨y, rfl⟩ := List.length_eq_one_iff.mp (hin.length_outer.trans hlength)
    obtain ⟨y', hy', hout⟩ := hin.exists_outer
    obtain rfl := List.mem_singleton.mp hy'
    have hinitial : initial = S.func.fetch y' := by
      simp only [LoopView.start?, hin.inputs, bind, List.singleton_append, List.head?_cons,
        Option.bind_some] at hstart
      rw [lookup_of_isOutside hk hout, Option.some.injEq] at hstart
      exact hstart.symm
    refine ⟨hp, hhome, ⟨sources, hphi⟩, ⟨y', inner, hin.inputs, hout, hinitial⟩, ?_⟩
    intro sources' hphi' y b hmem
    obtain rfl : sources = sources' := by simpa [hphi] using hphi'
    constructor
    · intro hb
      rw [List.mem_singleton.mp ((hin.outer_iff y).mpr ⟨b, hmem, hb⟩)]
      exact hinitial
    · intro hb
      rw [hin.inputs]
      exact (hin.inner_iff y).mpr ⟨b, hmem, hb⟩
  · cases h

def StepOf (S : Setting R) (minus : Bool) (z x y : InstrId) : Prop :=
  S.func.instr z = .arith (if minus then .sub else .add) x y ∨
    minus = false ∧ S.func.instr z = .arith .add y x

section Executed

variable (hs : S.Run s) (ha : S.allowed s) (h : S.func.step? s = some s')
variable (hin : s'.here ∈ S.loop.blocks)

include hs ha h hin

theorem EntryPhi.executed (hp : S.EntryPhi p initial) (hx : p ∈ S.func.executed s s') :
    (S.iteration s' = 0 ∧ ∀ ρ, S.Fetches s' ρ → s'.reading R p = initial.value ρ) ∨
    ∃ y ∈ (S.view.inputs p).drop 1, s.here ∈ S.loop.blocks ∧ S.Ready s y ∧
      S.iteration s' = S.iteration s + 1 ∧ s'.reading R p = s.reading R y := by
  obtain ⟨sources, hphi⟩ := hp.phi
  obtain ⟨y, b, hmem, hread, rfl, harrival⟩ := arrival_of_executed hs h hin hx hphi
  obtain ⟨houter, hinner⟩ := hp.source sources hphi y _ hmem
  cases harrival with
  | inside hne _ _ _ => exact absurd hp.header hne
  | around _ hhere hiter hready =>
    exact .inr ⟨y, hinner hhere, hhere, hready, hiter, hread⟩
  | outside _ hhere hiter hout hsame =>
    refine .inl ⟨hiter, fun ρ hρ => ?_⟩
    rw [houter hhere, value_fetch (hs.step ha h) hout hρ, hsame, hread]

theorem arith_executed {z x y : InstrId} {minus : Bool}
    (hz : S.func.instr z = .arith (if minus then .sub else .add) x y)
    (hx : z ∈ S.func.executed s s') :
    s.here ∈ S.loop.blocks ∧ S.iteration s' = S.iteration s ∧ S.Ready s x ∧ S.Ready s y ∧
      s'.reading R z = Descriptor.sumValue minus (s.reading R x) (s.reading R y) := by
  obtain ⟨v, hv⟩ := computed_of_executed hs h hin hx (by rw [hz]; rfl)
  obtain ⟨rest, hrest⟩ := hv.rest
  have hready : ∀ w ∈ [x, y], S.Ready s w := by
    have := hv.ready
    rwa [hz] at this
  refine ⟨hv.here, hv.iteration, hready x (by simp), hready y (by simp), ?_⟩
  rw [hv.reading, (S.reads s ha).arith hrest hz hv.value (by split <;> decide)
    (by split <;> intro h <;> cases h)]
  cases minus
  · exact Int.cast_add _ _
  · exact Int.cast_sub _ _

theorem step_executed {z x y : InstrId} {minus : Bool} (hz : S.StepOf minus z x y)
    (hx : z ∈ S.func.executed s s') :
    s.here ∈ S.loop.blocks ∧ S.iteration s' = S.iteration s ∧ S.Ready s x ∧ S.Ready s y ∧
      s'.reading R z = Descriptor.sumValue minus (s.reading R x) (s.reading R y) := by
  rcases hz with hz | ⟨rfl, hz⟩
  · exact arith_executed hs ha h hin hz hx
  · obtain ⟨hhere, hiter, hy, hx, hval⟩ := arith_executed (R := R) hs ha h hin
      (show S.func.instr z = .arith (if false then .sub else .add) y x from hz) hx
    exact ⟨hhere, hiter, hx, hy, hval.trans (add_comm _ _)⟩

end Executed

theorem classified_alone (hk : S.Sound ahead known) (hp : S.EntryPhi p initial)
    (hkeeps : S.Keeps ahead known p) {update : Descriptor}
    (h : S.view.common (S.view.lookup known) p 1 = some update) :
    S.Classified (ahead p) p (.wrapAround initial update) := by
  obtain ⟨⟨y, hy⟩, hall⟩ := common_eq_some h
  refine ⟨hp.inner.member, hp.listed,
    .wrapAround hp.isTerm (wellFormed_of_lookup hk (hall y hy)), ?_⟩
  refine follows_of_executed hp.listed fun s s' hs ha hstep hin hexec ρ hρ => ?_
  rcases hp.executed hs ha hstep hin hexec with ⟨hiter, hval⟩ | ⟨y, hy, hhere, hready, hiter, hval⟩
  · rw [hiter, hval ρ hρ]
    rfl
  · rw [hiter, hval]
    exact meets_of_input hk hs hhere hkeeps (List.mem_of_mem_drop hy) (hall y hy) hready ρ
      (hρ.of_step hs hstep hin)

/-- How the meaning `m` of a member `z` of the cycle of `p` comes about. -/
inductive Meaning (S : Setting R) (known cycle : Classes) (p z : InstrId) : Descriptor → Prop
  /-- A phi passes on what its sources have in common. -/
  | forward {m sources} : S.func.instr z = .phi sources → (∃ y, y ∈ S.view.inputs z) →
      (∀ y ∈ S.view.inputs z, (y, m) ∈ cycle) → Meaning S known cycle p z m
  /-- A phi of the header starts with its own value and goes on with a sequence. -/
  | delay {sources outside carried first rest} : S.func.instr z = .phi sources →
      S.func.home z = S.loop.header → S.view.inputs z = [outside, carried] →
      S.view.invariant? known outside = some first →
      (carried = p ∧ S.view.start? known p = some rest ∨
        (carried, rest) ∈ cycle ∧ rest.isPeriodic = true) →
      Meaning S known cycle p z (.periodic first rest)
  /-- One step from the phi itself. -/
  | first {minus : Bool} {x y b m} : S.StepOf minus z x y → x = p →
      S.view.invariant? known y = some b →
      m = (if minus then .combine .neg none b else b) → Meaning S known cycle p z m
  /-- One more step. -/
  | next {minus : Bool} {x y a b m} : S.StepOf minus z x y → (x, a) ∈ cycle →
      a.isInvariant = true → S.view.invariant? known y = some b →
      m = .combine (Descriptor.sumOp minus) (some a) b → Meaning S known cycle p z m
  /-- The difference to the phi, which takes it back. -/
  | reflect {x outside a start} : S.func.instr z = .arith .sub x p →
      S.view.inputs p = [outside, z] → S.view.invariant? known x = some a →
      S.view.lookup known outside = some start →
      Meaning S known cycle p z (.periodic (.combine .sub (some a) start) start)

theorem Meaning.mono {cycle cycle' : Classes} {z : InstrId} {m : Descriptor}
    (hsub : ∀ t ∈ cycle, t ∈ cycle') (h : S.Meaning known cycle p z m) :
    S.Meaning known cycle' p z m := by
  cases h with
  | forward hz hne hall => exact .forward hz hne fun y hy => hsub _ (hall y hy)
  | delay hz hhome hin hfirst hrest =>
    exact .delay hz hhome hin hfirst (hrest.imp (fun h => h) fun h => ⟨hsub _ h.1, h.2⟩)
  | first hz hx hb hm => exact .first hz hx hb hm
  | next hz hx ha hb hm => exact .next hz (hsub _ hx) ha hb hm
  | reflect hz hin ha hstart => exact .reflect hz hin ha hstart

section Specification

variable {cycle : Classes} {z : InstrId} {m : Descriptor}

theorem invariant?_eq_some {v : LoopView} {x : InstrId} {b : Descriptor}
    (h : v.invariant? known x = some b) : v.lookup known x = some b ∧ b.isInvariant = true :=
  Option.filter_eq_some_iff.mp h

theorem isTerm_of_invariant? (hk : S.Sound ahead known) {x : InstrId} {b : Descriptor}
    (h : S.view.invariant? known x = some b) : b.IsTerm := by
  obtain ⟨hlookup, hi⟩ := invariant?_eq_some h
  exact (wellFormed_of_lookup hk hlookup).isTerm hi

theorem meaning_of_phiMeaning {sources : List (InstrId × BlockId)}
    (hz : S.func.instr z = .phi sources) (h : S.view.phiMeaning known cycle p z = some m) :
    S.Meaning known cycle p z m := by
  unfold LoopView.phiMeaning at h
  split at h
  · rename_i d hd
    obtain rfl := Option.some.inj h
    obtain ⟨hne, hall⟩ := common_eq_some hd
    exact .forward hz hne fun y hy => mem_of_lookup (hall y hy)
  · split at h
    · rename_i outside carried hin
      split_ifs at h with hhome hcarried
      · simp only [bind, pure, Option.bind_eq_some_iff] at h
        obtain ⟨first, hfirst, rest, hrest, h⟩ := h
        obtain rfl := Option.some.inj h
        exact .delay hz hhome hin hfirst (.inl ⟨hcarried, hrest⟩)
      · simp only [bind, pure, Option.bind_eq_some_iff] at h
        obtain ⟨first, hfirst, rest, hrest, h⟩ := h
        split at h
        · rename_i hperiodic
          obtain rfl := Option.some.inj h
          have hmem : carried ∈ (S.view.inputs z).drop 1 := by rw [hin]; exact List.mem_cons_self
          exact .delay hz hhome hin hfirst
            (.inr ⟨mem_of_lookup ((common_eq_some hrest).2 carried hmem), hperiodic⟩)
        · cases h
    · cases h

theorem meaning_of_stepMeaning {minus : Bool} {x y : InstrId} (hz : S.StepOf minus z x y)
    (h : S.view.stepMeaning known cycle p minus x y = some m) :
    S.Meaning known cycle p z m := by
  simp only [LoopView.stepMeaning, bind, pure, Option.bind_eq_some_iff] at h
  obtain ⟨b, hb, h⟩ := h
  split at h
  · rename_i hx
    have hm : m = if minus then .combine .neg none b else b := by
      split at h <;> simp_all
    exact .first hz hx hb hm
  · simp only [Option.bind_eq_some_iff] at h
    obtain ⟨a, ha, h⟩ := h
    obtain ⟨hlookup, hi⟩ := Option.filter_eq_some_iff.mp ha
    obtain rfl := Option.some.inj h
    exact .next hz (mem_of_lookup hlookup) hi hb rfl

theorem meaning_of_reflectMeaning {x y : InstrId} (hz : S.func.instr z = .arith .sub x y)
    (h : S.view.reflectMeaning known p z x y = some m) : S.Meaning known cycle p z m := by
  unfold LoopView.reflectMeaning at h
  split at h
  · rename_i outside carried hin
    split_ifs at h with heq
    obtain ⟨rfl, rfl⟩ := heq
    simp only [bind, pure, Option.bind_eq_some_iff] at h
    obtain ⟨a, ha, start, hstart, h⟩ := h
    obtain rfl := Option.some.inj h
    exact .reflect hz hin ha hstart
  · cases h

theorem meaning_spec (h : S.view.meaning known cycle p z = some m) :
    S.Meaning known cycle p z m := by
  unfold LoopView.meaning at h
  split at h
  · exact meaning_of_phiMeaning ‹_› h
  · rename_i x y hz
    have hstep : S.StepOf false z x y := .inl hz
    rw [Option.orElse_eq_orElse, Option.orElse_eq_or, Option.or_eq_some_iff] at h
    rcases h with h | ⟨-, h⟩
    · exact meaning_of_stepMeaning hstep h
    · exact meaning_of_stepMeaning (.inr ⟨rfl, hz⟩) h
  · rename_i x y hz
    have hstep : S.StepOf true z x y := .inl hz
    rw [Option.orElse_eq_orElse, Option.orElse_eq_or, Option.or_eq_some_iff] at h
    rcases h with h | ⟨-, h⟩
    · exact meaning_of_stepMeaning hstep h
    · exact meaning_of_reflectMeaning hz h
  · cases h

theorem meanings_spec {zs : List InstrId} {start : Classes}
    (h : S.view.meanings known p start zs = some cycle) :
    (∀ t ∈ start, t ∈ cycle) ∧ cycle.map Prod.fst = zs.reverse ++ start.map Prod.fst ∧
      ∀ t ∈ cycle, t ∈ start ∨ S.Meaning known cycle p t.1 t.2 := by
  induction zs generalizing start with
  | nil =>
    obtain rfl := Option.some.inj h
    exact ⟨fun _ ht => ht, rfl, fun _ ht => .inl ht⟩
  | cons z zs ih =>
    simp only [LoopView.meanings, bind, Option.bind_eq_some_iff] at h
    obtain ⟨d, hd, h⟩ := h
    obtain ⟨hsub, hkeys, hall⟩ := ih h
    refine ⟨fun t ht => hsub t (List.mem_cons_of_mem _ ht), by simp [hkeys], ?_⟩
    intro t ht
    rcases hall t ht with ht | ht
    · rcases List.mem_cons.mp ht with rfl | ht
      · refine .inr ((meaning_spec hd).mono fun t ht => ?_)
        exact hsub t (List.mem_cons_of_mem _ ht)
      · exact .inl ht
    · exact .inr ht

end Specification

section Round

variable {cycle : Classes} {d : Descriptor} (hk : S.Sound ahead known)
variable (hp : S.EntryPhi p initial)

/-- The cycle of the entry phi `p`: the meanings of its other members. -/
structure Cycle (S : Setting R) (known : Classes) (p : InstrId) (cycle : Classes) : Prop where
  meaning : ∀ z m, (z, m) ∈ cycle → S.Meaning known cycle p z m
  inner : ∀ z m, (z, m) ∈ cycle → S.Inner z

theorem Meaning.isTerminator_eq_false {z : InstrId} {m : Descriptor}
    (h : S.Meaning known cycle p z m) : (S.func.instr z).isTerminator = false := by
  cases h with
  | forward hz _ _ => rw [hz]; rfl
  | delay hz _ _ _ _ => rw [hz]; rfl
  | first hz _ _ _ | next hz _ _ _ _ =>
    rcases hz with hz | ⟨-, hz⟩
    · rw [hz]; rfl
    · rw [hz]; rfl
  | reflect hz _ _ _ => rw [hz]; rfl

theorem Cycle.listed (hc : S.Cycle known p cycle) {z : InstrId} {m : Descriptor}
    (hz : (z, m) ∈ cycle) : S.func.Listed z :=
  (hc.inner z m hz).listed (hc.meaning z m hz).isTerminator_eq_false

theorem current_of_cycle (hc : S.Cycle known p cycle) {z : InstrId} {m : Descriptor}
    (hz : (z, m) ∈ cycle) (h : S.Ready s z) : S.loop.Current S.func s z := by
  rcases h with h | h
  · rw [not_isOutside_of_isMember (hc.inner z m hz).member] at h
    cases h
  · exact h

theorem EntryPhi.current (hp : S.EntryPhi p initial) (h : S.Ready s p) :
    S.loop.Current S.func s p := by
  rcases h with h | h
  · rw [not_isOutside_of_isMember hp.inner.member] at h
    cases h
  · exact h

/-- A phi whose sources are all on the cycle is not in the header, as one of them would
come from outside. -/
theorem home_ne_header_of_forward (hc : S.Cycle known p cycle) {z : InstrId} {m : Descriptor}
    {sources : List (InstrId × BlockId)} (hz : S.func.instr z = .phi sources)
    (hlisted : S.func.Listed z) (hall : ∀ y ∈ S.view.inputs z, (y, m) ∈ cycle) :
    S.func.home z ≠ S.loop.header := fun hhome => by
  obtain ⟨outer, inner, hin⟩ := exists_headerInputs hz hlisted hhome
  obtain ⟨y, hy, hout⟩ := hin.exists_outer
  have := hall y (hin.inputs ▸ List.mem_append_left _ hy)
  rw [not_isOutside_of_isMember (hc.inner _ _ this).member] at hout
  cases hout

theorem forward_executed (hc : S.Cycle known p cycle) {z : InstrId} {m : Descriptor}
    {sources : List (InstrId × BlockId)} (hz : S.func.instr z = .phi sources)
    (hlisted : S.func.Listed z) (hall : ∀ y ∈ S.view.inputs z, (y, m) ∈ cycle)
    (hs : S.Run s) (h : S.func.step? s = some s') (hin : s'.here ∈ S.loop.blocks)
    (hx : z ∈ S.func.executed s s') :
    ∃ y, (y, m) ∈ cycle ∧ s.here ∈ S.loop.blocks ∧ S.iteration s' = S.iteration s ∧
      S.loop.Current S.func s y ∧ s'.reading R z = s.reading R y := by
  obtain ⟨y, b, hmem, hread, rfl, harrival⟩ := arrival_of_executed hs h hin hx hz
  have hy := hall y (mem_inputs_of_mem_sources hz hmem)
  have hne := home_ne_header_of_forward hc hz hlisted hall
  cases harrival with
  | inside _ hhere hiter hready => exact ⟨y, hy, hhere, hiter, current_of_cycle hc hy hready, hread⟩
  | around hhome _ _ _ => exact absurd hhome hne
  | outside hhome _ _ _ _ => exact absurd hhome hne

/-- A meaning is an invariant, or a sequence that ends with what the phi starts with. -/
structure Proper (initial m : Descriptor) : Prop where
  isTerm : m.isInvariant = true → m.IsTerm
  members : m.isPeriodic = true → ∀ e ∈ m.members, e.IsTerm
  last : m.isPeriodic = true → m.members.getLast? = some initial

omit [Arithmetic R] in
theorem proper_of_isTerm {m : Descriptor} (h : m.IsTerm) : Proper initial m := by
  have hperiodic : m.isPeriodic ≠ true := by cases h <;> exact Bool.false_ne_true
  exact ⟨fun _ => h, fun hm => absurd hm hperiodic, fun hm => absurd hm hperiodic⟩

omit [Arithmetic R] in
theorem isTerm_of_first {b m : Descriptor} {minus : Bool} (hb : b.IsTerm)
    (hm : m = if minus then .combine .neg none b else b) : m.IsTerm := by
  subst hm
  cases minus
  · exact hb
  · exact (Descriptor.termOf_combineNeg (ρ := fun _ => (0 : ℤ)) hb).1

omit [Arithmetic R] in
theorem isTerm_of_next {a b m : Descriptor} {minus : Bool} (ha : a.IsTerm) (hb : b.IsTerm)
    (hm : m = .combine (Descriptor.sumOp minus) (some a) b) : m.IsTerm :=
  hm ▸ (Descriptor.termOf_sum (ρ := fun _ => (0 : ℤ)) ha minus hb).1

include hk hp

theorem eq_start_of_reflect {outside z : InstrId} {start : Descriptor}
    (hin : S.view.inputs p = [outside, z]) (h : S.view.lookup known outside = some start) :
    start = initial := by
  obtain ⟨y, rest, hin', hout, rfl⟩ := hp.inputs
  rw [hin', List.cons.injEq] at hin
  rw [← hin.1, lookup_of_isOutside hk hout, Option.some.injEq] at h
  exact h.symm

theorem EntryPhi.start?_eq : S.view.start? known p = some initial := by
  obtain ⟨y, rest, hin, hout, rfl⟩ := hp.inputs
  simp only [LoopView.start?, hin, bind, List.head?_cons, Option.bind_some]
  exact lookup_of_isOutside hk hout

theorem proper_of_meaning (hcycle : ∀ t ∈ cycle, Proper initial t.2) {z : InstrId}
    {m : Descriptor} (h : S.Meaning known cycle p z m) : Proper initial m := by
  have hinitial : initial.IsTerm := hp.isTerm
  have hperiodic {first rest : Descriptor} (hfirst : first.IsTerm)
      (hrest : ∀ e ∈ rest.members, e.IsTerm) (hlast : rest.members.getLast? = some initial) :
      Proper initial (.periodic first rest) := by
    refine ⟨(nomatch ·), fun _ => List.forall_mem_cons.mpr ⟨hfirst, hrest⟩, ?_⟩
    intro _
    rw [Descriptor.members, List.getLast?_cons, hlast]
    rfl
  have hstart : initial.members.getLast? = some initial := by
    rw [hinitial.members_eq]
    rfl
  have hmembers : ∀ e ∈ initial.members, e.IsTerm := by
    rw [hinitial.members_eq]
    simpa using hinitial
  cases h with
  | forward _ hne hall =>
    obtain ⟨y, hy⟩ := hne
    exact hcycle _ (hall y hy)
  | delay _ _ _ hfirst hrest =>
    have hfirst := isTerm_of_invariant? hk hfirst
    rcases hrest with ⟨rfl, hrest⟩ | ⟨hmem, hrest⟩
    · rw [hp.start?_eq hk, Option.some.injEq] at hrest
      exact hrest ▸ hperiodic hfirst hmembers hstart
    · have := hcycle _ hmem
      exact hperiodic hfirst (this.members hrest) (this.last hrest)
  | first _ _ hb hm => exact proper_of_isTerm (isTerm_of_first (isTerm_of_invariant? hk hb) hm)
  | next _ hmem ha hb hm =>
    exact proper_of_isTerm
      (isTerm_of_next ((hcycle _ hmem).isTerm ha) (isTerm_of_invariant? hk hb) hm)
  | @reflect x outside a start _ hin ha hstart' =>
    have ha := isTerm_of_invariant? hk ha
    obtain rfl := eq_start_of_reflect hk hp hin hstart'
    exact hperiodic (Descriptor.termOf_sum (ρ := fun _ => (0 : R)) ha true hinitial).1 hmembers
      hstart

theorem proper_of_meanings {zs : List InstrId} {start : Classes}
    (h : S.view.meanings known p start zs = some cycle)
    (hstart : ∀ t ∈ start, Proper initial t.2) : ∀ t ∈ cycle, Proper initial t.2 := by
  induction zs generalizing start with
  | nil =>
    obtain rfl := Option.some.inj h
    exact hstart
  | cons z zs ih =>
    simp only [LoopView.meanings, bind, Option.bind_eq_some_iff] at h
    obtain ⟨m, hm, h⟩ := h
    exact ih h (List.forall_mem_cons.mpr
      ⟨proper_of_meaning hk hp hstart (meaning_spec hm), hstart⟩)

omit hp in
theorem reading_of_invariant? {y : InstrId} {b : Descriptor} {ρ : InstrId → R} (hs : S.Run s)
    (hhere : s.here ∈ S.loop.blocks) (hρ : S.Fetches s ρ)
    (hb : S.view.invariant? known y = some b) (hy : S.Ready s y) :
    s.reading R y = b.value ρ := by
  have := meets_of_lookup hk hs hhere (invariant?_eq_some hb).1 hy ρ hρ
  rwa [describing, Descriptor.describes_of_isTerm (isTerm_of_invariant? hk hb)] at this

omit hk hp in
/-- The claims on a cycle that closes with the invariant step `d`: a member is as far from
the phi as its meaning says. -/
inductive LinearClaim (cycle : Classes) (p : InstrId) (d initial : Descriptor) :
    InstrId → Claim R → Prop
  | phi : LinearClaim cycle p d initial p fun ρ n r => r = d.value ρ * n + initial.value ρ
  | member {z m} : (z, m) ∈ cycle → m.isInvariant = true →
      LinearClaim cycle p d initial z fun ρ n r =>
        r = d.value ρ * n + initial.value ρ + m.value ρ

theorem follows_linear (hc : S.Cycle known p cycle)
    (hproper : ∀ t ∈ cycle, Proper initial t.2) (hd : d.isInvariant = true)
    (hback : ∀ y ∈ (S.view.inputs p).drop 1, (y, d) ∈ cycle) :
    ∀ x φ, LinearClaim (R := R) cycle p d initial x φ → S.Follows x φ := by
  refine follows_of_step _ ?_ ?_
  · intro x φ hx
    cases hx with
    | phi => exact hp.listed
    | member hmem _ => exact hc.listed hmem
  intro s s' hs ha h hin hmeets x φ hx hexec ρ hρ
  have hρ' : S.Fetches s ρ := hρ.of_step hs h hin
  cases hx with
  | phi =>
    rcases hp.executed hs ha h hin hexec with ⟨hiter, hval⟩ | ⟨y, hy, hhere, hready, hiter, hval⟩
    · rw [hiter, hval ρ hρ]
      simp
    · have hmem := hback y hy
      have := hmeets hhere y _ (.member hmem hd) (current_of_cycle hc hmem hready) ρ hρ'
      rw [hiter, hval, this]
      push_cast
      ring
  | member hmem hm =>
    cases hc.meaning _ _ hmem with
    | forward hz _ hall =>
      obtain ⟨y, hy, hhere, hiter, hcur, hval⟩ :=
        forward_executed hc hz (hc.listed hmem) hall hs h hin hexec
      have hsource := hmeets hhere y _ (.member hy hm) hcur ρ hρ'
      rw [hiter, hval, hsource]
    | delay _ _ _ _ _ => cases hm
    | @first minus x y b _ hz hx hb heq =>
      obtain ⟨hhere, hiter, hrx, hry, hval⟩ := step_executed hs ha h hin hz hexec
      subst hx
      have hphi := hmeets hhere x _ .phi (hp.current hrx) ρ hρ'
      rw [hiter, hval, hphi, reading_of_invariant? hk hs hhere hρ' hb hry]
      dsimp only at heq ⊢
      cases minus
      · rw [heq]
        rfl
      · have hneg := (Descriptor.termOf_combineNeg (ρ := ρ) (isTerm_of_invariant? hk hb)).2
        rw [heq, if_pos rfl, Descriptor.combine, hneg]
        simp only [Descriptor.sumValue, if_true]
        ring
    | @next minus x y a b _ hz hmem' ha' hb heq =>
      obtain ⟨hhere, hiter, hrx, hry, hval⟩ := step_executed hs ha h hin hz hexec
      have hleft := hmeets hhere x _ (.member hmem' ha') (current_of_cycle hc hmem' hrx) ρ hρ'
      have hsum := (Descriptor.termOf_sum (ρ := ρ) ((hproper _ hmem').isTerm ha') minus
        (isTerm_of_invariant? hk hb)).2
      rw [hiter, hval, hleft, reading_of_invariant? hk hs hhere hρ' hb hry]
      dsimp only at heq hsum ⊢
      rw [heq, hsum]
      cases minus
      · simp only [Descriptor.sumValue, Bool.false_eq_true, if_false]
        ring
      · simp only [Descriptor.sumValue, if_true]
        ring
    | reflect _ _ _ _ => cases hm

/-- A phi whose cycle adds an invariant in every iteration is linear. -/
theorem classified_linear (hc : S.Cycle known p cycle)
    (hproper : ∀ t ∈ cycle, Proper initial t.2) (hd : d.isInvariant = true)
    (hback : (∃ y, y ∈ (S.view.inputs p).drop 1) ∧
      ∀ y ∈ (S.view.inputs p).drop 1, (y, d) ∈ cycle) :
    S.Classified (ahead p) p (.linear d initial) := by
  obtain ⟨⟨y, hy⟩, hback⟩ := hback
  exact ⟨hp.inner.member, hp.listed, .linear ((hproper _ (hback y hy)).isTerm hd) hp.isTerm,
    follows_linear hk hp hc hproper hd hback p _ .phi⟩

end Round

end LoopBounds.Setting
