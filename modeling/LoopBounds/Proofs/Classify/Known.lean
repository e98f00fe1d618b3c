import LoopBounds.Proofs.Classify.Follow

/-!
# Sound descriptors

What is known of the values of a loop is sound when every value follows its descriptor. A
value classified from sound descriptors of its operands follows its own. How many places the
values are ahead of their periodic sequences makes no difference here, as long as the
operands are at the same place.
-/

namespace LoopBounds.Setting

variable {R : Type} [Arithmetic R] {S : Setting R} {ahead : InstrId → Option ℕ} {known : Classes}

/-- The claim that a descriptor makes. -/
def describing (ahead : Option ℕ) (d : Descriptor) : Claim R :=
  fun ρ n r => d.Describes ahead ρ n r

/-- A member of the loop whose value follows the descriptor `d`. -/
structure Classified (S : Setting R) (ahead : Option ℕ) (x : InstrId) (d : Descriptor) : Prop where
  member : S.view.isMember x = true
  listed : S.func.Listed x
  wellFormed : d.WellFormed
  follows : S.Follows x (describing ahead d)

/-- What is known is sound, where each value is `ahead` places on in its sequence. -/
def Sound (S : Setting R) (ahead : InstrId → Option ℕ) (known : Classes) : Prop :=
  ∀ x d, (x, d) ∈ known → S.Classified (ahead x) x d

/-- The value `x` has a place only if all known values that it depends on are at that
place. -/
def Keeps (S : Setting R) (ahead : InstrId → Option ℕ) (known : Classes) (x : InstrId) : Prop :=
  ∀ k, ahead x = some k → ∀ y ∈ S.view.deps x, ∀ d, (y, d) ∈ known → d.isInvariant = false →
    ahead y = some k

theorem mem_deps {x y : InstrId} :
    y ∈ S.view.deps x ↔ y ∈ S.view.inputs x ∧ S.view.isMember y = true := List.mem_filter

theorem mem_of_lookup {cycle : Classes} {x : InstrId} {d : Descriptor}
    (h : cycle.lookup x = some d) : (x, d) ∈ cycle := by
  rw [List.lookup_eq_some_iff] at h
  obtain ⟨u, w, rfl, -⟩ := h
  exact List.mem_append_right _ List.mem_cons_self

theorem not_isOutside_of_isMember {x : InstrId} (h : S.view.isMember x = true) :
    S.view.isOutside x = false := by
  simp only [LoopView.isMember, Bool.and_eq_true, Bool.not_eq_true'] at h
  exact h.1

section Lookup

variable (hk : S.Sound ahead known)

theorem isTerm_fetch (x : InstrId) : (S.func.fetch x).IsTerm := by
  unfold Func.fetch
  split
  · exact .constant _
  · exact .fetch _

theorem value_fetch {s : State} (hs : S.Run s) {x : InstrId} (hx : S.view.isOutside x = true)
    {ρ : InstrId → R} (hρ : S.Fetches s ρ) : (S.func.fetch x).value ρ = s.reading R x := by
  unfold Func.fetch
  split
  · rename_i v hv
    have hconst : S.func.instr x = .constant v := by
      unfold Func.constant? Instr.constant? at hv
      split at hv
      · rename_i w hw
        rw [hw, Option.some.inj hv]
      · cases hv
    rw [State.reading, hs.placed.constant x v hconst]
    rfl
  · exact hρ x hx

include hk

theorem lookup_of_isOutside {x : InstrId} (hx : S.view.isOutside x = true) :
    S.view.lookup known x = some (S.func.fetch x) := by
  unfold LoopView.lookup
  cases hl : known.lookup x with
  | none => exact if_pos hx
  | some d =>
    have := not_isOutside_of_isMember (hk x d (mem_of_lookup hl)).member
    rw [hx] at this
    cases this

omit hk in
theorem mem_known_of_lookup {x : InstrId} {d : Descriptor} (h : S.view.lookup known x = some d)
    (hx : S.view.isOutside x ≠ true) : (x, d) ∈ known := by
  unfold LoopView.lookup at h
  cases hl : known.lookup x with
  | none =>
    rw [hl, if_neg hx] at h
    cases h
  | some d' =>
    rw [hl, Option.some.injEq] at h
    exact h ▸ mem_of_lookup hl

theorem lookup_cases {x : InstrId} {d : Descriptor} (h : S.view.lookup known x = some d) :
    S.Classified (ahead x) x d ∨ S.view.isOutside x = true ∧ d = S.func.fetch x := by
  by_cases hx : S.view.isOutside x = true
  · rw [lookup_of_isOutside hk hx, Option.some.injEq] at h
    exact .inr ⟨hx, h.symm⟩
  · exact .inl (hk x d (mem_known_of_lookup h hx))

theorem wellFormed_of_lookup {x : InstrId} {d : Descriptor}
    (h : S.view.lookup known x = some d) : d.WellFormed := by
  rcases lookup_cases hk h with h | ⟨-, rfl⟩
  · exact h.wellFormed
  · exact .term (isTerm_fetch x)

theorem meets_of_lookup {s : State} (hs : S.Run s) (hin : s.here ∈ S.loop.blocks)
    {x : InstrId} {d : Descriptor} (h : S.view.lookup known x = some d) (hx : S.Ready s x) :
    S.Meets s x (describing (ahead x) d) := by
  rcases lookup_cases hk h with hc | ⟨hout, rfl⟩
  · rcases hx with hx | hx
    · rw [not_isOutside_of_isMember hc.member] at hx
      cases hx
    · exact hc.follows s hs hin hx
  · intro ρ hρ
    exact (Descriptor.describes_of_isTerm (isTerm_fetch x)).mpr (value_fetch hs hout hρ).symm

theorem meets_of_input {s : State} (hs : S.Run s) (hin : s.here ∈ S.loop.blocks)
    {x y : InstrId} {d : Descriptor} (hkeeps : S.Keeps ahead known x) (hy : y ∈ S.view.inputs x)
    (h : S.view.lookup known y = some d) (hready : S.Ready s y) :
    S.Meets s y (describing (ahead x) d) := by
  intro ρ hρ
  have hmeets := meets_of_lookup hk hs hin h hready ρ hρ
  rcases lookup_cases hk h with hc | ⟨-, rfl⟩
  · have hnot : S.view.isOutside y ≠ true := by
      rw [not_isOutside_of_isMember hc.member]
      exact Bool.false_ne_true
    cases hi : d.isInvariant with
    | true =>
      have hterm := hc.wellFormed.isTerm hi
      rw [describing, Descriptor.describes_of_isTerm hterm] at hmeets ⊢
      exact hmeets
    | false =>
      exact hmeets.mono fun k hx =>
        hkeeps k hx y (mem_deps.mpr ⟨hy, hc.member⟩) d (mem_known_of_lookup h hnot) hi
  · rw [describing, Descriptor.describes_of_isTerm (isTerm_fetch y)] at hmeets ⊢
    exact hmeets

end Lookup

section Inputs

variable {x : InstrId} {sources : List (InstrId × BlockId)}

theorem mem_inputs_of_mem_sources (hx : S.func.instr x = .phi sources) {t : InstrId × BlockId}
    (ht : t ∈ sources) : t.1 ∈ S.view.inputs x := by
  refine LoopView.mem_inputs_iff.mpr ?_
  rw [show S.view.func.instr x = .phi sources from hx]
  exact List.mem_map_of_mem ht

/-- The sources of a phi of the header, those from outside the loop first. There are some
of both kinds. -/
structure HeaderInputs (S : Setting R) (x : InstrId) (sources : List (InstrId × BlockId))
    (outer inner : List InstrId) : Prop where
  inputs : S.view.inputs x = outer ++ inner
  outer_iff : ∀ y, y ∈ outer ↔ ∃ b, (y, b) ∈ sources ∧ b ∉ S.loop.blocks
  inner_iff : ∀ y, y ∈ inner ↔ ∃ b, (y, b) ∈ sources ∧ b ∈ S.loop.blocks
  exists_outer : ∃ y ∈ outer, S.view.isOutside y = true
  exists_inner : ∃ y, y ∈ inner
  length_outer : outer.length = (sources.filter fun t => !S.view.contains t.2).length

theorem exists_headerInputs (hx : S.func.instr x = .phi sources) (hlisted : S.func.Listed x)
    (hhome : S.func.home x = S.loop.header) :
    ∃ outer inner, S.HeaderInputs x sources outer inner := by
  have hphi : x ∈ (S.func.block S.loop.header).phis := by
    rcases List.mem_append.mp (hhome ▸ hlisted : x ∈ (S.func.block S.loop.header).values)
      with h | h
    · exact h
    · have := (S.valid.body _ x h).1
      simp [hx, Instr.isPhi] at this
  have hsource {b : BlockId} (he : S.loop.header ∈ S.func.flow.succs b) :
      ∃ y, (y, b) ∈ sources := by
    have := ((S.valid.sources _ x hphi sources hx).2 b).mpr
      ((S.valid.flow.edges b _).mp he)
    obtain ⟨⟨y, b'⟩, ht, rfl⟩ := List.mem_map.mp this
    exact ⟨y, ht⟩
  refine ⟨(sources.filter fun t => !S.view.contains t.2).map Prod.fst,
    (sources.filter fun t => S.view.contains t.2).map Prod.fst, ?_, ?_, ?_, ?_, ?_, ?_⟩
  · have hx' : S.view.func.instr x = .phi sources := hx
    unfold LoopView.inputs
    rw [hx']
    exact (if_pos hhome).trans List.map_append
  · intro y
    simp [List.mem_map, List.mem_filter, contains_eq_false_iff]
  · intro y
    simp [List.mem_map, List.mem_filter, contains_iff]
  · obtain ⟨b, hb, hreach, he⟩ := (loop_natural (S := S)).exists_way_in
      (Func.entry_not_mem_succs S.valid)
    obtain ⟨y, hy⟩ := hsource he
    refine ⟨y, ?_, ?_⟩
    · refine List.mem_map_of_mem (f := Prod.fst) (a := (y, b)) (List.mem_filter.mpr ⟨hy, ?_⟩)
      simpa [contains_eq_false_iff] using hb
    · have hav := S.valid.source_available _ x hphi sources hx _ hy
      exact isOutside_iff.mpr (hav.imp (fun h => h) fun hd =>
        loop_natural.not_mem_of_dominates hreach he hb hd.2)
  · obtain ⟨b, hb, he⟩ := (loop_natural (S := S)).back_edge
    obtain ⟨y, hy⟩ := hsource he
    refine ⟨y, List.mem_map_of_mem (f := Prod.fst) (a := (y, b))
      (List.mem_filter.mpr ⟨hy, ?_⟩)⟩
    exact contains_iff.mpr (loop_natural.latch_mem b hb)
  · exact List.length_map _

theorem headerInputs_pair (hx : S.func.instr x = .phi sources) (hlisted : S.func.Listed x)
    (hhome : S.func.home x = S.loop.header) {outside carried : InstrId}
    (hin : S.view.inputs x = [outside, carried]) :
    S.view.isOutside outside = true ∧ ∀ y b, (y, b) ∈ sources →
      (b ∉ S.loop.blocks → y = outside) ∧ (b ∈ S.loop.blocks → y = carried) := by
  obtain ⟨outer, inner, h⟩ := exists_headerInputs hx hlisted hhome
  obtain ⟨y₀, hy₀, hout⟩ := h.exists_outer
  obtain ⟨y₁, hy₁⟩ := h.exists_inner
  obtain ⟨rfl, rfl⟩ : outer = [outside] ∧ inner = [carried] := by
    have heq := hin.symm.trans h.inputs
    match outer, inner, hy₀, hy₁ with
    | [a], inner, _, _ =>
      simp only [List.singleton_append, List.cons.injEq] at heq
      exact ⟨by rw [heq.1], heq.2.symm⟩
    | a :: c :: outer, e :: inner, _, _ => simp at heq
  refine ⟨List.mem_singleton.mp hy₀ ▸ hout, fun y b hmem => ⟨fun hb => ?_, fun hb => ?_⟩⟩
  · exact List.mem_singleton.mp ((h.outer_iff y).mpr ⟨b, hmem, hb⟩)
  · exact List.mem_singleton.mp ((h.inner_iff y).mpr ⟨b, hmem, hb⟩)

theorem common_eq_some {v : LoopView} {meaning : InstrId → Option Descriptor} {start : ℕ}
    {d : Descriptor} (h : v.common meaning x start = some d) :
    (∃ y, y ∈ (v.inputs x).drop start) ∧
      ∀ y ∈ (v.inputs x).drop start, meaning y = some d := by
  unfold LoopView.common at h
  split at h
  · cases h
  · rename_i first rest hdrop
    rw [hdrop]
    split at h
    · cases h
    · rename_i d' hfirst
      split at h
      · rename_i hall
        obtain rfl := Option.some.inj h
        simp only [List.all_eq_true, decide_eq_true_eq] at hall
        exact ⟨⟨first, List.mem_cons_self⟩, List.forall_mem_cons.mpr ⟨hfirst, hall⟩⟩
      · cases h

end Inputs

section Trivial

/-- An instruction of the loop itself. -/
structure Inner (S : Setting R) (x : InstrId) : Prop where
  member : S.view.isMember x = true
  mem_instrs : x ∈ (S.func.block (S.func.home x)).instrs

theorem Inner.listed {x : InstrId} (hx : S.Inner x)
    (h : (S.func.instr x).isTerminator = false) : S.func.Listed x := by
  rcases List.mem_append.mp hx.mem_instrs with hmem | hmem
  · exact hmem
  · have := S.valid.terminator _ x (by simpa using hmem)
    rw [h] at this
    cases this

theorem follows_of_executed {x : InstrId} {φ : Claim R} (hx : S.func.Listed x)
    (hstep : ∀ s s', S.Run s → S.allowed s → S.func.step? s = some s' →
      s'.here ∈ S.loop.blocks → x ∈ S.func.executed s s' → S.Meets s' x φ) :
    S.Follows x φ := by
  refine follows_of_step (fun y ψ => y = x ∧ ψ = φ) ?_ ?_ x φ ⟨rfl, rfl⟩
  · rintro y ψ ⟨rfl, -⟩
    exact hx
  · rintro s s' hs ha h hin - y ψ ⟨rfl, rfl⟩ hexec
    exact hstep s s' hs ha h hin hexec

variable (hk : S.Sound ahead known) {x : InstrId} {d : Descriptor} (hkeeps : S.Keeps ahead known x)

include hk hkeeps

theorem follows_phi {sources : List (InstrId × BlockId)} (hx : S.func.instr x = .phi sources)
    (hlisted : S.func.Listed x) (h : S.view.common (S.view.lookup known) x 0 = some d) :
    S.Follows x (describing (ahead x) d) := by
  have hcommon {t : InstrId × BlockId} (ht : t ∈ sources) :
      S.view.lookup known t.1 = some d :=
    (common_eq_some h).2 t.1 (mem_inputs_of_mem_sources hx ht)
  refine follows_of_executed hlisted fun s s' hs ha hstep hin hexec => ?_
  obtain ⟨y, b, hmem, hread, -, harrival⟩ := arrival_of_executed hs hstep hin hexec hx
  have hy := hcommon hmem
  have hyin : y ∈ S.view.inputs x := mem_inputs_of_mem_sources hx hmem
  intro ρ hρ
  rw [hread]
  cases harrival with
  | inside _ hhere hiter hready =>
    rw [hiter]
    exact meets_of_input hk hs hhere hkeeps hyin hy hready ρ (hρ.of_step hs hstep hin)
  | around hhome hhere hiter hready =>
    -- One source comes from outside, so the common descriptor is what is fetched there.
    obtain ⟨outer, inner, hinputs⟩ := exists_headerInputs hx hlisted hhome
    obtain ⟨y₀, hy₀, hout⟩ := hinputs.exists_outer
    obtain ⟨b₀, hmem₀, -⟩ := (hinputs.outer_iff y₀).mp hy₀
    have hd := (hcommon hmem₀).symm.trans (lookup_of_isOutside hk hout)
    rw [Option.some.injEq] at hd
    have hterm : d.IsTerm := hd ▸ isTerm_fetch y₀
    have := meets_of_lookup hk hs hhere hy hready ρ (hρ.of_step hs hstep hin)
    rw [describing, Descriptor.describes_of_isTerm hterm] at this ⊢
    exact this
  | outside _ _ _ hout hsame =>
    have hd := hy.symm.trans (lookup_of_isOutside hk hout)
    rw [Option.some.injEq] at hd
    subst hd
    rw [describing, Descriptor.describes_of_isTerm (isTerm_fetch y)]
    rw [value_fetch (hs.step ha hstep) hout hρ, hsame]

omit hk hkeeps in
theorem follows_arith {op : ArithOp} {y z : InstrId} {φ : Claim R}
    (hx : S.func.instr x = .arith op y z) (hlisted : S.func.Listed x) (hop : op ≠ .rem)
    (hφ : ∀ s, S.Run s → s.here ∈ S.loop.blocks → S.Ready s y → S.Ready s z →
      (op = .shl → 0 ≤ (s.env z).toInt ∧ (s.env z).toInt < 32) ∧
      ∀ ρ, S.Fetches s ρ →
        φ ρ (S.iteration s) ((op.exact (s.env y).toInt (s.env z).toInt : ℤ) : R)) :
    S.Follows x φ := by
  refine follows_of_executed hlisted fun s s' hs ha hstep hin hexec => ?_
  obtain ⟨v, hv⟩ := computed_of_executed hs hstep hin hexec (by simp [hx, Instr.isPhi])
  have hready : ∀ w ∈ [y, z], S.Ready s w := by
    have := hv.ready
    rwa [hx] at this
  obtain ⟨hshl, hmeets⟩ := hφ s hs hv.here (hready y (by simp)) (hready z (by simp))
  obtain ⟨rest, hrest⟩ := hv.rest
  intro ρ hρ
  rw [hv.reading, hv.iteration, (S.reads s ha).arith hrest hx hv.value hop hshl]
  exact hmeets ρ (hρ.of_step hs hstep hin)

omit hk hkeeps in
theorem inputs_arith {op : ArithOp} {y z : InstrId} (hx : S.func.instr x = .arith op y z) :
    S.view.inputs x = [y, z] := by
  have hx' : S.view.func.instr x = .arith op y z := hx
  rw [LoopView.inputs, hx']
  rfl

theorem follows_binary {op : ArithOp} {y z : InstrId} {a b : Descriptor} {g : R → R → R}
    (hx : S.func.instr x = .arith op y z) (hlisted : S.func.Listed x) (hop : op ≠ .rem)
    (hshl : op ≠ .shl) (ha : S.view.lookup known y = some a)
    (hb : S.view.lookup known z = some b)
    (hg : ∀ v w : Int32, ((op.exact v.toInt w.toInt : ℤ) : R) = g (ofWord R v) (ofWord R w))
    (hd : ∀ ρ : InstrId → R, Descriptor.ResultOf ρ g a b d) :
    S.Follows x (describing (ahead x) d) := by
  refine follows_arith hx hlisted hop fun s hs hin hy hz =>
    ⟨fun h => absurd h hshl, fun ρ hρ => ?_⟩
  rw [hg]
  exact (hd ρ).2 (meets_of_input hk hs hin hkeeps (by simp [inputs_arith hx]) ha hy ρ hρ)
    (meets_of_input hk hs hin hkeeps (by simp [inputs_arith hx]) hb hz ρ hρ)

theorem follows_shl {y z : InstrId} {a b : Descriptor} {c : Int32}
    (hx : S.func.instr x = .arith .shl y z) (hlisted : S.func.Listed x)
    (ha : S.view.lookup known y = some a) (hb : S.view.lookup known z = some b)
    (hc : b.always? = some c) (hd : a.shl? c.toInt = some d) :
    S.Follows x (describing (ahead x) d) := by
  refine follows_arith hx hlisted (by decide) fun s hs hin hy hz => ?_
  have hval : s.env z = c := by
    have hreads : S.Fetches s (s.reading R) := fun _ _ => rfl
    exact Arithmetic.cast_injective _ _ ((wellFormed_of_lookup hk hb).eq_of_always? hc
      (meets_of_lookup hk hs hin hb hz _ hreads))
  obtain ⟨hrange, -, -⟩ := Descriptor.shl?_sound (ρ := s.reading R) (wellFormed_of_lookup hk ha) hd
  rw [hval]
  refine ⟨fun _ => ⟨hrange.1, by omega⟩, ?_⟩
  intro ρ hρ
  obtain ⟨-, -, hr⟩ := Descriptor.shl?_sound (ρ := ρ) (wellFormed_of_lookup hk ha) hd
  have := hr (meets_of_input hk hs hin hkeeps (by simp [inputs_arith hx]) ha hy ρ hρ)
  simpa [ArithOp.exact, State.reading, ofWord, describing] using this

theorem follows_neg {y : InstrId} {a : Descriptor} (hx : S.func.instr x = .neg y)
    (hlisted : S.func.Listed x) (ha : S.view.lookup known y = some a)
    (hd : a.neg? = some d) : S.Follows x (describing (ahead x) d) := by
  refine follows_of_executed hlisted fun s s' hs hallowed hstep hin hexec => ?_
  obtain ⟨v, hv⟩ := computed_of_executed hs hstep hin hexec (by simp [hx, Instr.isPhi])
  obtain ⟨rest, hrest⟩ := hv.rest
  have hready : S.Ready s y := hv.ready y (by simp [hx, Instr.operands])
  have hyin : y ∈ S.view.inputs x := by
    have hx' : S.view.func.instr x = .neg y := hx
    rw [LoopView.inputs, hx']
    exact List.mem_cons_self
  intro ρ hρ
  rw [hv.reading, hv.iteration, (S.reads s hallowed).neg hrest hx hv.value]
  exact (Descriptor.neg?_actsAs.sound (wellFormed_of_lookup hk ha) hd).2
    (meets_of_input hk hs hv.here hkeeps hyin ha hready ρ (hρ.of_step hs hstep hin))

/-- A value classified from sound descriptors of its operands follows its own. -/
theorem classified_of_classifyTrivial (hx : S.Inner x)
    (h : S.view.classifyTrivial known x = some d) : S.Classified (ahead x) x d := by
  unfold LoopView.classifyTrivial at h
  split at h
  · rename_i sources hphi
    have hphi : S.func.instr x = .phi sources := hphi
    have hlisted := hx.listed (by rw [hphi]; rfl)
    obtain ⟨⟨y, hy⟩, hall⟩ := common_eq_some h
    exact ⟨hx.member, hlisted, wellFormed_of_lookup hk (hall y hy),
      follows_phi hk hkeeps hphi hlisted h⟩
  · rename_i op y z harith
    have harith : S.func.instr x = .arith op y z := harith
    have hlisted := hx.listed (by rw [harith]; rfl)
    by_cases hrem : op = .rem
    · simp [hrem] at h
    simp only [if_neg hrem, bind, Option.bind_eq_some_iff] at h
    obtain ⟨a, ha, b, hb, h⟩ := h
    have hwa := wellFormed_of_lookup hk ha
    have hwb := wellFormed_of_lookup hk hb
    have hbinary {g : R → R → R} (hshl : op ≠ .shl)
        (hg : ∀ v w : Int32, ((op.exact v.toInt w.toInt : ℤ) : R) = g (ofWord R v) (ofWord R w))
        (hd : ∀ ρ : InstrId → R, Descriptor.ResultOf ρ g a b d) : S.Classified (ahead x) x d :=
      ⟨hx.member, hlisted, (hd fun _ => 0).1,
        follows_binary hk hkeeps harith hlisted hrem hshl ha hb hg hd⟩
    cases op with
    | add =>
      exact hbinary (by decide) (fun _ _ => Int.cast_add _ _)
        fun _ => Descriptor.resultOf_sum? hwa hwb false h
    | sub =>
      exact hbinary (by decide) (fun _ _ => Int.cast_sub _ _)
        fun _ => Descriptor.resultOf_sum? hwa hwb true h
    | mul =>
      exact hbinary (by decide) (fun _ _ => Int.cast_mul _ _)
        fun _ => Descriptor.resultOf_mul? hwa hwb h
    | div =>
      exact hbinary (by decide) (fun v w => (Arithmetic.quot_cast v w).symm)
        fun _ => Descriptor.resultOf_div? hwa hwb h
    | shl =>
      obtain ⟨c, hc, hd⟩ := Option.bind_eq_some_iff.mp h
      exact ⟨hx.member, hlisted, (Descriptor.shl?_sound (ρ := fun _ => (0 : R)) hwa hd).2.1,
        follows_shl hk hkeeps harith hlisted ha hb hc hd⟩
    | rem => exact absurd rfl hrem
  · rename_i y hneg
    have hneg : S.func.instr x = .neg y := hneg
    have hlisted := hx.listed (by rw [hneg]; rfl)
    simp only [bind, Option.bind_eq_some_iff] at h
    obtain ⟨a, ha, hd⟩ := h
    exact ⟨hx.member, hlisted,
      ((Descriptor.neg?_actsAs (R := R) (ρ := fun _ => 0)).sound
        (wellFormed_of_lookup hk ha) hd).1,
      follows_neg hk hkeeps hneg hlisted ha hd⟩
  · cases h

end Trivial

end LoopBounds.Setting
