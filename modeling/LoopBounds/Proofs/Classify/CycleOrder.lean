import LoopBounds.Proofs.Classify.Before
import LoopBounds.Proofs.Classify.Owned

/-!
# Cycles taken in order

The members of a cycle are gone through once, in the order in which the search for components
leaves them. A member gets a meaning only if all members that it depends on have theirs, except
for the phi at which the cycle is entered. So either each member comes after those that it
depends on, and then what is found does not depend on the order any further, or nothing is found
at all.
-/

namespace LoopBounds

theorem mem_of_perm_cons {α : Type} {a : α} {l l' : List α} (h : (a :: l).Perm l') :
    a ∈ l' ∧ ∀ z ∈ l, z ∈ l' := List.forall_mem_cons.mp fun _ hz => h.mem_iff.mp hz

namespace LoopView

variable (v : LoopView)

/-- Each of the values comes after those of them that it depends on. -/
def InOrder (zs : List InstrId) : Prop :=
  (∀ z ∈ zs, z ∉ v.deps z) ∧ zs.Pairwise fun z y => y ∉ v.deps z

instance (zs : List InstrId) : Decidable (v.InOrder zs) := inferInstanceAs (Decidable (_ ∧ _))

/-- The members of a component depend on each other, and nothing is known of them yet. -/
structure Fresh (known : Classes) (c : List InstrId) : Prop where
  nodup : c.Nodup
  joined : Components.Joined v.deps c
  member : ∀ x ∈ c, v.isMember x = true
  unknown : ∀ x ∈ c, known.lookup x = none

variable {v} {known known' cycle cycle' result : Classes} {c zs : List InstrId}
variable {e x y z : InstrId} {d : Descriptor}

section Order

theorem inOrder_cons : v.InOrder (z :: zs) ↔ (∀ y ∈ z :: zs, y ∉ v.deps z) ∧ v.InOrder zs := by
  rw [InOrder, List.forall_mem_cons, List.pairwise_cons, List.forall_mem_cons, InOrder]
  tauto

theorem InOrder.induction {P : InstrId → Prop} (h : v.InOrder zs)
    (step : ∀ z ∈ zs, (∀ y ∈ zs, y ∈ v.deps z → P y) → P z) : ∀ z ∈ zs, P z := by
  suffices hsplit : ∀ before after, zs = before ++ after → ∀ z ∈ before, P z from
    hsplit zs [] (by simp)
  intro before
  induction before using List.reverseRecOn with
  | nil => exact fun _ _ z hz => absurd hz List.not_mem_nil
  | append_singleton before w ih =>
    intro after heq
    rw [List.append_assoc, List.singleton_append] at heq
    have hbefore := ih _ heq
    rw [List.forall_mem_append, List.forall_mem_singleton]
    refine ⟨hbefore, step w (by simp [heq]) fun y hy hdep => ?_⟩
    -- What comes after `w`, and `w` itself, is nothing that `w` depends on.
    have hlater := (List.pairwise_append.mp (heq ▸ h.2)).2.1
    rw [heq] at hy
    rcases List.mem_append.mp hy with hy | hy
    · exact hbefore y hy
    · rcases List.mem_cons.mp hy with rfl | hy
      · exact absurd hdep (h.1 y (by simp [heq]))
      · exact absurd hdep ((List.pairwise_cons.mp hlater).1 y hy)

end Order

section Fresh

theorem isOutside_of_isMember (hx : v.isMember x = true) : v.isOutside x = false :=
  (isMember_eq_true_iff.mp hx).1

theorem lookup_of_isMember (hx : v.isMember x = true) : v.lookup known x = known.lookup x := by
  unfold LoopView.lookup
  rw [isOutside_of_isMember hx]
  cases known.lookup x <;> rfl

theorem Fresh.lookup_eq_none (h : v.Fresh known c) (hx : x ∈ c) : v.lookup known x = none :=
  (lookup_of_isMember (h.member x hx)).trans (h.unknown x hx)

theorem Fresh.of_perm {c' : List InstrId} (h : v.Fresh known c) (hperm : c'.Perm c) :
    v.Fresh known c' where
  nodup := hperm.nodup_iff.mpr h.nodup
  joined y hy z hz := (h.joined y (hperm.mem_iff.mp hy) z (hperm.mem_iff.mp hz)).mono
    fun _ hw => hperm.mem_iff.mpr hw
  member y hy := h.member y (hperm.mem_iff.mp hy)
  unknown y hy := h.unknown y (hperm.mem_iff.mp hy)

theorem Fresh.nodup_cons {p : InstrId} {others : List InstrId} (h : v.Fresh known c)
    (hperm : (p :: others).Perm c) : p ∉ others ∧ others.Nodup :=
  List.nodup_cons.mp (h.of_perm hperm).nodup

theorem mem_deps_of_mem_inputs (hy : v.isMember y = true) (hin : y ∈ v.inputs x) : y ∈ v.deps x :=
  List.mem_filter.mpr ⟨hin, hy⟩

end Fresh

section Congr

theorem common_congr {m m' : InstrId → Option Descriptor} (h : ∀ y ∈ v.inputs x, m y = m' y)
    (start : ℕ) : v.common m x start = v.common m' x start := by
  have hdrop : ∀ y ∈ (v.inputs x).drop start, m y = m' y := fun y hy =>
    h y (List.mem_of_mem_drop hy)
  unfold common
  cases hin : (v.inputs x).drop start with
  | nil => rfl
  | cons first rest =>
    rw [hin] at hdrop
    obtain ⟨hfirst, hrest⟩ := List.forall_mem_cons.mp hdrop
    dsimp only
    rw [hfirst]
    cases m' first with
    | none => rfl
    | some d =>
      have hall : rest.all (fun y => m y = some d) = rest.all fun y => m' y = some d := by
        rw [Bool.eq_iff_iff, List.all_eq_true, List.all_eq_true]
        exact forall₂_congr fun y hy => by rw [hrest y hy]
      dsimp only
      rw [hall]

theorem meaning_congr (h : ∀ y ∈ v.inputs z, cycle.lookup y = cycle'.lookup y) :
    v.meaning known cycle e z = v.meaning known cycle' e z := by
  have hcommon (start : ℕ) : v.common (fun y => cycle.lookup y) z start =
      v.common (fun y => cycle'.lookup y) z start := common_congr h start
  unfold meaning
  unfold inputs at h
  cases hi : v.func.instr z with
  | phi sources => simp only [phiMeaning, hcommon]
  | arith op x y =>
    rw [hi] at h
    have hx : cycle.lookup x = cycle'.lookup x := h x (by simp [Instr.operands])
    have hy : cycle.lookup y = cycle'.lookup y := h y (by simp [Instr.operands])
    cases op with
    | add => simp only [stepMeaning, hx, hy]
    | sub => simp only [stepMeaning, hx]
    | _ => rfl
  | _ => rfl

theorem classifyTrivial_congr (h : ∀ y ∈ v.inputs z, v.lookup known y = v.lookup known' y) :
    v.classifyTrivial known z = v.classifyTrivial known' z := by
  have hcommon : v.common (v.lookup known) z 0 = v.common (v.lookup known') z 0 := common_congr h 0
  unfold classifyTrivial
  unfold inputs at h
  cases hi : v.func.instr z with
  | phi sources => exact hcommon
  | arith op l r =>
    rw [hi] at h
    have hl : v.lookup known l = v.lookup known' l := h l (by simp [Instr.operands])
    have hr : v.lookup known r = v.lookup known' r := h r (by simp [Instr.operands])
    simp only [hl, hr]
  | neg y =>
    rw [hi] at h
    simp only [h y (by simp [Instr.operands])]
  | _ => rfl

end Congr

section Solutions

theorem lookup_cons_of_ne (h : x ≠ y) : ((y, d) :: known).lookup x = known.lookup x := by
  rw [List.lookup_cons, beq_false_of_ne h]

/-- Taken in order, the members get the meanings that they have in view of all meanings. -/
theorem lookup_meanings (hzs : v.InOrder zs) (hnodup : zs.Nodup)
    (hmember : ∀ z ∈ zs, v.isMember z = true) (h : v.meanings known e cycle zs = some result) :
    (∀ x ∉ zs, result.lookup x = cycle.lookup x) ∧
      ∀ z ∈ zs, ∃ d, result.lookup z = some d ∧ v.meaning known result e z = some d := by
  induction zs generalizing cycle with
  | nil =>
    obtain rfl := Option.some.inj h
    exact ⟨fun _ _ => rfl, fun _ hz => absurd hz List.not_mem_nil⟩
  | cons z zs ih =>
    obtain ⟨hfirst, hrest⟩ := inOrder_cons.mp hzs
    obtain ⟨hz, hnodup⟩ := List.nodup_cons.mp hnodup
    obtain ⟨d, hd, h⟩ := Option.bind_eq_some_iff.mp h
    obtain ⟨hother, hall⟩ := ih hrest hnodup (fun y hy => hmember y (List.mem_cons_of_mem _ hy)) h
    refine ⟨fun x hx => ?_, List.forall_mem_cons.mpr ⟨⟨d, ?_, ?_⟩, hall⟩⟩
    · rw [List.mem_cons, not_or] at hx
      rw [hother x hx.2, lookup_cons_of_ne hx.1]
    · rw [hother z hz, List.lookup_cons_self]
    · rw [← hd]
      refine (meaning_congr fun y hy => ?_).symm
      have hnot : y ∉ z :: zs := fun hmem =>
        hfirst y hmem (mem_deps_of_mem_inputs (hmember y hmem) hy)
      rw [List.mem_cons, not_or] at hnot
      rw [hother y hnot.2, lookup_cons_of_ne hnot.1]

theorem lookup_addTrivial_of_ne (h : x ≠ z) :
    (v.addTrivial known z).lookup x = known.lookup x := by
  unfold addTrivial
  split
  · exact lookup_cons_of_ne h
  · rfl

theorem lookup_addTrivial_self (h : known.lookup z = none) :
    (v.addTrivial known z).lookup z = v.classifyTrivial known z := by
  unfold addTrivial
  split
  · rename_i d hd
    rw [hd, List.lookup_cons_self]
  · rename_i hnone
    rw [hnone, h]

/-- Taken in order, the members get the descriptors that they have in view of all descriptors. -/
theorem lookup_foldl_addTrivial (hzs : v.InOrder zs) (hnodup : zs.Nodup)
    (hmember : ∀ z ∈ zs, v.isMember z = true) (hnew : ∀ z ∈ zs, known.lookup z = none) :
    (∀ x ∉ zs, (zs.foldl v.addTrivial known).lookup x = known.lookup x) ∧
      ∀ z ∈ zs, (zs.foldl v.addTrivial known).lookup z =
        v.classifyTrivial (zs.foldl v.addTrivial known) z := by
  induction zs generalizing known with
  | nil => exact ⟨fun _ _ => rfl, fun _ hz => absurd hz List.not_mem_nil⟩
  | cons z zs ih =>
    obtain ⟨hfirst, hrest⟩ := inOrder_cons.mp hzs
    obtain ⟨hz, hnodup⟩ := List.nodup_cons.mp hnodup
    obtain ⟨hmemberz, hmember⟩ := List.forall_mem_cons.mp hmember
    obtain ⟨hnewz, hnew⟩ := List.forall_mem_cons.mp hnew
    have hne {y : InstrId} (hy : y ∈ zs) : y ≠ z := fun heq => hz (heq ▸ hy)
    have hnewrest : ∀ y ∈ zs, (v.addTrivial known z).lookup y = none :=
      fun y hy => (lookup_addTrivial_of_ne (hne hy)).trans (hnew y hy)
    obtain ⟨hother, hall⟩ := ih hrest hnodup hmember hnewrest
    refine ⟨fun x hx => ?_, List.forall_mem_cons.mpr ⟨?_, hall⟩⟩
    · rw [List.mem_cons, not_or] at hx
      exact (hother x hx.2).trans (lookup_addTrivial_of_ne hx.1)
    · refine (hother z hz).trans ((lookup_addTrivial_self hnewz).trans ?_)
      refine classifyTrivial_congr fun y hy => ?_
      have hnot : y ∉ z :: zs := fun hmem => by
        have hmemy : v.isMember y = true := by
          rcases List.mem_cons.mp hmem with rfl | hmem
          · exact hmemberz
          · exact hmember y hmem
        exact hfirst y hmem (mem_deps_of_mem_inputs hmemy hy)
      rw [List.mem_cons, not_or] at hnot
      have hsame := (hother y hnot.2).trans (lookup_addTrivial_of_ne hnot.1)
      unfold LoopView.lookup
      rw [List.foldl_cons, hsame]

/-- The descriptors of a linear cycle: the phi has its own, the members have theirs, and what is
known of other values is as it was. -/
theorem Fresh.lookup_linear {p : InstrId} {others : List InstrId} (h : v.Fresh known c)
    (hperm : (p :: others).Perm c) (horder : v.InOrder others)
    (hresult : others.foldl v.addTrivial ((p, d) :: known) = result) :
    result.lookup p = some d ∧ (∀ z ∈ others, result.lookup z = v.classifyTrivial result z) ∧
      ∀ y ∉ c, v.lookup result y = v.lookup known y := by
  subst hresult
  obtain ⟨-, hmem⟩ := mem_of_perm_cons hperm
  obtain ⟨hnot, hnodup⟩ := h.nodup_cons hperm
  have hnew : ∀ z ∈ others, List.lookup z ((p, d) :: known) = none := fun z hz => by
    have hne : z ≠ p := fun heq => hnot (heq ▸ hz)
    rw [lookup_cons_of_ne hne, h.unknown z (hmem z hz)]
  obtain ⟨hother, hall⟩ := lookup_foldl_addTrivial horder hnodup
    (fun z hz => h.member z (hmem z hz)) hnew
  refine ⟨(hother p hnot).trans List.lookup_cons_self, hall, fun y hy => ?_⟩
  have hy' : y ∉ p :: others := fun hmem => hy (hperm.mem_iff.mp hmem)
  rw [List.mem_cons, not_or] at hy'
  unfold LoopView.lookup
  rw [hother y hy'.2, lookup_cons_of_ne hy'.1]

end Solutions

end LoopView

namespace Setting

variable {R : Type} [Arithmetic R] {S : Setting R} {known cycle result : Classes}
variable {c zs : List InstrId} {p x y z : InstrId} {m : Descriptor}
variable {sources : List (InstrId × BlockId)}

section Order

theorem inputs_of_stepOf {minus : Bool} (hz : S.StepOf minus z x y) {w : InstrId} :
    w ∈ S.view.inputs z ↔ w = x ∨ w = y := by
  rcases hz with hz | ⟨-, hz⟩
  · simp [inputs_arith hz]
  · simp [inputs_arith hz, or_comm]

theorem Meaning.not_mem_deps (h : S.Meaning known cycle p z m) (hz : S.Inner z) (hyp : y ≠ p)
    (hnew : S.view.lookup known y = none) (hkeys : ∀ t ∈ cycle, t.1 ≠ y) :
    y ∉ S.view.deps z := by
  intro hdep
  obtain ⟨hy, hmember⟩ := mem_deps.mp hdep
  have hknown {b : Descriptor} (hb : S.view.invariant? known y = some b) : False := by
    rw [(invariant?_eq_some hb).1] at hnew
    cases hnew
  cases h with
  | forward _ _ hall => exact hkeys _ (hall y hy) rfl
  | delay hphi hhome hin _ hrest =>
    have hlisted := hz.listed (by rw [hphi]; rfl)
    obtain ⟨hout, -⟩ := headerInputs_pair hphi hlisted hhome hin
    rw [hin] at hy
    rcases List.mem_pair.mp hy with rfl | rfl
    · rw [not_isOutside_of_isMember hmember] at hout
      cases hout
    · exact hrest.elim (fun h => hyp h.1) fun h => hkeys _ h.1 rfl
  | first hstep hx hb _ =>
    rcases (inputs_of_stepOf hstep).mp hy with rfl | rfl
    · exact hyp hx
    · exact hknown hb
  | next hstep hmem _ hb _ =>
    rcases (inputs_of_stepOf hstep).mp hy with rfl | rfl
    · exact hkeys _ hmem rfl
    · exact hknown hb
  | reflect harith _ ha _ =>
    rw [inputs_arith harith] at hy
    rcases List.mem_pair.mp hy with rfl | rfl
    · exact hknown ha
    · exact hyp rfl

/-- Meanings are found for all members only in order. -/
theorem inOrder_of_meanings (hzs : ∀ z ∈ zs, S.Inner z) (hnodup : (p :: zs).Nodup)
    (hnew : ∀ z ∈ zs, S.view.lookup known z = none) (hkeys : ∀ t ∈ cycle, t.1 ∉ zs)
    (h : S.view.meanings known p cycle zs = some result) : S.view.InOrder zs := by
  induction zs generalizing cycle with
  | nil => exact ⟨fun _ hz => absurd hz List.not_mem_nil, .nil⟩
  | cons z zs ih =>
    obtain ⟨d, hd, h⟩ := Option.bind_eq_some_iff.mp h
    obtain ⟨hp, hz⟩ := List.nodup_cons.mp hnodup
    refine LoopView.inOrder_cons.mpr ⟨fun y hy => ?_, ?_⟩
    · exact (meaning_spec hd).not_mem_deps (hzs z List.mem_cons_self) (fun heq => hp (heq ▸ hy))
        (hnew y hy) fun t ht heq => hkeys t ht (heq ▸ hy)
    · refine ih (fun y hy => hzs y (List.mem_cons_of_mem _ hy)) ?_
        (fun y hy => hnew y (List.mem_cons_of_mem _ hy)) ?_ h
      · exact List.nodup_cons.mpr
          ⟨fun hmem => hp (List.mem_cons_of_mem _ hmem), (List.nodup_cons.mp hz).2⟩
      · refine List.forall_mem_cons.mpr ⟨(List.nodup_cons.mp hz).1, fun t ht hmem => ?_⟩
        exact hkeys t ht (List.mem_cons_of_mem _ hmem)

end Order

section Phis

variable {sources' : List (InstrId × BlockId)}

theorem perm_sources (hx : S.Inner x) (hphi : S.func.instr x = .phi sources) (hy : S.Inner y)
    (hphi' : S.func.instr y = .phi sources') (hhome : S.func.home y = S.func.home x) :
    (sources.map Prod.snd).Perm (sources'.map Prod.snd) := by
  have hsources := S.valid.sources _ x (hx.mem_phis hphi) sources hphi
  have hsources' := S.valid.sources _ y (hy.mem_phis hphi') sources' hphi'
  rw [hhome] at hsources'
  exact (List.perm_ext_iff_of_nodup hsources.1 hsources'.1).mpr fun b =>
    (hsources.2 b).trans (hsources'.2 b).symm

theorem inputs_of_header (hphi : S.func.instr x = .phi sources)
    (hhome : S.func.home x = S.loop.header) :
    (S.view.isEntryPhi x = true ↔
      ((sources.map Prod.snd).filter fun b => !S.view.contains b).length = 1) ∧
      (S.view.inputs x).length = (sources.map Prod.snd).length := by
  have hphi' : S.view.func.instr x = .phi sources := hphi
  have hhome' : S.view.func.home x = S.view.header := hhome
  constructor
  · rw [LoopView.isEntryPhi, hphi', List.filter_map, List.length_map]
    simp [hhome', Function.comp_def]
  · have hlength := List.length_eq_length_filter_add (l := sources) fun t => !S.view.contains t.2
    rw [LoopView.inputs, hphi']
    simp only [Bool.not_not] at hlength
    simp [hhome', hlength]

theorem isEntryPhi_congr (hx : S.Inner x) (hphi : S.func.instr x = .phi sources)
    (hhome : S.func.home x = S.loop.header) (hy : S.Inner y)
    (hphi' : S.func.instr y = .phi sources') (hhome' : S.func.home y = S.loop.header) :
    (S.view.isEntryPhi x = true ↔ S.view.isEntryPhi y = true) ∧
      (S.view.inputs x).length = (S.view.inputs y).length := by
  have hperm := perm_sources hx hphi hy hphi' (hhome'.trans hhome.symm)
  obtain ⟨hentry, hlength⟩ := inputs_of_header hphi hhome
  obtain ⟨hentry', hlength'⟩ := inputs_of_header hphi' hhome'
  rw [hentry, hentry', hlength, hlength', (hperm.filter _).length_eq, hperm.length_eq]
  exact ⟨Iff.rfl, rfl⟩

theorem isEntryPhi_of_pair (hz : S.Inner z) (hphi : S.func.instr z = .phi sources)
    (hhome : S.func.home z = S.loop.header) {outside carried : InstrId}
    (hin : S.view.inputs z = [outside, carried]) : S.view.isEntryPhi z = true := by
  have hlisted := hz.listed (by rw [hphi]; rfl)
  obtain ⟨outer, inner, h⟩ := exists_headerInputs hphi hlisted hhome
  obtain ⟨y, hy, -⟩ := h.exists_outer
  obtain ⟨w, hw⟩ := h.exists_inner
  have hlength : outer.length = 1 := by
    have hsum := congrArg List.length (h.inputs.symm.trans hin)
    rw [List.length_append] at hsum
    have := List.length_pos_of_mem hy
    have := List.length_pos_of_mem hw
    simp only [List.length_cons, List.length_nil] at hsum
    omega
  have hphi' : S.view.func.instr z = .phi sources := hphi
  have hhome' : S.view.func.home z = S.view.header := hhome
  rw [LoopView.isEntryPhi, hphi']
  simp [hhome', ← h.length_outer, hlength]

end Phis

section Reflected

variable {others : List InstrId} {outside w : InstrId} {d : Descriptor}

open LoopView Components

/-- On a cycle with one entry phi a sequence comes about by taking the phi off an invariant, which
the phi takes back. -/
theorem exists_reflect (hk : AllFormed (fun _ => True) known) (hc : AllFormed (fun _ => True) cycle)
    (hinner : ∀ z ∈ others, S.Inner z) (hentry : ∀ z ∈ others, S.view.isEntryPhi z = false)
    (horder : S.view.InOrder others) (h : S.view.meanings known p [] others = some cycle) :
    ∀ z ∈ others, ∀ m, (z, m) ∈ cycle → m.isPeriodic = true → ∃ w ∈ others, ∃ x outside a,
      S.func.instr w = .arith .sub x p ∧ S.view.inputs p = [outside, w] ∧
        S.view.lookup known x = some a := by
  obtain ⟨-, hkeys, hmeaning⟩ := meanings_spec h
  have hkey {y : InstrId} {m : Descriptor} (hy : (y, m) ∈ cycle) : y ∈ others := by
    have hmem := List.mem_map_of_mem (f := Prod.fst) hy
    rw [hkeys] at hmem
    simpa using hmem
  have hterm {y : InstrId} {b : Descriptor} (hb : S.view.invariant? known y = some b) : b.IsTerm :=
    (hk.invariant? hb fun _ _ => trivial).isTerm
  have hnot {m : Descriptor} (hm : m.IsTerm) (hperiodic : m.isPeriodic = true) : False := by
    rw [hm.isPeriodic] at hperiodic
    cases hperiodic
  refine horder.induction fun z hz ih m hmem hperiodic => ?_
  cases (hmeaning _ hmem).resolve_left List.not_mem_nil with
  | forward _ hne hall =>
    obtain ⟨y, hy⟩ := hne
    have hin := hall y hy
    have hdep := mem_deps_of_mem_inputs (hinner y (hkey hin)).member hy
    exact ih y (hkey hin) hdep m hin hperiodic
  | delay hphi hhome hin _ _ =>
    have := isEntryPhi_of_pair (hinner z hz) hphi hhome hin
    rw [hentry z hz] at this
    cases this
  | first _ _ hb hm => exact (hnot (isTerm_of_first (hterm hb) hm) hperiodic).elim
  | next _ ha hinv hb hm =>
    exact (hnot (isTerm_of_next ((hc _ ha).term hinv).isTerm (hterm hb) hm) hperiodic).elim
  | reflect harith hin ha _ =>
    exact ⟨z, hz, _, _, _, harith, hin, (invariant?_eq_some ha).1⟩

/-- Then there are no more members than the phi and the difference. -/
theorem eq_or_eq_of_reflect (hp : S.Inner p) (hentry : S.view.isEntryPhi p = true)
    (hfresh : S.view.Fresh known c) (hpc : p ∈ c) (harith : S.func.instr w = .arith .sub x p)
    (hin : S.view.inputs p = [outside, w]) {a : Descriptor}
    (ha : S.view.lookup known x = some a) : ∀ y ∈ c, y = p ∨ y = w := by
  obtain ⟨o, inner, sources, hphi, hhome, hheader⟩ := isEntryPhi_before hp hentry
  obtain ⟨hout, -⟩ := headerInputs_pair hphi (hp.listed (by rw [hphi]; rfl)) hhome hin
  have hstep {y z : InstrId} (hy : y = p ∨ y = w) (hdep : z ∈ S.view.deps y) (hz : z ∈ c) :
      z = p ∨ z = w := by
    obtain ⟨hmem, hmember⟩ := mem_deps.mp hdep
    rcases hy with rfl | rfl
    · rw [hin] at hmem
      rcases List.mem_pair.mp hmem with rfl | hz
      · rw [not_isOutside_of_isMember hmember] at hout
        cases hout
      · exact .inr hz
    · rw [inputs_arith harith] at hmem
      rcases List.mem_pair.mp hmem with rfl | hz
      · rw [hfresh.lookup_eq_none hz] at ha
        cases ha
      · exact .inl hz
  intro y hy
  have hleads {x y : InstrId} (h : Leads S.view.deps (· ∈ c) x y) (hx : x = p ∨ x = w) :
      y = p ∨ y = w := by
    induction h with
    | refl _ => exact hx
    | step _ hdep hrest ih => exact ih (hstep hx hdep hrest.left)
  exact hleads (hfresh.joined p hpc y hy) (.inl rfl)

/-- A sequence on a cycle with one entry phi alternates between two values. -/
theorem exists_eq_singleton (hk : AllFormed (fun _ => True) known)
    (hc : AllFormed (fun _ => True) cycle) (hp : S.Inner p) (hp' : S.view.isEntryPhi p = true)
    (hfresh : S.view.Fresh known (p :: others)) (hinner : ∀ z ∈ others, S.Inner z)
    (hentry : ∀ z ∈ others, S.view.isEntryPhi z = false) (horder : S.view.InOrder others)
    (h : S.view.meanings known p [] others = some cycle)
    (hd : S.view.common (fun y => cycle.lookup y) p 1 = some d) (hperiodic : d.isPeriodic = true) :
    ∃ w, others = [w] := by
  obtain ⟨⟨y, hy⟩, hall⟩ := common_eq_some hd
  have hmem := mem_of_lookup (hall y hy)
  have hkey : y ∈ others := by
    have := List.mem_map_of_mem (f := Prod.fst) hmem
    rw [(meanings_spec h).2.1] at this
    simpa using this
  obtain ⟨w, -, x, outside, a, harith, hin, ha⟩ :=
    exists_reflect hk hc hinner hentry horder h y hkey d hmem hperiodic
  have honly := eq_or_eq_of_reflect hp hp' hfresh List.mem_cons_self harith hin ha
  obtain ⟨hnot, hnodup⟩ := List.nodup_cons.mp hfresh.nodup
  have hothers (z : InstrId) (hz : z ∈ others) : z = w :=
    (honly z (List.mem_cons_of_mem _ hz)).resolve_left fun heq => hnot (heq ▸ hz)
  match others, hkey with
  | [z], _ => exact ⟨z, rfl⟩
  | z :: z' :: rest, _ =>
    have hz := hothers z List.mem_cons_self
    have hz' := hothers z' (List.mem_cons_of_mem _ List.mem_cons_self)
    exact absurd (hz.trans hz'.symm) fun heq =>
      (List.nodup_cons.mp hnodup).1 (heq ▸ List.mem_cons_self)

end Reflected

end Setting

end LoopBounds
