import LoopBounds.Proofs.Classify.Matched
import LoopBounds.Proofs.Classify.Soundness

/-!
# Classification of a reordered function

The values of a loop are classified component by component, and the components of a reordered
function are the same ones. So by induction on the components a value gets the same descriptor,
unless it rests on a cycle that is not taken in order, which may leave it without one.
-/

namespace LoopBounds

open Components

namespace LoopView

variable (v : LoopView)

/-- The value depends, by way of values of the loop, on a member of `c`. -/
def RestsOn (x : InstrId) (c : List InstrId) : Prop :=
  ∃ y ∈ c, Leads v.deps (fun _ => True) x y

/-- The value rests on a cycle that is not taken in order. -/
def Disordered (x : InstrId) : Prop :=
  ∃ c ∈ v.components, v.RestsOn x c ∧ ¬ v.TakenInOrder c

/-- All cycles on which the value rests are plain. -/
def AllPlain (x : InstrId) : Prop := ∀ c ∈ v.components, v.RestsOn x c → v.Plain c

variable {v} {before after : List (List InstrId)} {c : List InstrId} {x y : InstrId}

theorem not_disordered (h : ∀ c ∈ v.components, v.TakenInOrder c) : ¬ v.Disordered x :=
  fun ⟨c, hc, _, hnot⟩ => hnot (h c hc)

section Leads

variable (h : Leads v.deps (fun _ => True) x y)

include h

theorem RestsOn.of_leads (hy : v.RestsOn y c) : v.RestsOn x c := by
  obtain ⟨z, hz, hyz⟩ := hy
  exact ⟨z, hz, h.trans hyz⟩

theorem Disordered.of_leads (hy : v.Disordered y) : v.Disordered x := by
  obtain ⟨c, hc, hrests, hnot⟩ := hy
  exact ⟨c, hc, hrests.of_leads h, hnot⟩

theorem AllPlain.of_leads (hx : v.AllPlain x) : v.AllPlain y :=
  fun c hc hrests => hx c hc (hrests.of_leads h)

end Leads

theorem Renamed.leads {v' : LoopView} {σ : Equiv.Perm InstrId} {β : Equiv.Perm BlockId}
    (h : v.Renamed v' σ β) (hxy : Leads v.deps (fun _ => True) x y) :
    Leads v'.deps (fun _ => True) (σ x) (σ y) := by
  induction hxy with
  | refl _ => exact .refl trivial
  | step _ hy _ ih => exact .step trivial (h.mem_deps_iff.mpr hy) ih

/-- What is classified first stays, and a component adds to it. -/
theorem lookup_classes_of_split (hnodup : v.components.flatten.Nodup)
    (heq : v.components = before ++ c :: after) :
    (∀ x ∈ before.flatten,
      v.classes.lookup x = (before.foldl v.classifyComponent []).lookup x) ∧
    ∀ x ∈ c, v.classes.lookup x =
      (v.classifyComponent (before.foldl v.classifyComponent []) c).lookup x := by
  have hclasses : v.classes =
      after.foldl v.classifyComponent
        (v.classifyComponent (before.foldl v.classifyComponent []) c) := by
    rw [classes, heq, List.foldl_append, List.foldl_cons]
  have hafter (x : InstrId) (hx : x ∉ after.flatten) : v.classes.lookup x =
      (v.classifyComponent (before.foldl v.classifyComponent []) c).lookup x := by
    rw [hclasses, lookup_foldl_classifyComponent hx]
  refine ⟨fun x hx => ?_, fun x hx => hafter x (not_mem_after hnodup heq hx)⟩
  rw [heq, List.flatten_append, List.flatten_cons, List.nodup_append] at hnodup
  have hnot : x ∉ c ++ after.flatten := fun hmem => hnodup.2.2 x hx x hmem rfl
  rw [List.mem_append, not_or] at hnot
  rw [hafter x hnot.2, adds_classifyComponent.lookup_eq hnot.1]

end LoopView

namespace Setting

variable {R : Type} [Arithmetic R] {S S' : Setting R} {σ : Equiv.Perm InstrId}
variable {β : Equiv.Perm BlockId} {before after before' after' : List (List InstrId)}
variable {c c' : List InstrId} {x y : InstrId}

section Components

theorem mem_members_of_inner (hx : S.Inner x) : x ∈ S.view.members := by
  obtain ⟨hout, hinnermost⟩ := LoopView.isMember_eq_true_iff.mp hx.member
  have hhome := (isOutside_eq_false_iff.mp hout).2
  refine List.mem_flatMap.mpr ⟨S.func.home x, List.mem_filter.mpr ⟨hhome, ?_⟩, hx.mem_instrs⟩
  exact decide_eq_true hinnermost

theorem dependenciesFirst : DependenciesFirst S.view.deps S.view.components ∧
    ∀ x, S.Inner x → x ∈ S.view.components.flatten := by
  have hclosed (x y : InstrId) (hx : x ∈ S.view.members) (hy : y ∈ S.view.deps x) :
      y ∈ S.view.members :=
    mem_members_of_inner (inner_of_mem_deps (inner_of_mem_members hx) hy)
  obtain ⟨hfirst, hall⟩ := components_order hclosed
  exact ⟨hfirst, fun x hx => hall x (mem_members_of_inner hx)⟩

theorem inner_of_mem_flatten (hx : x ∈ S.view.components.flatten) : S.Inner x := by
  obtain ⟨c, hc, hx⟩ := List.mem_flatten.mp hx
  exact S.components_inner.2.2 c hc x hx

theorem fresh_of_split (heq : S.view.components = before ++ c :: after) :
    S.view.Fresh (before.foldl S.view.classifyComponent []) c := by
  obtain ⟨hnodup, hjoined, hinner⟩ := S.components_inner
  have hc : c ∈ S.view.components := heq ▸ by simp
  exact ⟨(List.nodup_flatten.mp hnodup).1 c hc, hjoined c hc, fun x hx => (hinner c hc x hx).member,
    fun x hx => LoopView.lookup_foldl_classifyComponent (not_mem_before hnodup heq hx)⟩

theorem formed_foldl :
    LoopView.AllFormed (fun _ => True) (before.foldl S.view.classifyComponent []) :=
  List.foldlRecOn _ _ (fun _ ht => absurd ht List.not_mem_nil) fun _ hk _ _ =>
    hk.classifyComponent fun _ _ _ _ _ _ => trivial

theorem lookup_classes_of_not_isMember (hx : ¬ S.view.isMember x = true) :
    S.view.classes.lookup x = none :=
  LoopView.lookup_classes_of_not_mem fun hmem => hx (inner_of_mem_flatten hmem).member

theorem lookup_classesWithTripCount_eq : S.view.classesWithTripCount.lookup x =
    if S.view.func.terminator? S.view.header = some x then S.view.tripCount? S.view.classes x
    else S.view.classes.lookup x := by
  unfold LoopView.classesWithTripCount
  cases hcontrol : S.view.func.terminator? S.view.header with
  | none => rfl
  | some control =>
    dsimp only
    by_cases hx : control = x
    · subst hx
      have hnone : S.view.classes.lookup control = none := by
        rw [Option.eq_none_iff_forall_ne_some]
        intro d hd
        have hvalue : (S.func.instr control).isTerminator = false :=
          LoopView.valued_classes _ (mem_of_lookup hd)
        rw [S.valid.terminator _ control hcontrol] at hvalue
        cases hvalue
      rw [if_pos rfl]
      cases S.view.tripCount? S.view.classes control with
      | none => exact hnone
      | some trip => exact List.lookup_cons_self
    · rw [if_neg fun heq => hx (Option.some.inj heq)]
      cases S.view.tripCount? S.view.classes control with
      | none => rfl
      | some trip => exact LoopView.lookup_cons_of_ne (Ne.symm hx)

end Components

section Renamed

variable (h : S.view.Renamed S'.view σ β)

include h

theorem inner_iff : S'.Inner (σ x) ↔ S.Inner x := by
  have := h.owns_iff (x := x)
  exact ⟨fun hx => ⟨(this.mp ⟨hx.member, hx.mem_instrs⟩).member,
    (this.mp ⟨hx.member, hx.mem_instrs⟩).listed⟩, fun hx =>
    ⟨(this.mpr ⟨hx.member, hx.mem_instrs⟩).member, (this.mpr ⟨hx.member, hx.mem_instrs⟩).listed⟩⟩

theorem exists_component (hc : c ∈ S.view.components) (hx : x ∈ c) :
    ∃ c' ∈ S'.view.components, ∀ y, σ y ∈ c' ↔ y ∈ c := by
  obtain ⟨hnodup, hjoined, hinner⟩ := S.components_inner
  obtain ⟨hnodup', hjoined', hinner'⟩ := S'.components_inner
  obtain ⟨hfirst, hall⟩ := S.dependenciesFirst
  obtain ⟨hfirst', hall'⟩ := S'.dependenciesFirst
  have hanywhere {deps : InstrId → List InstrId} {c : List InstrId} {x y : InstrId}
      (h : Leads deps (· ∈ c) x y) : Leads deps (fun _ => True) x y := h.mono fun _ _ => trivial
  obtain ⟨c', hc', hx'⟩ :=
    List.mem_flatten.mp (hall' _ ((inner_iff h).mpr (hinner c hc x hx)))
  refine ⟨c', hc', fun y => ⟨fun hy' => ?_, fun hy => ?_⟩⟩
  · have hxy := h.symm.leads (hanywhere (hjoined' c' hc' _ hx' _ hy'))
    have hyx := h.symm.leads (hanywhere (hjoined' c' hc' _ hy' _ hx'))
    rw [Equiv.symm_apply_apply, Equiv.symm_apply_apply] at hxy hyx
    obtain ⟨d, hd, hy⟩ := List.mem_flatten.mp (hall y ((inner_iff h).mp (hinner' c' hc' _ hy')))
    rwa [hfirst.eq_of_leads hnodup hc hd hx hy hxy hyx]
  · have hxy := h.leads (hanywhere (hjoined c hc x hx y hy))
    have hyx := h.leads (hanywhere (hjoined c hc y hy x hx))
    obtain ⟨d, hd, hy'⟩ := List.mem_flatten.mp (hall' _ ((inner_iff h).mpr (hinner c hc y hy)))
    rwa [hfirst'.eq_of_leads hnodup' hc' hd hx' hy' hxy hyx]

section Split

variable (heq : S.view.components = before ++ c :: after)
variable (heq' : S'.view.components = before' ++ c' :: after') (hmem : ∀ y, σ y ∈ c' ↔ y ∈ c)

include heq heq' hmem

/-- What a component takes over from others is classified before it in both views, or is no member
in either. -/
theorem mem_before_or {z : InstrId} (hz : z ∈ c) (hy : y ∈ S.view.inputs z) (hyc : y ∉ c) :
    S.Inner y ∧ y ∈ before.flatten ∧ σ y ∈ before'.flatten ∨
      y ∉ before.flatten ∧ σ y ∉ before'.flatten := by
  by_cases hyb : y ∈ before.flatten
  · have hinner : S.Inner y := inner_of_mem_flatten (by rw [heq, List.flatten_append]; simp [hyb])
    have hdep := h.mem_deps_iff.mpr (LoopView.mem_deps_of_mem_inputs hinner.member hy)
    have hyb' := S'.dependenciesFirst.1.mem_or heq' ((hmem z).mpr hz) hdep
    exact .inl ⟨hinner, hyb, hyb'.resolve_right fun hyc' => hyc ((hmem y).mp hyc')⟩
  · refine .inr ⟨hyb, fun hyb' => ?_⟩
    have hinner : S'.Inner (σ y) :=
      inner_of_mem_flatten (by rw [heq', List.flatten_append]; simp [hyb'])
    have hdep := LoopView.mem_deps_of_mem_inputs (h.isMember ▸ hinner.member) hy
    exact (S.dependenciesFirst.1.mem_or heq hz hdep).elim hyb hyc

theorem matched_of_split (hx : x ∈ c) (hplain : S.view.AllPlain x)
    (hbefore : ∀ y ∈ before.flatten, S.view.AllPlain y →
      Carries (S'.view.Disordered (σ y)) (.rename σ) (S.view.classes.lookup y)
        (S'.view.classes.lookup (σ y))) :
    Matched S S' σ β (S'.view.Disordered (σ x)) (before.foldl S.view.classifyComponent [])
      (before'.foldl S'.view.classifyComponent []) c c' where
  renamed := h
  mem := hmem
  fresh := fresh_of_split heq
  fresh' := fresh_of_split heq'
  inner y hy := S.components_inner.2.2 c (heq ▸ by simp) y hy
  inner' y hy := S'.components_inner.2.2 c' (heq' ▸ by simp) y hy
  formed := formed_foldl
  formed' := formed_foldl
  before := by
    intro z hz y hy hyc
    rcases mem_before_or h heq heq' hmem hz hy hyc with ⟨hinner, hyb, hyb'⟩ | ⟨hyb, hyb'⟩
    · obtain ⟨hnodup, hjoined, -⟩ := S.components_inner
      have hdep := LoopView.mem_deps_of_mem_inputs hinner.member hy
      have hleads : Leads S.view.deps (fun _ => True) x y :=
        ((hjoined c (heq ▸ by simp) x hx z hz).mono fun _ _ => trivial).trans
          (.step trivial hdep (.refl trivial))
      have hcarries := hbefore y hyb (hplain.of_leads hleads)
      rw [(LoopView.lookup_classes_of_split hnodup heq).1 y hyb,
        (LoopView.lookup_classes_of_split S'.components_inner.1 heq').1 _ hyb'] at hcarries
      refine h.carries_lookup (fun hout => ?_)
        (hcarries.mono (LoopView.Disordered.of_leads (h.leads hleads)))
      rw [LoopView.isOutside_of_isMember hinner.member] at hout
      cases hout
    · have hnone : (before.foldl S.view.classifyComponent []).lookup y = none :=
        LoopView.lookup_foldl_classifyComponent hyb
      have hnone' : (before'.foldl S'.view.classifyComponent []).lookup (σ y) = none :=
        LoopView.lookup_foldl_classifyComponent hyb'
      exact h.carries_lookup (fun _ => ⟨hnone, hnone'⟩) (.of_eq_none hnone)

end Split

/-- What is classified in one function is classified alike in the other, unless it rests there on
a cycle that is not taken in order. -/
theorem carries_classes (hplain : S.view.AllPlain x) :
    Carries (S'.view.Disordered (σ x)) (.rename σ) (S.view.classes.lookup x)
      (S'.view.classes.lookup (σ x)) := by
  -- By induction on the components that are classified already.
  have hsplit (before after : List (List InstrId)) (heq : S.view.components = before ++ after) :
      ∀ x ∈ before.flatten, S.view.AllPlain x →
        Carries (S'.view.Disordered (σ x)) (.rename σ) (S.view.classes.lookup x)
          (S'.view.classes.lookup (σ x)) := by
    induction before using List.reverseRecOn generalizing after with
    | nil => exact fun x hx => absurd hx List.not_mem_nil
    | append_singleton before c ih =>
      rw [List.append_assoc, List.singleton_append] at heq
      intro x hx hplain
      rw [List.flatten_append, List.flatten_singleton, List.mem_append] at hx
      rcases hx with hx | hx
      · exact ih _ heq x hx hplain
      · have hc : c ∈ S.view.components := heq ▸ by simp
        obtain ⟨c', hc', hmem⟩ := exists_component h hc hx
        obtain ⟨before', after', heq'⟩ := List.append_of_mem hc'
        have hmatched := matched_of_split h heq heq' hmem hx hplain (ih _ heq)
        rw [(LoopView.lookup_classes_of_split S.components_inner.1 heq).2 x hx,
          (LoopView.lookup_classes_of_split S'.components_inner.1 heq').2 _ ((hmem x).mpr hx)]
        refine (hmatched.carries_classifyComponent (hplain c hc ⟨x, hx, .refl trivial⟩) hx).mono ?_
        refine fun hexcuse => hexcuse.elim (fun h => h) fun hnot => ?_
        exact ⟨c', hc', ⟨σ x, (hmem x).mpr hx, .refl trivial⟩, hnot⟩
  by_cases hx : x ∈ S.view.components.flatten
  · exact hsplit _ [] (List.append_nil _).symm x hx hplain
  · exact .of_eq_none (LoopView.lookup_classes_of_not_mem hx)

end Renamed

section Test

variable {control z : InstrId} {t e : BlockId} {op : Comparison}
variable (hid : S.id ∈ S.func.flow.loopForest.ids)

include hid

theorem inner_of_header (hx : x ∈ (S.func.block (S.func.home x)).instrs)
    (hhome : S.func.home x = S.loop.header) : S.Inner x := by
  refine ⟨LoopView.isMember_eq_true_iff.mpr ⟨isOutside_eq_false_iff.mpr ⟨?_, ?_⟩, ?_⟩, hx⟩
  · exact S.valid.not_isLeaf_of_mem_instrs hx
  · exact hhome ▸ loop_natural.header_mem
  · show S.func.flow.loopForest.innermost? (S.func.home x) = some S.id
    rw [hhome]
    refine S.valid.flow.innermost?_eq_some_iff.mpr ⟨hid, ?_, fun m hm hcontains => ?_⟩
    · exact contains_iff.mpr loop_natural.header_mem
    · exact (S.valid.flow.inside_iff hid hm).mpr hcontains

theorem inner_of_compared (hcontrol : S.func.terminator? S.loop.header = some control)
    (hbranch : S.func.instr control = .branch x t e) (hcompare : S.func.instr x = .compare op y z)
    (hinside : ∃ w ∈ [y, z], S.view.isMember w = true) : S.Inner x := by
  have hmem : control ∈ (S.func.block S.loop.header).instrs :=
    List.mem_append_right _ (Option.mem_toList.mpr hcontrol)
  obtain ⟨done, rest, heq⟩ := List.append_of_mem hmem
  have hdone (w : InstrId) (hw : w ∈ done) : w ∈ (S.func.block S.loop.header).instrs :=
    heq ▸ List.mem_append_left _ hw
  have hav := S.valid.operand_available _ done control rest heq (by rw [hbranch]; rfl) x
    (by rw [hbranch]; exact List.mem_singleton_self x)
  have hloop : S.func.home x ∈ S.loop.blocks := by
    obtain ⟨w, hw, hmember⟩ := hinside
    exact home_mem_of_compared hcompare ⟨w, hw, LoopView.isOutside_of_isMember hmember⟩
      (fun w hw => S.valid.home _ w (hdone w hw)) hav
  rcases hav with hleaf | hx | ⟨hlisted, -, hd⟩
  · rw [hcompare] at hleaf
    cases hleaf
  · have hhome := S.valid.home _ x (hdone x hx)
    exact inner_of_header hid (hhome ▸ hdone x hx) hhome
  · exact inner_of_header hid (List.mem_append_left _ hlisted)
      (loop_natural.eq_header_of_dominates hloop hd)

end Test

section OutOfOrder

/-- Nothing depends on a terminator, so it is on no cycle. -/
theorem not_isTerminator_of_mem_cycle (hc : c ∈ S.view.components) (hx : x ∈ c) (hy : y ∈ c)
    (hne : y ≠ x) : (S.func.instr x).isTerminator = false := by
  have hlast {u w : InstrId} (h : Leads S.view.deps (· ∈ c) u w) (hne : u ≠ w) :
      ∃ z ∈ c, w ∈ S.view.deps z := by
    induction h with
    | refl _ => exact absurd rfl hne
    | @step u w' w hu hdep _ ih =>
      by_cases hw : w' = w
      · exact ⟨u, hu, hw ▸ hdep⟩
      · exact ih hw
  obtain ⟨-, hjoined, hinner⟩ := S.components_inner
  obtain ⟨z, hz, hdep⟩ := hlast (hjoined c hc y hy x hx) hne
  obtain ⟨hin, hmember⟩ := mem_deps.mp hdep
  have hleaf := (isOutside_eq_false_iff.mp (LoopView.isOutside_of_isMember hmember)).1
  rcases S.valid.linked.operand _ z (hinner c hc z hz).mem_instrs x
    (LoopView.mem_inputs_iff.mp hin) with h | h
  · rw [hleaf] at h
    cases h
  · exact S.valid.not_isTerminator_of_mem_values h

/-- The members of a cycle that is not taken in order have no descriptors. -/
theorem lookup_eq_none_of_not_takenInOrder (hc : c ∈ S.view.components)
    (hnot : ¬ S.view.TakenInOrder c) (hx : x ∈ c) :
    S.view.classesWithTripCount.lookup x = none := by
  obtain ⟨hnodup, -, hinner⟩ := S.components_inner
  obtain ⟨before, after, heq⟩ := List.append_of_mem hc
  obtain ⟨hany, -⟩ := Classical.not_imp.mp hnot
  obtain ⟨p, others, hperm, hp, hclassify, htaken⟩ :=
    LoopView.exists_entry (before.foldl S.view.classifyComponent []) hany
  have hterm : (S.func.instr x).isTerminator = false := by
    by_cases hpx : p = x
    · exact hpx ▸ LoopView.not_isTerminator_of_isEntryPhi hp
    · exact not_isTerminator_of_mem_cycle hc hx (mem_of_perm_cons hperm).1 hpx
  have hcontrol : S.view.func.terminator? S.view.header ≠ some x := fun hcontrol => by
    rw [S.valid.terminator _ x hcontrol] at hterm
    cases hterm
  rw [lookup_classesWithTripCount_eq, if_neg hcontrol,
    (LoopView.lookup_classes_of_split hnodup heq).2 x hx, hclassify,
    Option.eq_none_iff_forall_ne_some]
  exact fun d hd => hnot (htaken.mpr
    (inOrder_of_classifyCycle (hinner c hc) (fresh_of_split heq) hperm hx hd))

end OutOfOrder

section TripCount

variable (h : S.view.Renamed S'.view σ β) (hid : S.id ∈ S.func.flow.loopForest.ids)

include h hid

theorem carries_tripCount? (hcontrol : S.func.terminator? S.loop.header = some x)
    (hplain : S.view.AllPlain x) : Carries (S'.view.Disordered (σ x)) (.rename σ)
      (S.view.tripCount? S.view.classes x) (S'.view.tripCount? S'.view.classes (σ x)) := by
  refine h.carries_tripCount? fun c t e op l r hbranch hcompare y hy => ?_
  by_cases hmember : S.view.isMember y = true
  · have hc := inner_of_compared hid hcontrol hbranch hcompare ⟨y, hy, hmember⟩
    have hcin : c ∈ S.view.inputs x := by
      rw [LoopView.inputs, show S.view.func.instr x = _ from hbranch]
      exact List.mem_singleton_self c
    have hyin : y ∈ S.view.inputs c := by
      rw [LoopView.inputs, show S.view.func.instr c = _ from hcompare]
      exact hy
    have hleads : Leads S.view.deps (fun _ => True) x y :=
      .step trivial (LoopView.mem_deps_of_mem_inputs hc.member hcin)
        (.step trivial (LoopView.mem_deps_of_mem_inputs hmember hyin) (.refl trivial))
    refine h.carries_lookup (fun hout => ?_) ((carries_classes h (hplain.of_leads hleads)).mono
      (LoopView.Disordered.of_leads (h.leads hleads)))
    rw [LoopView.isOutside_of_isMember hmember] at hout
    cases hout
  · have hnone := lookup_classes_of_not_isMember hmember
    have hnone' := lookup_classes_of_not_isMember (h.isMember.symm ▸ hmember)
    exact h.carries_lookup (fun _ => ⟨hnone, hnone'⟩) (.of_eq_none hnone)

variable (S S') in
theorem carries_classesWithTripCount (hplain : S.view.AllPlain x) :
    Carries (S'.view.Disordered (σ x)) (.rename σ) (S.view.classesWithTripCount.lookup x)
      (S'.view.classesWithTripCount.lookup (σ x)) := by
  have hterm : S'.view.func.terminator? S'.view.header = some (σ x) ↔
      S.view.func.terminator? S.view.header = some x := by
    rw [h.header, h.func.terminator?, Option.map_eq_some_iff]
    simp
  rw [lookup_classesWithTripCount_eq, lookup_classesWithTripCount_eq]
  simp only [hterm]
  split_ifs with hcontrol
  · exact carries_tripCount? h hid hcontrol hplain
  · exact carries_classes h hplain

end TripCount

variable (S S') in
theorem allPlain_renamed (h : S.view.Renamed S'.view σ β) (hplain : S.view.AllPlain x) :
    S'.view.AllPlain (σ x) := by
  rintro c' hc' ⟨y', hy', hleads⟩
  obtain ⟨c, hc, hmem⟩ := exists_component h.symm hc' hy'
  have hleads := h.symm.leads hleads
  rw [Equiv.symm_apply_apply] at hleads
  have hforall {P : InstrId → Prop} : (∀ x ∈ c', P x) ↔ ∀ x ∈ c, P (σ x) := by
    rw [σ.surjective.forall]
    simp only [← hmem, Equiv.symm_apply_apply]
  rcases hplain c hc ⟨_, (hmem y').mpr hy', hleads⟩ with hunique | hall
  · refine .inl (hforall.mpr fun x hx => hforall.mpr fun y hy => ?_)
    rw [h.isEntryPhi, h.isEntryPhi, σ.injective.eq_iff]
    exact hunique x hx y hy
  · exact .inr (hforall.mpr fun x hx => h.isEntryPhi.trans (hall x hx))

end Setting

/-- The answers agree up to the names of instructions, or one is missing for its reason. -/
def Alike (σ : InstrId → InstrId) (reason reason' : Prop) (a b : Option Descriptor) : Prop :=
  b = a.map (.rename σ) ∨ a = none ∧ reason ∨ b = none ∧ reason'

theorem Alike.eq {σ : InstrId → InstrId} {p q : Prop} {a b : Option Descriptor}
    (h : Alike σ p q a b) (hp : ¬ p) (hq : ¬ q) : b = a.map (.rename σ) :=
  (h.resolve_right fun h => h.elim (fun h => hp h.2) fun h => hq h.2)

theorem alike_of_carries {σ σ' : InstrId → InstrId} {p q : Prop} {a b : Option Descriptor}
    (h : Carries q (.rename σ) a b) (h' : Carries p (.rename σ') b a) : Alike σ p q a b := by
  cases a with
  | some d => exact (h d rfl).imp_right fun hb => .inr hb.symm
  | none =>
    cases b with
    | none => exact .inl rfl
    | some e => exact .inr (.inl ((h' e rfl).resolve_left nofun).symm)

theorem Analysis.tripCount?_eq_stored? {f : Func} {l : LoopId} {t : InstrId}
    (ht : f.terminator? (f.flow.loopForest.get l).header = some t) :
    (ofFunc f).tripCount? f l = (ofFunc f).stored? l t := by
  change (f.terminator? (f.flow.loopForest.get l).header).bind _ = _
  rw [ht, Option.bind_some]

section Given

variable {f : Func} (hf : f.Valid) {l : LoopId} {x : InstrId}

include hf

theorem Analysis.given_eq_false (hleaf : (f.instr x).isLeaf = false)
    (hhome : f.home x ∈ (f.flow.loopForest.get l).blocks) :
    ((f.constant? x).isSome || decide (x ∈ f.params) ||
      !(ofFunc f).forest.contains l (f.home x)) = false := by
  have hparam : x ∉ f.params := fun hmem => by
    rw [hf.param x hmem] at hleaf
    cases hleaf
  have hconstant : f.constant? x = none := by
    unfold Func.constant?
    cases hi : f.instr x with
    | constant v =>
      rw [hi] at hleaf
      cases hleaf
    | _ => rfl
  have hcontains : (ofFunc f).forest.contains l (f.home x) = true :=
    (hf.flow.finished.recorded l _).mpr hhome
  simp [hconstant, hparam, hcontains]

theorem Analysis.given_eq_false_of_stored? {d : Descriptor}
    (h : (ofFunc f).stored? l x = some d) : ((f.constant? x).isSome || decide (x ∈ f.params) ||
      !(ofFunc f).forest.contains l (f.home x)) = false :=
  given_eq_false hf (hf.not_isLeaf_of_mem_instrs (mem_instrs_of_stored? hf.linked h))
    (home_mem_of_stored? hf.linked h)

end Given

theorem Analysis.lookup_eq_none_of_not_takenInOrder {f : Func} (hf : f.Valid) {l : LoopId}
    (hl : l ∈ f.flow.loopForest.ids) {c : List InstrId}
    (hc : c ∈ (LoopView.mk f f.flow.loopForest l).components)
    (hnot : ¬ (LoopView.mk f f.flow.loopForest l).TakenInOrder c) {x : InstrId} (hx : x ∈ c) :
    (ofFunc f).lookup f l x = none := by
  have hlt := LoopForest.mem_ids.mp hl
  let S := Setting.words hf (fun _ => 0) hlt
  have hinner : S.Inner x := S.components_inner.2.2 c hc x hx
  have hleaf : (f.instr x).isLeaf = false := hf.not_isLeaf_of_mem_instrs hinner.mem_instrs
  have hhome : f.home x ∈ (f.flow.loopForest.get l).blocks :=
    (Setting.isOutside_eq_false_iff.mp (LoopView.isOutside_of_isMember hinner.member)).2
  have hstored : (ofFunc f).stored? l x = none := by
    rw [stored?, classesOf_ofFunc hlt]
    exact Setting.lookup_eq_none_of_not_takenInOrder (S := S) hc hnot hx
  rw [Analysis.lookup, hstored]
  dsimp only
  rw [given_eq_false hf hleaf hhome, if_neg Bool.false_ne_true]

namespace Func.Reordered

open FlowGraph Analysis

variable {f g : Func} {σ : Equiv.Perm InstrId} {β : Equiv.Perm BlockId} {l l' : LoopId}
variable {x : InstrId}

section SameLoop

variable (h : f.Reordered g σ β) (hf : f.Valid) (hl : SameLoop f.flow g.flow β l l')

include h hf hl

theorem view : (LoopView.mk f f.flow.loopForest l).Renamed ⟨g, g.flow.loopForest, l'⟩ σ β where
  func := h
  contains _ := h.flow.contains_eq hf.flow (h.valid hf).flow hl
  header := hl.header
  innermost _ := h.flow.innermost?_iff hf.flow (h.valid hf).flow hl

theorem carries_stored? (hplain : (LoopView.mk f f.flow.loopForest l).AllPlain x) :
    Carries ((LoopView.mk g g.flow.loopForest l').Disordered (σ x)) (.rename σ)
      ((ofFunc f).stored? l x) ((ofFunc g).stored? l' (σ x)) := by
  have hlt := LoopForest.mem_ids.mp hl.mem
  have hlt' := LoopForest.mem_ids.mp hl.mem'
  let S := Setting.words hf (fun _ => 0) hlt
  let S' := Setting.words (h.valid hf) (fun _ => 0) hlt'
  rw [stored?, stored?, classesOf_ofFunc hlt, classesOf_ofFunc hlt']
  exact Setting.carries_classesWithTripCount S S' (h.view hf hl) hl.mem hplain

/-- A value from outside the loop is fetched in both functions, and no other. -/
theorem given_eq : ((g.constant? (σ x)).isSome || decide (σ x ∈ g.params) ||
      !(ofFunc g).forest.contains l' (g.home (σ x))) =
    ((f.constant? x).isSome || decide (x ∈ f.params) ||
      !(ofFunc f).forest.contains l (f.home x)) := by
  have hcontains : (ofFunc g).forest.contains l' (g.home (σ x)) =
      (ofFunc f).forest.contains l (f.home x) := by
    rw [h.home]
    exact h.flow.contains_eq hf.flow (h.valid hf).flow hl
  have hparams : σ x ∈ g.params ↔ x ∈ f.params := by
    rw [h.params, List.mem_map_of_injective σ.injective]
  simp only [h.constant?, hparams, hcontains]

theorem carries_lookup (hplain : (LoopView.mk f f.flow.loopForest l).AllPlain x) :
    Carries ((LoopView.mk g g.flow.loopForest l').Disordered (σ x)) (.rename σ)
      ((ofFunc f).lookup f l x) ((ofFunc g).lookup g l' (σ x)) := by
  have hstored := h.carries_stored? hf hl hplain
  have hfetch := (h.view hf hl).fetch (x := x)
  have hgiven := h.given_eq hf hl (x := x)
  unfold Analysis.lookup
  rw [hgiven]
  cases hd : (ofFunc f).stored? l x with
  | some d =>
    rcases hstored d hd with hsome | ⟨he, hnone⟩
    · rw [hsome]
      exact .some d
    · rw [hnone, given_eq_false_of_stored? hf hd]
      exact fun _ _ => .inr ⟨he, rfl⟩
  | none =>
    dsimp only
    split_ifs with hg
    · cases he : (ofFunc g).stored? l' (σ x) with
      | some e =>
        have := given_eq_false_of_stored? (h.valid hf) he
        rw [hgiven, hg] at this
        cases this
      | none => exact .of_eq_map (congrArg some hfetch)
    · exact .of_eq_none rfl

section Symm

variable (hplain : (LoopView.mk f f.flow.loopForest l).AllPlain x)

include hplain

theorem allPlain : (LoopView.mk g g.flow.loopForest l').AllPlain (σ x) := by
  let S := Setting.words hf (fun _ => 0) (LoopForest.mem_ids.mp hl.mem)
  let S' := Setting.words (h.valid hf) (fun _ => 0) (LoopForest.mem_ids.mp hl.mem')
  exact Setting.allPlain_renamed S S' (h.view hf hl) hplain

theorem carries_stored?_symm :
    Carries ((LoopView.mk f f.flow.loopForest l).Disordered x) (.rename σ.symm)
      ((ofFunc g).stored? l' (σ x)) ((ofFunc f).stored? l x) := by
  have := h.symm.carries_stored? (h.valid hf) hl.symm (h.allPlain hf hl hplain)
  rwa [Equiv.symm_apply_apply] at this

theorem carries_lookup_symm :
    Carries ((LoopView.mk f f.flow.loopForest l).Disordered x) (.rename σ.symm)
      ((ofFunc g).lookup g l' (σ x)) ((ofFunc f).lookup f l x) := by
  have := h.symm.carries_lookup (h.valid hf) hl.symm (h.allPlain hf hl hplain)
  rwa [Equiv.symm_apply_apply] at this

end Symm

end SameLoop

/-- Writing the blocks of a function in another order keeps its loops. As far as the cycles are
plain on which they rest, values and trip counts have the same descriptors in both functions up to
the positions of instructions, or they have one in one function and none in the other. Then what
has none rests there on a cycle whose members are not taken in the order of their dependencies; and
the members of such a cycle never have a descriptor. -/
theorem lookup_alike (hf : f.Valid) (h : f.Reordered g σ β) : ∃ ρ : LoopId → LoopId,
    Set.BijOn ρ {l | l ∈ f.flow.loopForest.ids} {l | l ∈ g.flow.loopForest.ids} ∧
    ∀ l ∈ f.flow.loopForest.ids,
      (g.flow.loopForest.get (ρ l)).header = β (f.flow.loopForest.get l).header ∧
      (∀ c ∈ (LoopView.mk f f.flow.loopForest l).components,
        ¬ (LoopView.mk f f.flow.loopForest l).TakenInOrder c →
        ∀ x ∈ c, (ofFunc f).lookup f l x = none) ∧
      (∀ x, (LoopView.mk f f.flow.loopForest l).AllPlain x →
        Alike σ ((LoopView.mk f f.flow.loopForest l).Disordered x)
          ((LoopView.mk g g.flow.loopForest (ρ l)).Disordered (σ x))
          ((ofFunc f).lookup f l x) ((ofFunc g).lookup g (ρ l) (σ x))) ∧
      ∀ t, f.terminator? (f.flow.loopForest.get l).header = some t →
        (LoopView.mk f f.flow.loopForest l).AllPlain t →
        Alike σ ((LoopView.mk f f.flow.loopForest l).Disordered t)
          ((LoopView.mk g g.flow.loopForest (ρ l)).Disordered (σ t))
          ((ofFunc f).tripCount? f l) ((ofFunc g).tripCount? g (ρ l)) := by
  have hexists (l : LoopId) : ∃ l', l ∈ f.flow.loopForest.ids → SameLoop f.flow g.flow β l l' := by
    by_cases hl : l ∈ f.flow.loopForest.ids
    · obtain ⟨l', hl'⟩ := h.flow.exists_sameLoop hf.flow (h.valid hf).flow hl
      exact ⟨l', fun _ => hl'⟩
    · exact ⟨l, fun hmem => absurd hmem hl⟩
  choose ρ hρ using hexists
  refine ⟨ρ, ⟨fun l hl => (hρ l hl).mem', fun l hl m hm heq => ?_, fun l' hl' => ?_⟩,
    fun l hl => ⟨(hρ l hl).header, fun c hc hnot x hx => ?_, fun x hplain => ?_,
      fun t ht hplain => ?_⟩⟩
  · exact (SameLoop.eq_iff hf.flow (h.valid hf).flow (hρ l hl) (hρ m hm)).mp heq
  · obtain ⟨l, hl⟩ := h.symm.flow.exists_sameLoop (h.valid hf).flow hf.flow hl'
    have hl := hl.symm
    rw [Equiv.symm_symm] at hl
    exact ⟨l, hl.mem, (SameLoop.eq_iff hf.flow (h.valid hf).flow (hρ l hl.mem) hl).mpr rfl⟩
  · exact lookup_eq_none_of_not_takenInOrder hf hl hc hnot hx
  · exact alike_of_carries (h.carries_lookup hf (hρ l hl) hplain)
      (h.carries_lookup_symm hf (hρ l hl) hplain)
  · have ht' : g.terminator? (g.flow.loopForest.get (ρ l)).header = some (σ t) := by
      rw [(hρ l hl).header, h.terminator?, ht]
      rfl
    rw [tripCount?_eq_stored? ht, tripCount?_eq_stored? ht']
    exact alike_of_carries (h.carries_stored? hf (hρ l hl) hplain)
      (h.carries_stored?_symm hf (hρ l hl) hplain)

end Func.Reordered

/-- A loop that goes up by one on both sides of a branch. -/
def settled : Func :=
  .ofTables "settled" .i32 [⟨0⟩, ⟨1⟩]
    #[
      { label := "entry", succs := [⟨1⟩], terminator := some ⟨4⟩ },
      { label := "header", preds := [⟨0⟩, ⟨5⟩], succs := [⟨2⟩, ⟨6⟩], phis := [⟨5⟩], body := [⟨6⟩],
        terminator := some ⟨7⟩ },
      { label := "choice", preds := [⟨1⟩], succs := [⟨3⟩, ⟨4⟩], terminator := some ⟨8⟩ },
      { label := "left", preds := [⟨2⟩], succs := [⟨5⟩], body := [⟨9⟩], terminator := some ⟨10⟩ },
      { label := "right", preds := [⟨2⟩], succs := [⟨5⟩], body := [⟨11⟩], terminator := some ⟨12⟩ },
      { label := "join", preds := [⟨3⟩, ⟨4⟩], succs := [⟨1⟩], phis := [⟨13⟩],
        terminator := some ⟨14⟩ },
      { label := "exit", preds := [⟨1⟩], terminator := some ⟨15⟩ }]
    #[
      ⟨"n", ⟨0⟩, .param 0⟩,
      ⟨"c", ⟨0⟩, .param 1⟩,
      ⟨"c0", ⟨0⟩, .constant 0⟩,
      ⟨"c1", ⟨0⟩, .constant 1⟩,
      ⟨"t1", ⟨0⟩, .jump ⟨1⟩⟩,
      ⟨"p", ⟨1⟩, .phi [(⟨2⟩, ⟨0⟩), (⟨13⟩, ⟨5⟩)]⟩,
      ⟨"test", ⟨1⟩, .compare .lt ⟨5⟩ ⟨0⟩⟩,
      ⟨"t2", ⟨1⟩, .branch ⟨6⟩ ⟨2⟩ ⟨6⟩⟩,
      ⟨"t3", ⟨2⟩, .branch ⟨1⟩ ⟨3⟩ ⟨4⟩⟩,
      ⟨"a", ⟨3⟩, .arith .add ⟨5⟩ ⟨3⟩⟩,
      ⟨"t4", ⟨3⟩, .jump ⟨5⟩⟩,
      ⟨"b", ⟨4⟩, .arith .add ⟨5⟩ ⟨3⟩⟩,
      ⟨"t5", ⟨4⟩, .jump ⟨5⟩⟩,
      ⟨"q", ⟨5⟩, .phi [(⟨9⟩, ⟨3⟩), (⟨11⟩, ⟨4⟩)]⟩,
      ⟨"t6", ⟨5⟩, .jump ⟨1⟩⟩,
      ⟨"t7", ⟨6⟩, .ret (some ⟨5⟩)⟩]
    7

theorem settled_valid : settled.Valid := Func.valid_of_check (by decide +kernel)

/-- The function with its blocks `left` and `right` changed round. -/
def settledTurned : Func := settled.reorder (Equiv.swap ⟨3⟩ ⟨4⟩)

theorem settledTurned_reordered :
    settled.Reordered settledTurned (Equiv.refl _) (Equiv.swap ⟨3⟩ ⟨4⟩) :=
  Func.reordered_swap (by decide) (by decide)

/-- The function with its blocks `header` and `join` changed round. -/
def settledLate : Func := settled.reorder (Equiv.swap ⟨1⟩ ⟨5⟩)

theorem settledLate_reordered :
    settled.Reordered settledLate (Equiv.refl _) (Equiv.swap ⟨1⟩ ⟨5⟩) :=
  Func.reordered_swap (by decide) (by decide)

/-- Each cycle of the loop is plain and is taken in order with the sides of the branch either way
round, so all values and the trip count stay. -/
theorem settledTurned_lookup_eq : settled.Valid ∧
    settled.Reordered settledTurned (Equiv.refl _) (Equiv.swap ⟨3⟩ ⟨4⟩) ∧
    (∀ x, (Analysis.ofFunc settledTurned).lookup settledTurned ⟨0⟩ x =
      ((Analysis.ofFunc settled).lookup settled ⟨0⟩ x).map (.rename id)) ∧
    (Analysis.ofFunc settledTurned).tripCount? settledTurned ⟨0⟩ =
      ((Analysis.ofFunc settled).tripCount? settled ⟨0⟩).map (.rename id) := by
  obtain ⟨ρ, hρ, hall⟩ := Func.Reordered.lookup_alike settled_valid settledTurned_reordered
  have hl : ⟨0⟩ ∈ settled.flow.loopForest.ids := by decide +kernel
  have hone : ρ ⟨0⟩ = ⟨0⟩ := by
    have hids : settledTurned.flow.loopForest.ids = [⟨0⟩] := by decide +kernel
    exact List.mem_singleton.mp (hids ▸ hρ.mapsTo hl)
  obtain ⟨-, -, hlookup, htrip⟩ := hall ⟨0⟩ hl
  rw [hone] at hlookup htrip
  let v : LoopView := ⟨settled, settled.flow.loopForest, ⟨0⟩⟩
  let v' : LoopView := ⟨settledTurned, settledTurned.flow.loopForest, ⟨0⟩⟩
  have hplain : ∀ c ∈ v.components, v.Plain c := by decide +kernel
  have horder : ∀ c ∈ v.components, v.TakenInOrder c := by decide +kernel
  have horder' : ∀ c ∈ v'.components, v'.TakenInOrder c := by decide +kernel
  refine ⟨settled_valid, settledTurned_reordered, fun x => ?_, ?_⟩
  · exact (hlookup x fun c hc _ => hplain c hc).eq (LoopView.not_disordered horder)
      (LoopView.not_disordered horder')
  · exact (htrip ⟨7⟩ (by decide +kernel) fun c hc _ => hplain c hc).eq
      (LoopView.not_disordered horder) (LoopView.not_disordered horder')

/-- But if the search begins at the join, the join is taken before the sums that it joins, and
neither the values of the cycle nor the trip count are found. -/
theorem settledLate_lookup_ne : settled.Valid ∧
    settled.Reordered settledLate (Equiv.refl _) (Equiv.swap ⟨1⟩ ⟨5⟩) ∧
    settled.flow.loopForest.ids = [⟨0⟩] ∧ settledLate.flow.loopForest.ids = [⟨0⟩] ∧
    (Analysis.ofFunc settled).lookup settled ⟨0⟩ ⟨5⟩ = some (.linear (.constant 1) (.constant 0)) ∧
    (Analysis.ofFunc settledLate).lookup settledLate ⟨0⟩ ⟨5⟩ = none ∧
    ((Analysis.ofFunc settled).tripCount? settled ⟨0⟩).isSome = true ∧
    (Analysis.ofFunc settledLate).tripCount? settledLate ⟨0⟩ = none := by
  refine ⟨settled_valid, settledLate_reordered, ?_⟩
  decide +kernel

/-- The function with its blocks `join` and `header` changed round. -/
def turningLate : Func := turning.reorder (Equiv.swap ⟨1⟩ ⟨2⟩)

/-- Where two phis of the header swap their values by way of a third phi, it matters at which of
them the cycle is entered, although it is taken in order both times. -/
theorem turningLate_lookup_ne : turning.Valid ∧
    turning.Reordered turningLate (Equiv.refl _) (Equiv.swap ⟨1⟩ ⟨2⟩) ∧
    (∀ c ∈ (LoopView.mk turning turning.flow.loopForest ⟨0⟩).components,
      (LoopView.mk turning turning.flow.loopForest ⟨0⟩).TakenInOrder c) ∧
    (∀ c ∈ (LoopView.mk turningLate turningLate.flow.loopForest ⟨0⟩).components,
      (LoopView.mk turningLate turningLate.flow.loopForest ⟨0⟩).TakenInOrder c) ∧
    (Analysis.ofFunc turning).lookup turning ⟨0⟩ ⟨6⟩ =
      some (.periodic (.constant 2) (.constant 1)) ∧
    (Analysis.ofFunc turningLate).lookup turningLate ⟨0⟩ ⟨6⟩ = none := by
  refine ⟨turning_valid, Func.reordered_swap (by decide) (by decide), ?_⟩
  decide +kernel

end LoopBounds
