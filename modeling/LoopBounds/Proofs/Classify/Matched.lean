import LoopBounds.Proofs.Classify.ComponentOrder
import LoopBounds.Proofs.Classify.Renamed
import LoopBounds.Proofs.Classify.Ring

/-!
# The same component in a reordered function

A component of a loop is, in a reordered function, a component with the same members, which the
search may have written down in another order. As far as what it depends on is known alike, its
members get the same descriptors, or none in case their cycle is not taken in order. This does not
hold of all cycles: where phis of the header and other members mix and a sequence goes round, the
places of the members depend on the order. So the cycle must have only one phi at which it is
entered, or have nothing but such phis.
-/

namespace LoopBounds

theorem Descriptor.members_rename (σ : InstrId → InstrId) (d : Descriptor) :
    (d.rename σ).members = d.members.map (rename σ) := by
  induction d with
  | periodic a b _ ihb => rw [rename, members, members, ihb, List.map_cons]
  | _ => rfl

namespace LoopView

variable {v : LoopView} {known cycle result : Classes} {c others : List InstrId}
variable {components : List (List InstrId)} {x y p : InstrId} {d initial : Descriptor}

section Growth

/-- Descriptors of members of `c` have been added. -/
def Adds (c : List InstrId) (known result : Classes) : Prop :=
  ∃ new : Classes, result = new ++ known ∧ ∀ t ∈ new, t.1 ∈ c

theorem Adds.refl : Adds c known known := ⟨[], rfl, fun _ ht => absurd ht List.not_mem_nil⟩

theorem Adds.cons (h : Adds c known result) (hx : x ∈ c) : Adds c known ((x, d) :: result) := by
  obtain ⟨new, rfl, hnew⟩ := h
  exact ⟨(x, d) :: new, rfl, List.forall_mem_cons.mpr ⟨hx, hnew⟩⟩

theorem Adds.lookup_eq (h : Adds c known result) (hx : x ∉ c) :
    result.lookup x = known.lookup x := by
  obtain ⟨new, rfl, hnew⟩ := h
  have hnone : new.lookup x = none :=
    List.lookup_eq_none_iff.mpr fun t ht => by
      rw [bne_iff_ne]
      exact fun heq => hx (heq ▸ hnew t ht)
  rw [List.lookup_append, hnone, Option.none_or]

theorem Adds.addTrivial (h : Adds c known result) (hx : x ∈ c) :
    Adds c known (v.addTrivial result x) := by
  unfold LoopView.addTrivial
  split
  · exact h.cons hx
  · exact h

theorem Adds.spread {xs : List InstrId} (h : Adds c known result) (hxs : ∀ x ∈ xs, x ∈ c) :
    Adds c known (spread result d xs) := by
  induction xs generalizing result d with
  | nil => exact h
  | cons x xs ih =>
    obtain ⟨hx, hxs⟩ := List.forall_mem_cons.mp hxs
    exact ih (h.cons hx) hxs

theorem adds_classifyRound (hmem : ∀ x ∈ p :: others, x ∈ c) :
    Adds c known (v.classifyRound known p others initial) := by
  obtain ⟨hp, hothers⟩ := List.forall_mem_cons.mp hmem
  unfold classifyRound
  dsimp only
  split
  · exact .refl
  · split_ifs
    · exact List.foldlRecOn others _ (Adds.refl.cons hp)
        fun _ h x hx => h.addTrivial (hothers x hx)
    · exact Adds.refl.spread fun x hx => hmem x (by simpa [or_comm] using hx)
    · exact .refl

theorem adds_classifyCycle (hmem : ∀ x ∈ p :: others, x ∈ c) :
    Adds c known (v.classifyCycle known p others) := by
  unfold classifyCycle
  split
  · exact .refl
  split
  · unfold classifyAlone
    split
    · exact Adds.refl.cons (hmem p List.mem_cons_self)
    · exact .refl
  · exact adds_classifyRound hmem

theorem adds_classifyComponent : Adds c known (v.classifyComponent known c) := by
  unfold classifyComponent
  split
  · exact Adds.refl.addTrivial (List.mem_singleton_self _)
  · exact .refl
  · split
    · exact .refl
    · exact adds_classifyCycle fun x hx =>
        (v.fromEntry_perm _).mem_iff.mp (‹v.fromEntry _ = _› ▸ hx)

theorem lookup_foldl_classifyComponent (hx : x ∉ components.flatten) :
    (components.foldl v.classifyComponent known).lookup x = known.lookup x := by
  induction components generalizing known with
  | nil => rfl
  | cons c components ih =>
    rw [List.flatten_cons, List.mem_append, not_or] at hx
    rw [List.foldl_cons, ih hx.2, adds_classifyComponent.lookup_eq hx.1]

theorem lookup_classes_of_not_mem (hx : x ∉ v.components.flatten) : v.classes.lookup x = none :=
  lookup_foldl_classifyComponent hx

end Growth

variable (v)

/-- The members of the cycle are gone through so that each comes after those that it depends on,
but for the phi at which the cycle is entered. -/
def TakenInOrder (c : List InstrId) : Prop :=
  c.any v.isEntryPhi = true → v.InOrder (v.fromEntry c).tail

/-- The cycle has one phi at which it is entered, or has nothing but such phis. -/
def Plain (c : List InstrId) : Prop :=
  (∀ x ∈ c, ∀ y ∈ c, v.isEntryPhi x = true → v.isEntryPhi y = true → x = y) ∨
    ∀ x ∈ c, v.isEntryPhi x = true

instance : Decidable (v.TakenInOrder c) := inferInstanceAs (Decidable (_ → _))

instance : Decidable (v.Plain c) := inferInstanceAs (Decidable (_ ∨ _))

theorem exists_entry {v : LoopView} (known : Classes) {c : List InstrId}
    (hany : c.any v.isEntryPhi = true) : ∃ p others, (p :: others).Perm c ∧
      v.isEntryPhi p = true ∧ v.classifyComponent known c = v.classifyCycle known p others ∧
      (v.TakenInOrder c ↔ v.InOrder others) := by
  cases hfrom : v.fromEntry c with
  | nil =>
    have hperm := v.fromEntry_perm c
    rw [hfrom] at hperm
    rw [hperm.nil_eq.symm] at hany
    cases hany
  | cons p others =>
    refine ⟨p, others, hfrom ▸ v.fromEntry_perm c, Setting.isEntryPhi_of_fromEntry hany hfrom,
      ?_, ?_⟩
    · simp only [LoopView.classifyComponent, hany, hfrom]
    · rw [LoopView.TakenInOrder, hfrom, List.tail_cons]
      exact ⟨fun htaken => htaken hany, fun horder _ => horder⟩

end LoopView

/-- Two components that have the same members in two views, and what is known before them. What
is known in one view is known in the other, or there is an excuse. -/
structure Matched {R : Type} [Arithmetic R] (S S' : Setting R) (σ : Equiv.Perm InstrId)
    (β : Equiv.Perm BlockId) (excuse : Prop) (known known' : Classes) (c c' : List InstrId) :
    Prop where
  renamed : S.view.Renamed S'.view σ β
  mem : ∀ x, σ x ∈ c' ↔ x ∈ c
  fresh : S.view.Fresh known c
  fresh' : S'.view.Fresh known' c'
  inner : ∀ x ∈ c, S.Inner x
  inner' : ∀ x ∈ c', S'.Inner x
  formed : LoopView.AllFormed (fun _ => True) known
  formed' : LoopView.AllFormed (fun _ => True) known'
  before : ∀ z ∈ c, ∀ y ∈ S.view.inputs z, y ∉ c →
    Carries excuse (.rename σ) (S.view.lookup known y) (S'.view.lookup known' (σ y))

namespace Setting

variable {R : Type} [Arithmetic R] {S : Setting R} {known cycle : Classes}
variable {c others : List InstrId} {p x : InstrId} {d : Descriptor}

/-- What comes back to the phi is found only if the other members are taken in order. -/
theorem inOrder_of_fresh (hinner : ∀ x ∈ c, S.Inner x) (hfresh : S.view.Fresh known c)
    (hperm : (p :: others).Perm c) (h : S.view.meanings known p [] others = some cycle) :
    S.view.InOrder others := by
  obtain ⟨-, hmem⟩ := mem_of_perm_cons hperm
  exact inOrder_of_meanings (fun z hz => hinner z (hmem z hz)) (hperm.nodup_iff.mpr hfresh.nodup)
    (fun z hz => hfresh.lookup_eq_none (hmem z hz)) (fun _ ht => absurd ht List.not_mem_nil) h

/-- Several members of a cycle have descriptors only if all of them have meanings. -/
theorem meanings_of_classifyCycle (hfresh : S.view.Fresh known c) (hx : x ∈ c) (hne : others ≠ [])
    (h : (S.view.classifyCycle known p others).lookup x = some d) :
    ∃ cycle, S.view.meanings known p [] others = some cycle := by
  have hnone : known.lookup x ≠ some d := by
    rw [hfresh.unknown x hx]
    exact nofun
  unfold LoopView.classifyCycle at h
  split at h
  · exact absurd h hnone
  · split at h
    · exact absurd rfl hne
    · unfold LoopView.classifyRound at h
      cases hm : S.view.meanings known p [] others with
      | none =>
        rw [hm, Option.bind_none] at h
        exact absurd h hnone
      | some cycle => exact ⟨cycle, rfl⟩

/-- The members of a cycle have descriptors only if it is taken in order. -/
theorem inOrder_of_classifyCycle (hinner : ∀ x ∈ c, S.Inner x) (hfresh : S.view.Fresh known c)
    (hperm : (p :: others).Perm c) (hx : x ∈ c)
    (h : (S.view.classifyCycle known p others).lookup x = some d) : S.view.InOrder others := by
  by_cases hne : others = []
  · rw [hne]
    exact ⟨fun _ hz => absurd hz List.not_mem_nil, .nil⟩
  · obtain ⟨cycle, hm⟩ := meanings_of_classifyCycle hfresh hx hne h
    exact inOrder_of_fresh hinner hfresh hperm hm

end Setting

namespace Matched

variable {R : Type} [Arithmetic R] {S S' : Setting R} {σ : Equiv.Perm InstrId}
variable {β : Equiv.Perm BlockId} {excuse : Prop} {known known' : Classes} {c c' : List InstrId}
variable (h : Matched S S' σ β excuse known known' c c')
variable {x y z p : InstrId} {others others' : List InstrId} {d initial : Descriptor}

include h

theorem perm : c'.Perm (c.map σ) := by
  refine (List.perm_ext_iff_of_nodup h.fresh'.nodup (h.fresh.nodup.map σ.injective)).mpr fun y => ?_
  rw [← σ.apply_symm_apply y, h.mem, List.mem_map_of_injective σ.injective]

theorem length_eq : c'.length = c.length := by
  rw [h.perm.length_eq, List.length_map]

theorem lookup_eq_none (hx : x ∈ c) :
    S.view.lookup known x = none ∧ S'.view.lookup known' (σ x) = none :=
  ⟨h.fresh.lookup_eq_none hx, h.fresh'.lookup_eq_none ((h.mem x).mpr hx)⟩

/-- The members themselves are not known yet. -/
theorem carries_inputs (hz : z ∈ c) : ∀ y ∈ S.view.inputs z,
    Carries excuse (.rename σ) (S.view.lookup known y) (S'.view.lookup known' (σ y)) := by
  intro y hy
  by_cases hyc : y ∈ c
  · exact .of_eq_none (h.lookup_eq_none hyc).1
  · exact h.before z hz y hy hyc

theorem carries_opening? (hx : x ∈ c) :
    Carries excuse (.rename σ) (S.view.opening? known x) (S'.view.opening? known' (σ x)) :=
  (h.renamed.carries_start? (h.carries_inputs hx)).filter fun d => d.isInvariant_rename

section OneEntry

variable (hperm : (p :: others).Perm c) (hperm' : (σ p :: others').Perm c')
variable (hentry : S.view.isEntryPhi p = true)
variable (hothers : ∀ z ∈ others, S.view.isEntryPhi z = false)

omit hentry hothers in
include hperm hperm' in
theorem perm_others : others'.Perm (others.map σ) := by
  have := hperm'.trans (h.perm.trans (hperm.map σ).symm)
  rwa [List.map_cons, List.perm_cons] at this

omit hentry hothers in
include hperm hperm' in
theorem mem_others : σ z ∈ others' ↔ z ∈ others := by
  rw [(h.perm_others hperm hperm').mem_iff, List.mem_map_of_injective σ.injective]

include hperm hentry hothers

theorem home_ne_header (hz : z ∈ others) (hphi : (S.func.instr z).isPhi = true) :
    S.func.home z ≠ S.loop.header := by
  intro hhome
  have hp := h.inner p ((mem_of_perm_cons hperm).1)
  obtain ⟨-, -, sources, hsources, hheader, -⟩ := Setting.isEntryPhi_before hp hentry
  cases hi : S.func.instr z with
  | phi sources' =>
    have hcongr := (Setting.isEntryPhi_congr hp hsources hheader
      (h.inner z ((mem_of_perm_cons hperm).2 _ hz)) hi hhome).1
    have := hcongr.mp hentry
    rw [hothers z hz] at this
    cases this
  | _ =>
    rw [hi] at hphi
    cases hphi

theorem meanings_of_inOrder {cycle cycle' : Classes} {todo : List InstrId}
    (hkeys : ∀ y ∉ others, cycle.lookup y = none)
    (hmeaning : ∀ z ∈ others, ∃ d, cycle.lookup z = some d ∧
      S.view.meaning known cycle p z = some d)
    (horder : S'.view.InOrder todo) (htodo : ∀ y ∈ todo, ∃ z ∈ others, σ z = y)
    (hdone : ∀ z ∈ others, σ z ∉ todo →
      cycle'.lookup (σ z) = (cycle.lookup z).map (.rename σ)) :
    (∃ result, S'.view.meanings known' (σ p) cycle' todo = some result ∧
      ∀ z ∈ others, result.lookup (σ z) = (cycle.lookup z).map (.rename σ)) ∨
      excuse ∧ S'.view.meanings known' (σ p) cycle' todo = none := by
  induction todo generalizing cycle' with
  | nil => exact .inl ⟨cycle', rfl, fun z hz => hdone z hz List.not_mem_nil⟩
  | cons y todo ih =>
    obtain ⟨⟨z, hz, rfl⟩, htail⟩ := List.forall_mem_cons.mp htodo
    obtain ⟨hfirst, horder⟩ := LoopView.inOrder_cons.mp horder
    obtain ⟨d, hd, hmd⟩ := hmeaning z hz
    have hinputs : ∀ w ∈ S.view.inputs z,
        Carries excuse (.rename σ) (cycle.lookup w) (cycle'.lookup (σ w)) := by
      intro w hw
      by_cases hwo : w ∈ others
      · have hmember := (h.inner w ((mem_of_perm_cons hperm).2 _ hwo)).member
        have hdep := h.renamed.mem_deps_iff.mpr (LoopView.mem_deps_of_mem_inputs hmember hw)
        exact .of_eq_map (hdone w hwo fun hmem => hfirst _ hmem hdep)
      · exact .of_eq_none (hkeys w hwo)
    have hcarries := h.renamed.carries_meaning (h.carries_inputs ((mem_of_perm_cons hperm).2 _ hz))
      (h.carries_inputs ((mem_of_perm_cons hperm).1)) hinputs (fun w hw => ?_)
      (h.home_ne_header hperm hentry hothers hz) d hmd
    · rcases hcarries with hsome | ⟨he, hnone⟩
      · have hstep : S'.view.meanings known' (σ p) cycle' (σ z :: todo) =
            S'.view.meanings known' (σ p) ((σ z, d.rename σ) :: cycle') todo := by
          rw [LoopView.meanings, hsome]
          rfl
        rw [hstep]
        refine ih horder htail fun w hw hnot => ?_
        by_cases hwz : w = z
        · rw [hwz, List.lookup_cons_self, hd]
          rfl
        · rw [LoopView.lookup_cons_of_ne (σ.injective.ne hwz)]
          refine hdone w hw fun hmem => ?_
          exact (List.mem_cons.mp hmem).elim (fun heq => hwz (σ.injective heq)) hnot
      · refine .inr ⟨he, ?_⟩
        rw [LoopView.meanings, hnone]
        rfl
    · rcases hw with rfl | hsome
      · exact h.lookup_eq_none ((mem_of_perm_cons hperm).1)
      · by_cases hwo : w ∈ others
        · exact h.lookup_eq_none ((mem_of_perm_cons hperm).2 _ hwo)
        · rw [hkeys w hwo] at hsome
          cases hsome

include hperm'

theorem carries_back : Carries (excuse ∨ ¬ S'.view.InOrder others') (.rename σ)
    ((S.view.meanings known p [] others).bind fun cycle =>
      S.view.common (fun y => cycle.lookup y) p 1)
    ((S'.view.meanings known' (σ p) [] others').bind fun cycle =>
      S'.view.common (fun y => cycle.lookup y) (σ p) 1) := by
  intro d hd
  obtain ⟨cycle, hcycle, hd⟩ := Option.bind_eq_some_iff.mp hd
  have horder := Setting.inOrder_of_fresh h.inner h.fresh hperm hcycle
  have hnodup := (h.fresh.nodup_cons hperm).2
  obtain ⟨hkeys, hmeaning⟩ := LoopView.lookup_meanings horder hnodup
    (fun z hz => h.fresh.member z ((mem_of_perm_cons hperm).2 _ hz)) hcycle
  by_cases horder' : S'.view.InOrder others'
  · have hsame (z : InstrId) : σ z ∈ others' ↔ z ∈ others := h.mem_others hperm hperm'
    have htodo : ∀ y ∈ others', ∃ z ∈ others, σ z = y := fun y hy =>
      ⟨σ.symm y, (hsame _).mp (by rwa [σ.apply_symm_apply]), σ.apply_symm_apply y⟩
    have hdone : ∀ z ∈ others, σ z ∉ others' →
        List.lookup (σ z) ([] : Classes) = (cycle.lookup z).map (.rename σ) :=
      fun z hz hnot => absurd ((hsame z).mpr hz) hnot
    rcases h.meanings_of_inOrder hperm hentry hothers hkeys hmeaning horder' htodo hdone with
      ⟨result, hresult, hlookup⟩ | ⟨he, hnone⟩
    · rw [hresult, Option.bind_some]
      refine ((h.renamed.carries_common fun y _ => ?_) 1).mono .inl d hd
      by_cases hy : y ∈ others
      · exact .of_eq_map (hlookup y hy)
      · exact .of_eq_none (hkeys y hy)
    · rw [hnone]
      exact .inr ⟨.inl he, rfl⟩
  · have hnone : S'.view.meanings known' (σ p) [] others' = none := by
      rw [Option.eq_none_iff_forall_ne_some]
      exact fun result hresult =>
        horder' (Setting.inOrder_of_fresh h.inner' h.fresh' hperm' hresult)
    rw [hnone]
    exact .inr ⟨.inr horder', rfl⟩

omit hentry hothers in
theorem carries_linear (horder : S.view.InOrder others) (horder' : S'.view.InOrder others')
    (hx : x ∈ c) : Carries excuse (.rename σ)
      ((others.foldl S.view.addTrivial ((p, d) :: known)).lookup x)
      ((others'.foldl S'.view.addTrivial ((σ p, d.rename σ) :: known')).lookup (σ x)) := by
  obtain ⟨-, hmem⟩ := mem_of_perm_cons hperm
  generalize hall : others.foldl S.view.addTrivial ((p, d) :: known) = all
  generalize hall' : others'.foldl S'.view.addTrivial ((σ p, d.rename σ) :: known') = all'
  obtain ⟨hp, hall, hbefore⟩ := h.fresh.lookup_linear hperm horder hall
  obtain ⟨hp', hall', hbefore'⟩ := h.fresh'.lookup_linear hperm' horder' hall'
  have hphi : Carries excuse (.rename σ) (all.lookup p) (all'.lookup (σ p)) := by
    rw [hp, hp']
    exact .some d
  have hrest : ∀ z ∈ others, Carries excuse (.rename σ) (all.lookup z) (all'.lookup (σ z)) := by
    refine horder.induction fun z hz ih => ?_
    rw [hall z hz, hall' (σ z) ((h.mem_others hperm hperm').mpr hz)]
    refine h.renamed.carries_classifyTrivial fun y hy => ?_
    by_cases hyc : y ∈ c
    · refine h.renamed.carries_lookup (fun hout => ?_) ?_
      · rw [LoopView.isOutside_of_isMember (h.fresh.member y hyc)] at hout
        cases hout
      · rcases List.mem_cons.mp (hperm.mem_iff.mpr hyc) with rfl | hyo
        · exact hphi
        · exact ih y hyo (LoopView.mem_deps_of_mem_inputs (h.fresh.member y hyc) hy)
    · rw [hbefore y hyc, hbefore' (σ y) fun hmem' => hyc ((h.mem y).mp hmem')]
      exact h.before z (hmem z hz) y hy hyc
  rcases List.mem_cons.mp (hperm.mem_iff.mpr hx) with rfl | hx
  · exact hphi
  · exact hrest x hx

/-- A sequence goes round one other member only, so there is only one order. -/
theorem carries_periodic {cycle : Classes} (hstart : S.view.opening? known p = some initial)
    (horder : S.view.InOrder others) (hcycle : S.view.meanings known p [] others = some cycle)
    (hback : S.view.common (fun y => cycle.lookup y) p 1 = some d) (hd : d.isPeriodic = true)
    (hx : x ∈ c) : Carries excuse (.rename σ)
      ((LoopView.spread known d (others.reverse ++ [p])).lookup x)
      ((LoopView.spread known' (d.rename σ) (others'.reverse ++ [σ p])).lookup (σ x)) := by
  obtain ⟨hp, hmem⟩ := mem_of_perm_cons hperm
  obtain ⟨hstart, hinv⟩ := Option.filter_eq_some_iff.mp hstart
  have hinitial := (h.formed.start (fun _ _ _ _ => trivial) hstart).term hinv
  have hformed := h.formed.meanings hstart hinitial (fun _ ht => absurd ht List.not_mem_nil)
    (fun _ _ _ _ _ _ => trivial) hcycle
  have hfresh : S.view.Fresh known (p :: others) := h.fresh.of_perm hperm
  obtain ⟨w, rfl⟩ := Setting.exists_eq_singleton h.formed hformed (h.inner p hp) hentry hfresh
    (fun z hz => h.inner z (hmem z hz)) hothers horder hcycle hback hd
  obtain rfl : others' = [σ w] := List.perm_singleton.mp (h.perm_others hperm hperm')
  have hwp : w ≠ p := fun heq => (List.nodup_cons.mp hfresh.nodup).1 (heq ▸ List.mem_cons_self)
  refine .of_eq_map ?_
  simp only [List.reverse_singleton, List.singleton_append, LoopView.spread]
  rcases List.mem_cons.mp (hperm.mem_iff.mpr hx) with rfl | hx
  · rw [List.lookup_cons_self, List.lookup_cons_self, Option.map_some, Descriptor.rename_rotate]
  · obtain rfl := List.mem_singleton.mp hx
    rw [LoopView.lookup_cons_of_ne hwp, LoopView.lookup_cons_of_ne (σ.injective.ne hwp),
      List.lookup_cons_self, List.lookup_cons_self, Option.map_some]

theorem carries_classifyRound (hstart : S.view.opening? known p = some initial) (hx : x ∈ c) :
    Carries (excuse ∨ ¬ S'.view.InOrder others') (.rename σ)
      ((S.view.classifyRound known p others initial).lookup x)
      ((S'.view.classifyRound known' (σ p) others' (initial.rename σ)).lookup (σ x)) := by
  have hnone := h.fresh.unknown x hx
  have hnone' := h.fresh'.unknown (σ x) ((h.mem x).mpr hx)
  have hback := h.carries_back hperm hperm' hentry hothers
  unfold LoopView.classifyRound
  cases hb : (S.view.meanings known p [] others).bind fun cycle =>
      S.view.common (fun y => cycle.lookup y) p 1 with
  | none => exact .of_eq_none hnone
  | some b =>
    rcases hback b hb with hsome | ⟨he, hnone⟩
    · obtain ⟨cycle, hcycle, hcommon⟩ := Option.bind_eq_some_iff.mp hb
      obtain ⟨cycle', hcycle', -⟩ := Option.bind_eq_some_iff.mp hsome
      have horder := Setting.inOrder_of_fresh h.inner h.fresh hperm hcycle
      have horder' := Setting.inOrder_of_fresh h.inner' h.fresh' hperm' hcycle'
      rw [hsome]
      dsimp only
      rw [Descriptor.isInvariant_rename, Descriptor.isPeriodic_rename]
      split_ifs with hinv hperiodic
      · exact (h.carries_linear hperm hperm' horder horder' hx).mono .inl
      · exact (h.carries_periodic hperm hperm' hentry hothers hstart horder hcycle hcommon
          hperiodic hx).mono .inl
      · exact .of_eq_none hnone
    · rw [hnone]
      exact fun d hd => .inr ⟨he, hnone'⟩

omit hentry hothers in
theorem carries_classifyAlone (hx : x ∈ c) (hnil : others = []) : Carries excuse (.rename σ)
    ((S.view.classifyAlone known p initial).lookup x)
    ((S'.view.classifyAlone known' (σ p) (initial.rename σ)).lookup (σ x)) := by
  obtain rfl : x = p := by
    rw [← hperm.mem_iff, hnil] at hx
    exact List.mem_singleton.mp hx
  have hcommon := h.renamed.carries_common (h.carries_inputs hx) 1
  have hnone := h.fresh.unknown x hx
  have hnone' := h.fresh'.unknown (σ x) ((h.mem x).mpr hx)
  unfold LoopView.classifyAlone
  cases hd : S.view.common (S.view.lookup known) x 1 with
  | none => exact .of_eq_none hnone
  | some update =>
    rcases hcommon update hd with hsome | ⟨he, hn⟩
    · rw [hsome]
      refine .of_eq_map ?_
      rw [List.lookup_cons_self, List.lookup_cons_self]
      rfl
    · rw [hn]
      exact fun _ _ => .inr ⟨he, hnone'⟩

theorem carries_classifyCycle (hx : x ∈ c) : Carries (excuse ∨ ¬ S'.view.InOrder others')
    (.rename σ) ((S.view.classifyCycle known p others).lookup x)
    ((S'.view.classifyCycle known' (σ p) others').lookup (σ x)) := by
  have hstart := h.carries_opening? (mem_of_perm_cons hperm).1
  have hnone := h.fresh.unknown x hx
  have hnone' := h.fresh'.unknown (σ x) ((h.mem x).mpr hx)
  unfold LoopView.opening? at hstart
  unfold LoopView.classifyCycle
  cases hp : (S.view.start? known p).filter Descriptor.isInvariant with
  | none => exact .of_eq_none hnone
  | some initial =>
    rcases hstart initial hp with hsome | ⟨he, hn⟩
    · rw [hsome]
      have hlength : others'.length = others.length := by
        have := hperm'.length_eq.trans (h.length_eq.trans hperm.length_eq.symm)
        simpa using this
      match hnil : others, hnil' : others' with
      | [], [] => exact (h.carries_classifyAlone hperm hperm' hx rfl).mono .inl
      | y :: rest, y' :: rest' =>
        exact h.carries_classifyRound hperm hperm' hentry hothers hp hx
      | [], _ :: _ | _ :: _, [] => cases hlength
    · rw [hn]
      exact fun _ _ => .inr ⟨.inl he, hnone'⟩

end OneEntry

section Ring

theorem carried_eq (x : InstrId) : S'.view.carried (σ x) = σ (S.view.carried x) := by
  rw [LoopView.carried, h.renamed.inputs, List.getElem?_map, LoopView.carried]
  cases (S.view.inputs x)[1]? <;> rfl

theorem ring (hc : S.view.Ring c) : S'.view.Ring c' := by
  have hforall {P : InstrId → Prop} (hP : ∀ x ∈ c, P (σ x)) : ∀ y ∈ c', P y := by
    refine σ.surjective.forall.mpr fun x hx => hP x ((h.mem x).mp hx)
  refine ⟨h.length_eq ▸ hc.several, hforall fun x hx => ?_, hforall fun x hx => ?_,
    hforall fun x hx => ?_⟩
  · obtain ⟨outside, hin, hout⟩ := hc.inputs x hx
    refine ⟨σ outside, ?_, h.renamed.isOutside.trans hout⟩
    rw [h.renamed.inputs, hin, h.carried_eq]
    rfl
  · exact h.renamed.home_eq_header_iff.mpr (hc.home x hx)
  · rw [h.renamed.func.instr, Instr.isPhi_rename]
    exact hc.phi x hx

theorem openings_eq (hc : S.view.Ring c) (hall : ∀ y ∈ c, (S.view.opening? known y).isSome)
    (hall' : ∀ y ∈ c', (S'.view.opening? known' y).isSome) (hx : x ∈ c) :
    (List.iterate S'.view.carried (σ x) c'.length).map (S'.view.opening? known') =
      ((List.iterate S.view.carried x c.length).map (S.view.opening? known)).map
        (Option.map (.rename σ)) := by
  rw [h.length_eq, ← map_iterate h.carried_eq, List.map_map, List.map_map]
  refine List.map_congr_left fun y hy => ?_
  obtain ⟨i, -, rfl⟩ := List.mem_iterate.mp hy
  have hmaps : Set.MapsTo S.view.carried {x | x ∈ c} {x | x ∈ c} :=
    fun z hz => hc.carried_mem h.fresh hz
  have hyc : S.view.carried^[i] x ∈ c := hmaps.iterate i hx
  obtain ⟨first, hfirst⟩ := Option.isSome_iff_exists.mp (hall _ hyc)
  rcases h.carries_opening? hyc first hfirst with hsome | ⟨-, hnone⟩
  · rw [Function.comp_apply, Function.comp_apply, hsome, hfirst]
    rfl
  · have := hall' _ ((h.mem _).mpr hyc)
    rw [hnone] at this
    cases this

theorem carries_ring {p' : InstrId} (hentry : ∀ x ∈ c, S.view.isEntryPhi x = true)
    (hperm : (p :: others).Perm c) (hperm' : (p' :: others').Perm c') (hne : others ≠ [])
    (hx : x ∈ c) : Carries (excuse ∨ ¬ S'.view.InOrder others') (.rename σ)
      ((S.view.classifyCycle known p others).lookup x)
      ((S'.view.classifyCycle known' p' others').lookup (σ x)) := by
  intro d hd
  have horder := Setting.inOrder_of_classifyCycle h.inner h.fresh hperm hx hd
  obtain ⟨cycle, hm⟩ := Setting.meanings_of_classifyCycle h.fresh hx hne hd
  have hring := Setting.ring_of_meanings h.inner hentry hperm hne hm
  have hring' := h.ring hring
  have hx' := (h.mem x).mpr hx
  obtain ⟨hopen, hsequence⟩ := hring.lookup_classifyCycle h.formed h.fresh hperm horder hx
  have hall := hopen (Option.isSome_of_eq_some hd)
  obtain ⟨e, he, hmembers⟩ := hsequence hall
  obtain rfl := Option.some.inj (hd.symm.trans he)
  by_cases horder' : S'.view.InOrder others'
  · obtain ⟨hopen', hsequence'⟩ :=
      hring'.lookup_classifyCycle h.formed' h.fresh' hperm' horder' hx'
    by_cases hall' : ∀ y ∈ c', (S'.view.opening? known' y).isSome
    · obtain ⟨e', he', hmembers'⟩ := hsequence' hall'
      refine .inl (he'.trans (congrArg some (Descriptor.members_injective ?_)))
      -- Both sequences are what the phis on the way from `x` start with.
      refine List.map_injective_iff.mpr (Option.some_injective _) ?_
      have hrename : (d.rename σ).members.map some =
          (d.members.map some).map (Option.map (.rename σ)) := by
        rw [Descriptor.members_rename, List.map_map, List.map_map]
        rfl
      rw [hmembers', hrename, hmembers, h.openings_eq hring hall hall' hx]
    · have hexcuse : excuse := by
        simp only [not_forall] at hall'
        obtain ⟨y, hy, hnot⟩ := hall'
        obtain ⟨y, rfl⟩ := σ.surjective y
        obtain ⟨first, hfirst⟩ := Option.isSome_iff_exists.mp (hall y ((h.mem y).mp hy))
        rcases h.carries_opening? ((h.mem y).mp hy) first hfirst with hsome | ⟨he, -⟩
        · exact absurd (Option.isSome_of_eq_some hsome) hnot
        · exact he
      refine .inr ⟨.inl hexcuse, ?_⟩
      rw [← Option.not_isSome_iff_eq_none]
      exact fun hsome => hall' (hopen' hsome)
  · have hnone : (S'.view.classifyCycle known' p' others').lookup (σ x) = none := by
      rw [Option.eq_none_iff_forall_ne_some]
      exact fun e he =>
        horder' (Setting.inOrder_of_classifyCycle h.inner' h.fresh' hperm' hx' he)
    exact .inr ⟨.inr horder', hnone⟩

end Ring

section Component

theorem any_isEntryPhi : c'.any S'.view.isEntryPhi = c.any S.view.isEntryPhi := by
  rw [h.perm.any_eq, List.any_map]
  exact congrArg c.any (funext fun x => h.renamed.isEntryPhi)

/-- A component without an entry phi has a descriptor only if it is no cycle. -/
theorem carries_addTrivial (hany : c.any S.view.isEntryPhi = false) (hx : x ∈ c) :
    Carries excuse (.rename σ) ((S.view.classifyComponent known c).lookup x)
      ((S'.view.classifyComponent known' c').lookup (σ x)) := by
  have hany' := h.any_isEntryPhi.trans hany
  have hnone := h.fresh.unknown x hx
  have hnone' := h.fresh'.unknown (σ x) ((h.mem x).mpr hx)
  match hc : c, hx with
  | [y], hx =>
    obtain rfl := List.mem_singleton.mp hx
    obtain rfl : c' = [σ x] := List.perm_singleton.mp h.perm
    simp only [LoopView.classifyComponent, hany, hany']
    rw [LoopView.lookup_addTrivial_self hnone, LoopView.lookup_addTrivial_self hnone']
    exact h.renamed.carries_classifyTrivial (h.carries_inputs hx)
  | y :: y' :: rest, _ =>
    simp only [LoopView.classifyComponent, hany]
    exact .of_eq_none hnone

/-- The members of a plain component get the same descriptors, as far as what comes before is
known alike and the cycle is taken in order. -/
theorem carries_classifyComponent (hplain : S.view.Plain c) (hx : x ∈ c) :
    Carries (excuse ∨ ¬ S'.view.TakenInOrder c') (.rename σ)
      ((S.view.classifyComponent known c).lookup x)
      ((S'.view.classifyComponent known' c').lookup (σ x)) := by
  cases hany : c.any S.view.isEntryPhi with
  | false => exact (h.carries_addTrivial hany hx).mono .inl
  | true =>
    obtain ⟨p, others, hperm, hp, hclassify, -⟩ := LoopView.exists_entry known hany
    obtain ⟨p', others', hperm', hp', hclassify', htaken⟩ :=
      LoopView.exists_entry known' (h.any_isEntryPhi.trans hany)
    have hexcuse : excuse ∨ ¬ S'.view.InOrder others' → excuse ∨ ¬ S'.view.TakenInOrder c' :=
      Or.imp_right (mt htaken.mp)
    rw [hclassify, hclassify']
    obtain ⟨hpc, hmem⟩ := mem_of_perm_cons hperm
    by_cases hone : ∀ z ∈ others, S.view.isEntryPhi z = false
    · obtain ⟨q, rfl⟩ := σ.surjective p'
      rw [h.renamed.isEntryPhi] at hp'
      obtain rfl : q = p := by
        have hqc := (h.mem q).mp (mem_of_perm_cons hperm').1
        refine (List.mem_cons.mp (hperm.mem_iff.mpr hqc)).resolve_right fun hq => ?_
        rw [hone q hq] at hp'
        cases hp'
      exact (h.carries_classifyCycle hperm hperm' hp hone hx).mono hexcuse
    · simp only [not_forall, Bool.not_eq_false] at hone
      obtain ⟨z, hz, hzentry⟩ := hone
      have hall := hplain.resolve_left fun hunique => by
        obtain rfl := hunique p hpc z (hmem z hz) hp hzentry
        exact (h.fresh.nodup_cons hperm).1 hz
      exact (h.carries_ring hall hperm hperm' (List.ne_nil_of_mem hz) hx).mono hexcuse

end Component

end Matched

end LoopBounds
