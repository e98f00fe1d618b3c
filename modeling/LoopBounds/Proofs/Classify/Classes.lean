import LoopBounds.Classify.TripCount
import LoopBounds.Proofs.Classify.Periodic
import Mathlib.Data.List.TakeWhile

/-!
# All descriptors of a loop are sound

Components are classified one after the other, and each keeps sound what is known. A member
of a cycle that passes on a sequence can be some places ahead of the sequence that it is
given, and what depends on it is as many places ahead. Only a value that depends on values
at several places has none.
-/

namespace LoopBounds

namespace LoopView

variable (v : LoopView)

/-- The place noted for `x`; a value that is not noted is not ahead. -/
def placeIn (places : List (InstrId × Option ℕ)) (x : InstrId) : Option ℕ :=
  (places.lookup x).getD (some 0)

/-- The place that all sequences have on which a member of the component depends. -/
def commonPlace (known : Classes) (places : List (InstrId × Option ℕ))
    (component : List InstrId) : Option ℕ :=
  let sequences := (component.flatMap v.deps).filter fun y =>
    known.any fun t => t.1 = y && !t.2.isInvariant
  match sequences.map (placeIn places) with
  | [] => some 0
  | k :: rest => if rest.all (· = k) then k else none

def placesOf (known : Classes) (places : List (InstrId × Option ℕ))
    (component : List InstrId) : List (InstrId × Option ℕ) :=
  let common := component.map fun x => (x, v.commonPlace known places component)
  match component.any v.isEntryPhi, v.fromEntry component with
  | true, p :: y :: others =>
      match v.round? known p (y :: others) with
      | some (cycle, d) => roundPlaces p (y :: others) cycle d
      | none => common
  | _, _ => common

/-- The places of the members of the components, beside those given. -/
def placesIn : Classes → List (InstrId × Option ℕ) → List (List InstrId) →
    List (InstrId × Option ℕ)
  | _, places, [] => places
  | known, places, c :: components =>
      placesIn (v.classifyComponent known c) (v.placesOf known places c ++ places) components

/-- How many places a value of the loop is ahead of the sequence that it is given. There is
no such place if it depends on values at several places. -/
def ahead (x : InstrId) : Option ℕ := placeIn (v.placesIn [] [] v.components) x

section Keys

variable {v : LoopView} {known : Classes} {y : InstrId} {e : Descriptor}

theorem mem_addTrivial {x : InstrId} (h : (y, e) ∈ v.addTrivial known x) :
    (y, e) ∈ known ∨ y = x := by
  unfold addTrivial at h
  split at h
  · rcases List.mem_cons.mp h with heq | h
    · exact .inr (Prod.mk.inj heq).1
    · exact .inl h
  · exact .inl h

theorem mem_foldl_addTrivial {xs : List InstrId} (h : (y, e) ∈ xs.foldl v.addTrivial known) :
    (y, e) ∈ known ∨ y ∈ xs := by
  induction xs generalizing known with
  | nil => exact .inl h
  | cons x xs ih =>
    rcases ih h with h | h
    · exact (mem_addTrivial h).imp_right fun hy : y = x => List.mem_cons.mpr (.inl hy)
    · exact .inr (List.mem_cons_of_mem _ h)

theorem mem_classifyCycle {p : InstrId} {others : List InstrId}
    (h : (y, e) ∈ v.classifyCycle known p others) : (y, e) ∈ known ∨ y ∈ p :: others := by
  have hcons {d : Descriptor} (h : (y, e) ∈ (p, d) :: known) : (y, e) ∈ known ∨ y ∈ p :: others :=
    (List.mem_cons.mp h).symm.imp_right fun h => by
      rw [(Prod.mk.inj h).1]
      exact List.mem_cons_self
  unfold classifyCycle at h
  split at h
  · exact .inl h
  split at h
  · unfold classifyAlone at h
    split at h
    · exact hcons h
    · exact .inl h
  unfold classifyRound at h
  dsimp only at h
  split at h
  · exact .inl h
  split_ifs at h
  · rcases mem_foldl_addTrivial h with h | h
    · exact hcons h
    · exact .inr (List.mem_cons_of_mem _ h)
  · rcases mem_spread h with h | ⟨i, hi, -⟩
    · exact .inl h
    · have := List.mem_of_getElem? hi
      simp only [List.mem_append, List.mem_reverse, List.mem_singleton] at this
      exact .inr (List.mem_cons.mpr this.symm)
  · exact .inl h

theorem fromEntry_perm (v : LoopView) (component : List InstrId) :
    (v.fromEntry component).Perm component := by
  unfold fromEntry
  apply List.perm_append_comm.trans
  rw [List.takeWhile_append_dropWhile]

/-- Classifying a component touches only its members. -/
theorem mem_classifyComponent {component : List InstrId}
    (h : (y, e) ∈ v.classifyComponent known component) : (y, e) ∈ known ∨ y ∈ component := by
  unfold classifyComponent at h
  split at h
  · exact (mem_addTrivial h).imp_right fun hy => List.mem_cons.mpr (.inl hy)
  · exact .inl h
  · split at h
    · exact .inl h
    · rename_i p others hfrom
      exact (mem_classifyCycle h).imp_right fun hy =>
        (v.fromEntry_perm _).mem_iff.mp (hfrom ▸ hy)

/-- What holds of no classes, and still holds when a component of values with `p` is classified,
holds of the classes of the loop, if `p` holds of its instructions and of their dependencies. -/
theorem classes_induction (v : LoopView) {p : InstrId → Prop} {I : Classes → Prop}
    (hdeps : ∀ x y, p x → y ∈ v.deps x → p y) (hmembers : ∀ x ∈ v.members, p x) (hnil : I [])
    (hstep : ∀ known c, I known → (∀ x ∈ c, p x) → I (v.classifyComponent known c)) :
    I v.classes := by
  obtain ⟨-, -, hcomponents⟩ := Components.components_spec hdeps hmembers
  exact List.foldlRecOn _ _ hnil fun known hk c hc => hstep known c hk (hcomponents c hc)

end Keys

section Places

variable {v : LoopView} {known cycle : Classes} {component others : List InstrId}
variable {places places' : List (InstrId × Option ℕ)} {p x y : InstrId} {d : Descriptor} {k : ℕ}

theorem round?_nil : v.round? known p [] = none := by
  have hnone : v.common (fun _ => none) p 1 = none := by
    unfold common
    split <;> rfl
  simp [round?, meanings, hnone]

theorem placeIn_append_of_mem (h : x ∈ places.map Prod.fst) :
    placeIn (places ++ places') x = placeIn places x := by
  obtain ⟨t, ht, rfl⟩ := List.mem_map.mp h
  obtain ⟨k, hk⟩ := Option.isSome_iff_exists.mp
    (List.lookup_isSome_iff.mpr ⟨t, ht, beq_self_eq_true t.1⟩)
  rw [placeIn, placeIn, List.lookup_append, hk, Option.some_or]

theorem placeIn_append_of_not_mem (h : x ∉ places.map Prod.fst) :
    placeIn (places ++ places') x = placeIn places' x := by
  have hnone : places.lookup x = none := by
    rw [List.lookup_eq_none_iff]
    intro t ht
    rw [bne_iff_ne]
    rintro rfl
    exact h (List.mem_map_of_mem ht)
  rw [placeIn, placeIn, List.lookup_append, hnone, Option.none_or]

theorem placeIn_of_mem (hnodup : (places.map Prod.fst).Nodup) {k : Option ℕ}
    (h : (x, k) ∈ places) : placeIn places x = k := by
  induction places with
  | nil => cases h
  | cons t places ih =>
    rw [List.map_cons, List.nodup_cons] at hnodup
    rcases List.mem_cons.mp h with rfl | h
    · simp [placeIn]
    · have hne : x ≠ t.1 := by
        rintro rfl
        exact hnodup.1 (List.mem_map.mpr ⟨_, h, rfl⟩)
      rw [← ih hnodup.2 h, placeIn, placeIn, List.lookup_cons, beq_false_of_ne hne]

theorem placeIn_of_commonPlace (h : v.commonPlace known places component = some k)
    (hx : x ∈ component) (hy : y ∈ v.deps x) (hd : (y, d) ∈ known)
    (hi : d.isInvariant = false) : placeIn places y = some k := by
  have hmem : y ∈ (component.flatMap v.deps).filter fun y =>
      known.any fun t => t.1 = y && !t.2.isInvariant := by
    rw [List.mem_filter, List.mem_flatMap, List.any_eq_true]
    exact ⟨⟨x, hx, hy⟩, (y, d), hd, by simp [hi]⟩
  have hplace := List.mem_map_of_mem (f := placeIn places) hmem
  unfold commonPlace at h
  dsimp only at h
  split at h
  · rename_i hnil
    rw [hnil] at hplace
    cases hplace
  · rename_i k' rest hcons
    rw [hcons] at hplace
    split_ifs at h with hall
    subst h
    rcases List.mem_cons.mp hplace with heq | hrest
    · exact heq
    · exact of_decide_eq_true (List.all_eq_true.mp hall _ hrest)

theorem keys_map_const (xs : List InstrId) (k : Option ℕ) :
    (xs.map fun x => (x, k)).map Prod.fst = xs := by
  simp [Function.comp_def]

theorem placesOf_perm (v : LoopView) (known : Classes) (places : List (InstrId × Option ℕ))
    (component : List InstrId) :
    ((v.placesOf known places component).map Prod.fst).Perm component := by
  have hcommon := List.Perm.of_eq (keys_map_const component (v.commonPlace known places component))
  unfold placesOf
  dsimp only
  split
  · rename_i p y others _ hfrom
    split
    · rename_i cycle d _
      have hkeys : (roundPlaces p (y :: others) cycle d).map Prod.fst =
          (y :: others).reverse ++ [p] := by
        rw [roundPlaces, List.map_map]
        exact List.zipIdx_map_fst 0 _
      rw [hkeys]
      refine List.Perm.trans ?_ (v.fromEntry_perm component)
      rw [hfrom]
      exact List.perm_append_comm.trans ((List.reverse_perm _).cons p)
    · exact hcommon
  · exact hcommon

theorem placeIn_placesIn {components : List (List InstrId)} (h : x ∉ components.flatten) :
    placeIn (v.placesIn known places components) x = placeIn places x := by
  induction components generalizing known places with
  | nil => rfl
  | cons c components ih =>
    rw [List.flatten_cons, List.mem_append, not_or] at h
    rw [placesIn, ih h.2]
    apply placeIn_append_of_not_mem
    rw [(v.placesOf_perm known places c).mem_iff]
    exact h.1

end Places

end LoopView

namespace Setting

open Components

variable {R : Type} [Arithmetic R] {S : Setting R} {ahead : InstrId → Option ℕ} {known : Classes}

theorem Follows.mono {x : InstrId} {φ ψ : Claim R} (h : S.Follows x φ)
    (hφ : ∀ ρ n r, φ ρ n r → ψ ρ n r) : S.Follows x ψ :=
  fun s hs hin hcur ρ hρ => hφ _ _ _ (h s hs hin hcur ρ hρ)

theorem Sound.cons (hk : S.Sound ahead known) {x : InstrId} {d : Descriptor}
    (hx : S.Classified (ahead x) x d) : S.Sound ahead ((x, d) :: known) := by
  intro y e hy
  rcases List.mem_cons.mp hy with heq | hy
  · cases heq
    exact hx
  · exact hk y e hy

section Members

theorem inner_of_mem_members {x : InstrId} (hx : x ∈ S.view.members) : S.Inner x := by
  simp only [LoopView.members, List.mem_flatMap, List.mem_filter, decide_eq_true_eq] at hx
  obtain ⟨b, ⟨hb, hinnermost⟩, hx⟩ := hx
  have hhome : S.func.home x = b := S.valid.home b x hx
  have hleaf := S.valid.not_isLeaf_of_mem_instrs hx
  refine ⟨?_, hhome ▸ hx⟩
  rw [LoopView.isMember, Bool.and_eq_true, Bool.not_eq_true', decide_eq_true_eq]
  exact ⟨isOutside_eq_false_iff.mpr ⟨hleaf, hhome.symm ▸ hb⟩, hhome.symm ▸ hinnermost⟩

theorem inner_of_mem_deps {x y : InstrId} (hx : S.Inner x) (hy : y ∈ S.view.deps x) :
    S.Inner y := by
  obtain ⟨hyin, hmember⟩ := mem_deps.mp hy
  have hop : y ∈ (S.func.instr x).operands := LoopView.mem_inputs_iff.mp hyin
  have hleaf := (isOutside_eq_false_iff.mp (not_isOutside_of_isMember hmember)).1
  refine ⟨hmember, ?_⟩
  have hlisted (h : S.func.Listed y) : y ∈ (S.func.block (S.func.home y)).instrs :=
    List.mem_append_left _ h
  by_cases hphi : (S.func.instr x).isPhi = true
  · obtain ⟨sources, hsources⟩ : ∃ sources, S.func.instr x = .phi sources := by
      cases hi : S.func.instr x with
      | phi sources => exact ⟨sources, rfl⟩
      | _ => simp [hi, Instr.isPhi] at hphi
    have hmem : x ∈ (S.func.block (S.func.home x)).phis := by
      have hx' : S.func.Listed x := hx.listed (by rw [hsources]; rfl)
      rcases List.mem_append.mp hx' with h | h
      · exact h
      · rw [(S.valid.body _ x h).1] at hphi
        cases hphi
    rw [hsources] at hop
    obtain ⟨t, ht, rfl⟩ := List.mem_map.mp hop
    rcases S.valid.source_available _ x hmem sources hsources t ht with h | h
    · rw [hleaf] at h
      cases h
    · exact hlisted h.1
  · rw [Bool.not_eq_true] at hphi
    obtain ⟨done, rest, heq⟩ := List.append_of_mem hx.mem_instrs
    rcases S.valid.operand_available _ done x rest heq hphi y hop with h | h | h
    · rw [hleaf] at h
      cases h
    · have hmem : y ∈ (S.func.block (S.func.home x)).instrs := heq ▸ List.mem_append_left _ h
      rwa [S.valid.home _ y hmem]
    · exact hlisted h.1

theorem components_inner : S.view.components.flatten.Nodup ∧
    (∀ c ∈ S.view.components, Joined S.view.deps c) ∧
    ∀ c ∈ S.view.components, ∀ x ∈ c, S.Inner x :=
  components_spec (fun _ _ hx hy => inner_of_mem_deps hx hy) fun _ hx => inner_of_mem_members hx

end Members

section Trivial

theorem sound_addTrivial (hk : S.Sound ahead known) {x : InstrId} (hx : S.Inner x)
    (hkeeps : S.Keeps ahead known x) : S.Sound ahead (S.view.addTrivial known x) := by
  unfold LoopView.addTrivial
  split
  · rename_i d hd
    exact hk.cons (classified_of_classifyTrivial hk hkeeps hx hd)
  · exact hk

/-- The classes `known'` are those known before and some of the component. -/
def Extends (known : Classes) (component : List InstrId) (known' : Classes) : Prop :=
  ∀ y d, (y, d) ∈ known' → (y, d) ∈ known ∨ y ∈ component

theorem sound_foldl_addTrivial {known' : Classes} {component xs : List InstrId}
    (hk : S.Sound ahead known') (hext : Extends known component known')
    (hsub : ∀ x ∈ xs, x ∈ component) (hxs : ∀ x ∈ xs, S.Inner x)
    (hkeeps : ∀ x ∈ component, ∀ known', Extends known component known' → S.Keeps ahead known' x) :
    S.Sound ahead (xs.foldl S.view.addTrivial known') := by
  induction xs generalizing known' with
  | nil => exact hk
  | cons x xs ih =>
    have hx := hsub x List.mem_cons_self
    refine ih (sound_addTrivial hk (hxs x List.mem_cons_self) (hkeeps x hx known' hext)) ?_
      (fun y hy => hsub y (List.mem_cons_of_mem _ hy))
      fun y hy => hxs y (List.mem_cons_of_mem _ hy)
    intro y d hy
    rcases LoopView.mem_addTrivial hy with hy | rfl
    · exact hext y d hy
    · exact .inr hx

end Trivial

section Round

variable {p : InstrId} {initial : Descriptor} {others : List InstrId}

theorem getElem?_rotate_mod {α : Type} {l : List α} (hl : 0 < l.length) (i m : ℕ) :
    (l.rotate i)[m % l.length]? = l[(m + i) % l.length]? := by
  rw [List.getElem?_rotate (Nat.mod_lt _ hl), Nat.mod_add_mod]

theorem describes_of_placeClaim {place : Option ℕ} {d : Descriptor} {ρ : InstrId → R} {n i j : ℕ}
    {r : R} (hd : d.isPeriodic = true) (hm : ∀ m ∈ d.members, m.IsTerm)
    (hturn : ∀ k, place = some k →
      d.members.rotate (i + k) = d.members.rotate (d.members.length - j))
    (h : placeClaim d j ρ n r) : (Descriptor.rotate^[i] d).Describes place ρ n r := by
  obtain ⟨hperiodic, hmembers⟩ := Descriptor.iterate_rotate_spec hd hm i
  have hlen := Descriptor.two_le_length_members hd
  suffices hrepeats : Descriptor.Repeats place
      ((Descriptor.rotate^[i] d).members.map (Descriptor.value ρ)) n r by
    generalize Descriptor.rotate^[i] d = e at hperiodic hrepeats
    cases e with
    | periodic a b => exact hrepeats
    | _ => cases hperiodic
  rw [hmembers]
  cases place with
  | none =>
    obtain ⟨m, hm', rfl⟩ := List.mem_map.mp (List.mem_of_getElem? h)
    exact List.mem_map_of_mem (List.mem_rotate.mpr hm')
  | some k =>
    have hpos : 0 < d.members.length := by omega
    have hplace : (d.members.rotate i)[(n + k) % d.members.length]? =
        d.members[(n + (d.members.length - j)) % d.members.length]? := by
      rw [getElem?_rotate_mod hpos, Nat.add_assoc, Nat.add_comm k, ← getElem?_rotate_mod hpos,
        hturn k rfl, getElem?_rotate_mod hpos]
    change (_ : List R)[_]? = some r
    rw [List.length_map, List.length_rotate, List.getElem?_map, hplace, ← List.getElem?_map]
    exact h

variable (hk : S.Sound ahead known) (hp : S.EntryPhi p initial)
variable (hothers : ∀ x ∈ others, S.Inner x) (hnodup : (p :: others).Nodup)
variable (hjoined : Joined S.view.deps (p :: others))
variable (hknown : ∀ x e, (x, e) ∈ known → x ∉ p :: others)
variable (hkeeps : others = [] ∨ S.view.round? known p others = none → ∀ x ∈ p :: others,
  ∀ known', Extends known (p :: others) known' → S.Keeps ahead known' x)
variable (hplace : ∀ cycle d, S.view.round? known p others = some (cycle, d) →
  ∀ x i, (others.reverse ++ [p])[i]? = some x → ahead x =
    some (LoopView.placesAhead d.members i (LoopView.startPlace cycle p d.members.length x)))

theorem cycle_of_meanings {cycle : Classes} (hothers : ∀ x ∈ others, S.Inner x)
    (hnodup : (p :: others).Nodup)
    (h : S.view.meanings known p [] others = some cycle) :
    S.Cycle known p cycle ∧ (∀ x, x ∈ others ↔ ∃ m, (x, m) ∈ cycle) ∧
      ∀ z m m', (z, m) ∈ cycle → (z, m') ∈ cycle → m = m' := by
  obtain ⟨-, hkeys, hall⟩ := meanings_spec h
  rw [List.map_nil, List.append_nil] at hkeys
  have hmem : ∀ x, x ∈ others ↔ ∃ m, (x, m) ∈ cycle := fun x => by
    rw [← List.mem_reverse, ← hkeys]
    simp
  refine ⟨⟨fun z m hz => ?_, fun z m hz => hothers z ((hmem z).mpr ⟨m, hz⟩)⟩, hmem, ?_⟩
  · exact (hall (z, m) hz).resolve_left List.not_mem_nil
  · intro z m m' hm hm'
    have hkeysNodup : (cycle.map Prod.fst).Nodup := by
      rw [hkeys]
      exact List.nodup_reverse.mpr (List.nodup_cons.mp hnodup).2
    have heq : (z, m) = (z, m') := List.inj_on_of_nodup_map hkeysNodup hm hm' rfl
    exact (Prod.mk.inj heq).2

include hk hp hothers hnodup hjoined hknown hplace

theorem sound_spread {cycle : Classes} {d : Descriptor}
    (hmeanings : S.view.meanings known p [] others = some cycle)
    (hcommon : S.view.common (fun y => cycle.lookup y) p 1 = some d)
    (hd : d.isPeriodic = true) :
    S.Sound ahead (LoopView.spread known d (others.reverse ++ [p])) := by
  obtain ⟨hc, hmem, hunique⟩ := cycle_of_meanings hothers hnodup hmeanings
  have hproper := proper_of_meanings hk hp hmeanings fun t ht => absurd ht List.not_mem_nil
  obtain ⟨⟨y₀, hy₀⟩, hlookup⟩ := common_eq_some hcommon
  have hback : ∀ y ∈ (S.view.inputs p).drop 1, (y, d) ∈ cycle :=
    fun y hy => mem_of_lookup (hlookup y hy)
  have hm : ∀ m ∈ d.members, m.IsTerm := (hproper _ (hback y₀ hy₀)).members hd
  have hfollows := follows_round hk hp hc hproper hback hd ⟨y₀, hy₀⟩ hunique
  intro x e hx
  rcases LoopView.mem_spread hx with hx | ⟨i, hi, rfl⟩
  · exact hk x e hx
  have hround : S.view.round? known p others = some (cycle, d) := by
    simp [LoopView.round?, hmeanings, hcommon, hd]
  have hturn (k : ℕ) (hahead : ahead x = some k) : d.members.rotate (i + k) =
      d.members.rotate (LoopView.startPlace cycle p d.members.length x) := by
    rw [hplace cycle d hround x i hi, Option.some.injEq] at hahead
    rw [← hahead, LoopView.rotate_placesAhead]
  obtain ⟨hperiodic, hmembers⟩ := Descriptor.iterate_rotate_spec hd hm i
  have hwell : (Descriptor.rotate^[i] d).WellFormed := by
    have hterm : ∀ m ∈ (Descriptor.rotate^[i] d).members, m.IsTerm := fun m hm' =>
      hm m (List.mem_rotate.mp (hmembers ▸ hm'))
    generalize Descriptor.rotate^[i] d = e at hperiodic hterm
    cases e with
    | periodic a b => exact .periodic hterm
    | _ => cases hperiodic
  by_cases hxp : x = p
  · subst hxp
    refine ⟨hp.inner.member, hp.listed, hwell, (hfollows _ _ .phi).mono fun ρ n r h => ?_⟩
    refine describes_of_placeClaim hd hm (fun k hahead => ?_) h
    rw [hturn k hahead, LoopView.startPlace, if_pos rfl]
  · have hxo : x ∈ others := by
      have := List.mem_of_getElem? hi
      simpa [hxp] using this
    obtain ⟨m, hxm, hmp, hsuffix⟩ := delayed_of_joined hk hp hc hproper hback hd hknown hjoined
      List.mem_cons_self (List.mem_cons_of_mem _ hxo) hxp
    refine ⟨(hc.inner x m hxm).member, hc.listed hxm, hwell,
      (hfollows _ _ (.member hxm hmp hsuffix)).mono fun ρ n r h => ?_⟩
    refine describes_of_placeClaim hd hm (fun k hahead => ?_) h
    have hl : cycle.lookup x = some m := by
      obtain ⟨m', hm'⟩ := Option.isSome_iff_exists.mp
        (List.lookup_isSome_iff.mpr ⟨(x, m), hxm, beq_self_eq_true x⟩)
      rw [hm', hunique x m' m (mem_of_lookup hm') hxm]
    rw [hturn k hahead, LoopView.startPlace, if_neg hxp, hl]
    rfl

include hkeeps

theorem sound_classifyRound : S.Sound ahead (S.view.classifyRound known p others initial) := by
  unfold LoopView.classifyRound
  dsimp only
  split
  · exact hk
  · rename_i d hd
    obtain ⟨cycle, hmeanings, hcommon⟩ := Option.bind_eq_some_iff.mp hd
    obtain ⟨hc, hmem, hunique⟩ := cycle_of_meanings hothers hnodup hmeanings
    have hproper := proper_of_meanings hk hp hmeanings fun t ht => absurd ht List.not_mem_nil
    obtain ⟨hne, hlookup⟩ := common_eq_some hcommon
    split_ifs with hi hperiodic
    · have hnone : S.view.round? known p others = none := by
        have hp : d.isPeriodic = false := by cases d <;> first | rfl | cases hi
        simp [LoopView.round?, hmeanings, hcommon, hp]
      refine sound_foldl_addTrivial (hk.cons (classified_linear hk hp hc hproper hi
        ⟨hne, fun y hy => mem_of_lookup (hlookup y hy)⟩)) ?_
        (fun x hx => List.mem_cons_of_mem p hx) hothers (hkeeps (.inr hnone))
      intro y e hy
      rcases List.mem_cons.mp hy with heq | hy
      · exact .inr ((Prod.mk.inj heq).1 ▸ List.mem_cons_self)
      · exact .inl hy
    · exact sound_spread hk hp hothers hnodup hjoined hknown hplace hmeanings hcommon hperiodic
    · exact hk

omit hp in
theorem sound_classifyCycle (hpi : S.Inner p) (hentry : S.view.isEntryPhi p = true) :
    S.Sound ahead (S.view.classifyCycle known p others) := by
  unfold LoopView.classifyCycle
  split
  · exact hk
  · rename_i start hstart
    have hp := entryPhi_of_isEntryPhi hk hpi hentry (Option.filter_eq_some_iff.mp hstart).1
    split
    · unfold LoopView.classifyAlone
      split
      · exact hk.cons (classified_alone hk hp (hkeeps (.inl rfl) p List.mem_cons_self known
          fun y d hy => .inl hy) ‹_›)
      · exact hk
    · exact sound_classifyRound hk hp hothers hnodup hjoined hknown hkeeps hplace

end Round

section Component

theorem isEntryPhi_of_fromEntry {v : LoopView} {component : List InstrId} {p : InstrId}
    {others : List InstrId} (hany : component.any v.isEntryPhi = true)
    (h : v.fromEntry component = p :: others) : v.isEntryPhi p = true := by
  obtain ⟨x, hx, hentry⟩ := List.any_eq_true.mp hany
  unfold LoopView.fromEntry at h
  cases hd : component.dropWhile (!v.isEntryPhi ·) with
  | nil =>
    rw [List.dropWhile_eq_nil_iff] at hd
    have := hd x hx
    simp [hentry] at this
  | cons q rest =>
    rw [hd, List.cons_append, List.cons.injEq] at h
    have hq := List.head_dropWhile_not (!v.isEntryPhi ·) (l := component) (by simp [hd])
    simp only [hd, List.head_cons] at hq
    rw [← h.1]
    simpa using hq

variable {component : List InstrId} {places : List (InstrId × Option ℕ)}
variable (hk : S.Sound ahead known) (hinner : ∀ x ∈ component, S.Inner x)
variable (hnodup : component.Nodup) (hjoined : Joined S.view.deps component)
variable (hknown : ∀ x e, (x, e) ∈ known → x ∉ component)
variable (hplace : ∀ x ∈ component,
  ahead x = LoopView.placeIn (S.view.placesOf known places component) x)
variable (hbefore : ∀ y d, (y, d) ∈ known → ahead y = LoopView.placeIn places y)

include hplace hbefore in
/-- Where no sequence is passed on, all members are at the place of what they depend on. -/
theorem keeps_of_commonPlace (hnodup : component.Nodup)
    (hplaces : S.view.placesOf known places component =
      component.map fun x => (x, S.view.commonPlace known places component)) {x : InstrId}
    (hx : x ∈ component) {known' : Classes} (hext : Extends known component known') :
    S.Keeps ahead known' x := by
  have hall : ∀ y ∈ component, ahead y = S.view.commonPlace known places component := by
    intro y hy
    rw [hplace y hy, hplaces]
    apply LoopView.placeIn_of_mem
    · rwa [LoopView.keys_map_const]
    · exact List.mem_map_of_mem hy
  intro k hk y hy d hd hi
  rw [hall x hx] at hk
  rcases hext y d hd with hd | hmem
  · rw [hbefore y d hd]
    exact LoopView.placeIn_of_commonPlace hk hx hy hd hi
  · rw [hall y hmem, hk]

include hk hinner hnodup hjoined hknown hplace hbefore

theorem sound_classifyComponent : S.Sound ahead (S.view.classifyComponent known component) := by
  cases hany : component.any S.view.isEntryPhi with
  | false =>
    have hplaces : S.view.placesOf known places component =
        component.map fun x => (x, S.view.commonPlace known places component) := by
      simp only [LoopView.placesOf, hany]
    simp only [LoopView.classifyComponent, hany]
    split
    · exact sound_addTrivial hk (hinner _ List.mem_cons_self)
        (keeps_of_commonPlace hplace hbefore hnodup hplaces List.mem_cons_self
          fun y d hy => .inl hy)
    · exact hk
    · contradiction
  | true =>
    cases hfrom : S.view.fromEntry component with
    | nil => simpa only [LoopView.classifyComponent, hany, hfrom] using hk
    | cons p others =>
      simp only [LoopView.classifyComponent, hany, hfrom]
      have hperm : (p :: others).Perm component := hfrom ▸ S.view.fromEntry_perm component
      have hmem {x : InstrId} : x ∈ p :: others ↔ x ∈ component := hperm.mem_iff
      refine sound_classifyCycle hk (fun x hx => hinner x (hmem.mp (List.mem_cons_of_mem _ hx)))
        (hperm.nodup_iff.mpr hnodup) ?_ (fun x e hx h => hknown x e hx (hmem.mp h)) ?_ ?_
        (hinner p (hmem.mp List.mem_cons_self)) (isEntryPhi_of_fromEntry hany hfrom)
      · intro x hx y hy
        exact (hjoined x (hmem.mp hx) y (hmem.mp hy)).mono fun z hz => hmem.mpr hz
      · intro hround x hx known' hext
        refine keeps_of_commonPlace hplace hbefore hnodup ?_ (hmem.mp hx)
          fun y d hy => (hext y d hy).imp_right hmem.mp
        cases others with
        | nil => simp only [LoopView.placesOf, hany, hfrom]
        | cons y others =>
          have hnone := hround.resolve_left (List.cons_ne_nil _ _)
          simp only [LoopView.placesOf, hany, hfrom, hnone]
      · intro cycle d hround x i hi
        have hplaces : S.view.placesOf known places component =
            LoopView.roundPlaces p others cycle d := by
          cases others with
          | nil =>
            rw [LoopView.round?_nil] at hround
            cases hround
          | cons y others => simp only [LoopView.placesOf, hany, hfrom, hround]
        have hx : x ∈ p :: others := by
          have := List.mem_of_getElem? hi
          simpa [or_comm] using this
        rw [hplace x (hmem.mp hx), hplaces]
        apply LoopView.placeIn_of_mem
        · rw [← hplaces, (S.view.placesOf_perm known places component).nodup_iff]
          exact hnodup
        · exact List.mem_map.mpr
            ⟨(x, i), List.mk_mem_zipIdx_iff_getElem?.mpr hi, rfl⟩

end Component

/-- Classifying the components one after the other keeps what is known sound. -/
theorem sound_foldl_classifyComponent {components : List (List InstrId)}
    {places : List (InstrId × Option ℕ)}
    (hk : S.Sound ahead known) (hnodup : components.flatten.Nodup)
    (hjoined : ∀ c ∈ components, Joined S.view.deps c)
    (hinner : ∀ c ∈ components, ∀ x ∈ c, S.Inner x)
    (hknown : ∀ x e, (x, e) ∈ known → x ∉ components.flatten)
    (hplace : ∀ x, ahead x = LoopView.placeIn (S.view.placesIn known places components) x) :
    S.Sound ahead (components.foldl S.view.classifyComponent known) := by
  induction components generalizing known places with
  | nil => exact hk
  | cons c components ih =>
    rw [List.flatten_cons, List.nodup_append] at hnodup
    obtain ⟨hc, hrest, hdisjoint⟩ := hnodup
    have hnot {x : InstrId} (hx : x ∈ c) : x ∉ components.flatten :=
      fun h => hdisjoint x hx x h rfl
    have hmember : ∀ x ∈ c, ahead x = LoopView.placeIn (S.view.placesOf known places c) x := by
      intro x hx
      rw [hplace, LoopView.placesIn, LoopView.placeIn_placesIn (hnot hx)]
      apply LoopView.placeIn_append_of_mem
      rwa [(S.view.placesOf_perm known places c).mem_iff]
    have hbefore : ∀ y d, (y, d) ∈ known → ahead y = LoopView.placeIn places y := by
      intro y d hy
      rw [hplace]
      exact LoopView.placeIn_placesIn (hknown y d hy)
    refine ih ?_ hrest (fun d hd => hjoined d (List.mem_cons_of_mem _ hd))
      (fun d hd => hinner d (List.mem_cons_of_mem _ hd)) ?_ hplace
    · exact sound_classifyComponent hk (hinner c List.mem_cons_self) hc
        (hjoined c List.mem_cons_self)
        (fun x e hx hxc => hknown x e hx (List.mem_append_left _ hxc)) hmember hbefore
    · intro x e hx
      rcases LoopView.mem_classifyComponent hx with hx | hx
      · exact fun h => hknown x e hx (List.mem_append_right _ h)
      · exact hnot hx

/-- All descriptors of the loop are sound, each value at its place. -/
theorem sound_classes : S.Sound S.view.ahead S.view.classes := by
  obtain ⟨hnodup, hjoined, hinner⟩ := S.components_inner
  exact sound_foldl_classifyComponent (fun x d h => absurd h List.not_mem_nil) hnodup hjoined
    hinner (fun x e h => absurd h List.not_mem_nil) fun x => rfl

end Setting

end LoopBounds
