import LoopBounds.Proofs.Classify.CycleOrder
import Mathlib.Data.List.Iterate
import Mathlib.Dynamics.PeriodicPts.Defs

/-!
# Cycles of phis that pass values on

On a cycle that consists of phis of the header alone, each phi starts with its own value and goes
on with another phi of the cycle. The phis then take turns: following the values that they pass
on leads through all of them and back. The sequence of a phi is made of the starts on this way,
wherever the search for components came upon the cycle.
-/

namespace LoopBounds

section Way

variable {α : Type} {f : α → α} {s : Set α} {a p w x y : α} {l ds zs : List α} {n : ℕ}

theorem eq_iterate_of_isChain (h : (a :: l).IsChain fun x y => f x = y) :
    a :: l = List.iterate f a (l.length + 1) := by
  induction l generalizing a with
  | nil => rfl
  | cons b l ih =>
    obtain ⟨rfl, h⟩ := List.isChain_cons_cons.mp h
    rw [List.length_cons, List.iterate, ← ih h]

theorem rotate_iterate (h : Function.IsPeriodicPt f n a) (i : ℕ) :
    (List.iterate f a n).rotate i = List.iterate f (f^[i] a) n := by
  refine List.ext_getElem (by simp) fun k hk hk' => ?_
  rw [List.getElem_rotate, List.getElem_iterate, List.getElem_iterate, List.length_iterate,
    h.iterate_mod_apply, Function.iterate_add_apply]

theorem map_iterate {g : α → α} {r : α → α} (h : ∀ x, g (r x) = r (f x)) (a : α) (n : ℕ) :
    (List.iterate f a n).map r = List.iterate g (r a) n := by
  induction n generalizing a with
  | zero => rfl
  | succ n ih => rw [List.iterate, List.iterate, List.map_cons, ih, h]

/-- If `f` never takes a value to itself or to a later one, and all but the last of the values
before are taken already, each value goes to the one just before it. -/
theorem isChain_of_earlier (ds : List α) (hf : s.InjOn f) (hs : ∀ y ∈ w :: ds ++ zs, y ∈ s)
    (hnodup : (w :: ds ++ zs).Nodup) (htaken : ∀ y ∈ ds, ∃ x ∈ w :: ds, f x = y)
    (hmem : ∀ z ∈ zs, f z ∈ w :: ds ++ zs) (hself : ∀ z ∈ zs, f z ≠ z)
    (hlater : zs.Pairwise fun z y => f z ≠ y) : (w :: zs).IsChain fun x y => f y = x := by
  induction zs generalizing w ds with
  | nil => exact .singleton w
  | cons z zs ih =>
    obtain ⟨hfirst, hlater⟩ := List.pairwise_cons.mp hlater
    obtain ⟨hz, hself⟩ := List.forall_mem_cons.mp hself
    have hperm : (z :: w :: ds ++ zs).Perm (w :: ds ++ z :: zs) := List.perm_middle.symm
    have hw : f z = w := by
      rcases List.mem_append.mp (hmem z List.mem_cons_self) with h | h
      · rcases List.mem_cons.mp h with h | h
        · exact h
        · -- The value is taken by another one before `z`.
          obtain ⟨x, hx, hxz⟩ := htaken _ h
          have hx' : x ∈ w :: ds ++ z :: zs := List.mem_append_left _ hx
          obtain rfl := hf (hs x hx') (hs z (by simp)) hxz
          exact absurd rfl ((List.nodup_append.mp hnodup).2.2 x hx x List.mem_cons_self)
      · rcases List.mem_cons.mp h with h | h
        · exact absurd h hz
        · exact absurd rfl (hfirst _ h)
    have htaken' : ∀ y ∈ w :: ds, ∃ x ∈ z :: w :: ds, f x = y := by
      rintro y (_ | ⟨_, hy⟩)
      · exact ⟨z, List.mem_cons_self, hw⟩
      · obtain ⟨x, hx, hxy⟩ := htaken y hy
        exact ⟨x, List.mem_cons_of_mem _ hx, hxy⟩
    refine List.isChain_cons_cons.mpr ⟨hw, ih (w :: ds) ?_ ?_ htaken' ?_ hself hlater⟩
    · exact fun y hy => hs y (hperm.mem_iff.mp hy)
    · exact hperm.nodup_iff.mpr hnodup
    · exact fun y hy => hperm.mem_iff.mpr (hmem y (List.mem_cons_of_mem _ hy))

theorem getLast?_of_isChain (hf : s.InjOn f) (hs : ∀ y ∈ p :: zs, y ∈ s) (hp : p ∉ zs)
    (hmem : f p ∈ p :: zs) (h : (p :: zs).IsChain fun x y => f y = x) :
    (p :: zs).getLast? = some (f p) := by
  have htaken {w : α} {l : List α} (h : (w :: l).IsChain fun x y => f y = x) :
      ∀ y ∈ (w :: l).dropLast, ∃ x ∈ l, f x = y := by
    induction l generalizing w with
    | nil => exact fun _ hy => absurd hy List.not_mem_nil
    | cons z l ih =>
      obtain ⟨hz, h⟩ := List.isChain_cons_cons.mp h
      rw [List.dropLast_cons_cons]
      refine List.forall_mem_cons.mpr ⟨⟨z, List.mem_cons_self, hz⟩, fun y hy => ?_⟩
      obtain ⟨x, hx, hxy⟩ := ih h y hy
      exact ⟨x, List.mem_cons_of_mem _ hx, hxy⟩
  rw [← List.dropLast_append_getLast (List.cons_ne_nil p zs)] at hmem
  rcases List.mem_append.mp hmem with hmem | hmem
  · obtain ⟨x, hx, hxp⟩ := htaken h _ hmem
    obtain rfl := hf (hs x (List.mem_cons_of_mem _ hx)) (hs p List.mem_cons_self) hxp
    exact absurd hx hp
  · rw [List.getLast?_eq_getLast_of_ne_nil (List.cons_ne_nil p zs), List.mem_singleton.mp hmem]

end Way

namespace Descriptor

theorem members_injective : Function.Injective members := by
  intro d
  induction d with
  | periodic a b _ ihb =>
    intro e h
    cases e with
    | periodic a' b' =>
      obtain ⟨rfl, hrest⟩ := List.cons.inj h
      rw [ihb hrest]
    | _ => exact absurd (List.cons.inj h).2 (members_ne_nil b)
  | _ =>
    intro e h
    cases e with
    | periodic a' b' => exact absurd (List.cons.inj h).2.symm (members_ne_nil b')
    | _ => exact (List.cons.inj h).1

theorem members_of_isInvariant {d : Descriptor} (h : d.isInvariant = true) : d.members = [d] := by
  cases d <;> first | rfl | cases h

end Descriptor

namespace LoopView

open Components

variable (v : LoopView)

/-- What the phi `x` of the header takes round the loop, if it has one input from each side. -/
def carried (x : InstrId) : InstrId := (v.inputs x)[1]?.getD x

/-- The invariant with which the phi `x` of the header starts. -/
def opening? (known : Classes) (x : InstrId) : Option Descriptor :=
  (v.start? known x).filter Descriptor.isInvariant

/-- Several phis of the header with one input from each side. -/
structure Ring (c : List InstrId) : Prop where
  several : 2 ≤ c.length
  inputs : ∀ x ∈ c, ∃ outside, v.inputs x = [outside, v.carried x] ∧ v.isOutside outside = true
  home : ∀ x ∈ c, v.func.home x = v.header
  phi : ∀ x ∈ c, (v.func.instr x).isPhi = true

/-- Where the way from the phi `p` has come to `w`, what `w` brings is `d`. -/
def Brings (known cycle : Classes) (p w : InstrId) (d : Descriptor) : Prop :=
  w = p ∧ v.start? known p = some d ∨ w ≠ p ∧ cycle.lookup w = some d ∧ d.isPeriodic = true

variable {v} {known cycle result : Classes} {c ds others zs : List InstrId} {p w x y z : InstrId}
variable {d e : Descriptor}

section Steps

variable (h : v.Ring c)

include h

theorem Ring.eq_carried_of_mem_deps (hx : x ∈ c) (hy : y ∈ v.deps x) : y = v.carried x := by
  obtain ⟨hmem, hmember⟩ := List.mem_filter.mp hy
  obtain ⟨outside, hin, hout⟩ := h.inputs x hx
  rw [hin] at hmem
  rcases List.mem_pair.mp hmem with rfl | hy
  · rw [isOutside_of_isMember hmember] at hout
    cases hout
  · exact hy

variable (hc : v.Fresh known c)

include hc

theorem Ring.carried_mem (hx : x ∈ c) : v.carried x ∈ c := by
  obtain ⟨y, hy, hne⟩ : ∃ y ∈ c, y ≠ x := by
    by_contra hall
    simp only [not_exists, not_and, not_not] at hall
    have hsub : c ⊆ [x] := fun y hy => List.mem_singleton.mpr (hall y hy)
    have hlength : c.length ≤ 1 := (hc.nodup.subperm hsub).length_le
    exact absurd h.several (by omega)
  cases hc.joined x hx y hy with
  | refl _ => exact absurd rfl hne
  | step _ hdep hrest => exact h.eq_carried_of_mem_deps hx hdep ▸ hrest.left

theorem Ring.carried_mem_deps (hx : x ∈ c) : v.carried x ∈ v.deps x := by
  obtain ⟨outside, hin, -⟩ := h.inputs x hx
  refine mem_deps_of_mem_inputs (hc.member _ (h.carried_mem hc hx)) ?_
  rw [hin]
  exact List.mem_cons_of_mem _ List.mem_cons_self

theorem Ring.exists_iterate (hx : x ∈ c) (hy : y ∈ c) : ∃ i, v.carried^[i] x = y := by
  have hiterate {x y : InstrId} (hleads : Leads v.deps (· ∈ c) x y) :
      ∃ i, v.carried^[i] x = y := by
    induction hleads with
    | refl _ => exact ⟨0, rfl⟩
    | step hx hdep _ ih =>
      obtain ⟨i, hi⟩ := ih
      exact ⟨i + 1, by rw [Function.iterate_succ_apply, ← h.eq_carried_of_mem_deps hx hdep, hi]⟩
  exact hiterate (hc.joined x hx y hy)

theorem Ring.injOn : Set.InjOn v.carried {x | x ∈ c} := by
  refine (Function.bijOn_periodicPts v.carried).injOn.mono fun x hx => ?_
  obtain ⟨i, hi⟩ := h.exists_iterate hc (h.carried_mem hc hx) hx
  exact Function.mk_mem_periodicPts i.succ_pos hi

/-- Taken in order, the phis are gone through against the way on which they pass their values. -/
theorem Ring.isChain (hperm : (p :: others).Perm c) (horder : v.InOrder others) :
    (p :: others).IsChain (fun x y => v.carried y = x) ∧
      (p :: others).getLast? = some (v.carried p) := by
  have hmem (y : InstrId) (hy : y ∈ p :: others) : y ∈ c := hperm.mem_iff.mp hy
  have hcarried (y : InstrId) (hy : y ∈ p :: others) : v.carried y ∈ p :: others :=
    hperm.mem_iff.mpr (h.carried_mem hc (hmem y hy))
  have hnodup : (p :: others).Nodup := hperm.nodup_iff.mpr hc.nodup
  have hothers (z : InstrId) (hz : z ∈ others) : z ∈ c := hmem z (List.mem_cons_of_mem _ hz)
  have hchain : (p :: others).IsChain fun x y => v.carried y = x := by
    refine isChain_of_earlier [] (h.injOn hc) hmem hnodup
      (fun _ hy => absurd hy List.not_mem_nil)
      (fun z hz => hcarried z (List.mem_cons_of_mem _ hz)) (fun z hz heq => ?_) ?_
    · have hdep := h.carried_mem_deps hc (hothers z hz)
      rw [heq] at hdep
      exact horder.1 z hz hdep
    · refine horder.2.imp_of_mem fun {z y} hz _ hnot heq => hnot ?_
      exact heq ▸ h.carried_mem_deps hc (hothers z hz)
  exact ⟨hchain, getLast?_of_isChain (h.injOn hc) hmem (List.nodup_cons.mp hnodup).1
    (hcarried p List.mem_cons_self) hchain⟩

theorem Ring.eq_iterate (hperm : (p :: others).Perm c) (horder : v.InOrder others) :
    others.reverse ++ [p] = List.iterate v.carried (v.carried p) c.length ∧
      Function.IsPeriodicPt v.carried c.length (v.carried p) := by
  obtain ⟨hchain, hlast⟩ := h.isChain hc hperm horder
  rw [← List.head?_reverse, List.head?_eq_some_iff] at hlast
  obtain ⟨rest, hrest⟩ := hlast
  have hlength : rest.length + 1 = c.length := by
    rw [← List.length_cons, ← hrest, List.length_reverse, hperm.length_eq]
  have heq : (p :: others).reverse = List.iterate v.carried (v.carried p) c.length := by
    have hfollow := List.isChain_reverse.mpr hchain
    rw [hrest] at hfollow ⊢
    rw [eq_iterate_of_isChain hfollow, hlength]
  refine ⟨List.reverse_cons.symm.trans heq, ?_⟩
  -- The last value on the way is the phi `p` itself, which goes on to the first.
  have hp : v.carried^[rest.length] (v.carried p) = p := by
    have hget := congrArg List.getLast? heq
    rw [List.getLast?_reverse, List.head?_cons, List.getLast?_eq_getElem?, List.length_iterate,
      ← hlength, Nat.add_sub_cancel, List.getElem?_iterate _ _ _ _ (Nat.lt_succ_self _)] at hget
    exact (Option.some.inj hget).symm
  rw [Function.IsPeriodicPt, Function.IsFixedPt, ← hlength, Function.iterate_succ_apply', hp]

end Steps

section Meanings

theorem opening?_eq {outside : InstrId} (hin : v.inputs x = [outside, y]) :
    v.opening? known x = v.invariant? known outside := by
  rw [opening?, start?, hin]
  rfl

variable (h : v.Ring c)

include h

/-- A phi starts with its own value and goes on with what the phi brings that it takes over. -/
theorem Ring.meaning_eq (hz : z ∈ c) (hmember : ∀ t ∈ cycle, v.isMember t.1 = true)
    (hw : v.carried z = w) (hbrings : v.Brings known cycle p w d) :
    v.meaning known cycle p z = (v.opening? known z).map fun first => .periodic first d := by
  obtain ⟨outside, hin, hout⟩ := h.inputs z hz
  have hnone : cycle.lookup outside = none := by
    cases hl : cycle.lookup outside with
    | none => rfl
    | some e =>
      have := hmember _ (Setting.mem_of_lookup hl)
      rw [isMember_eq_true_iff, hout] at this
      cases this.1
  have hcommon : v.common (fun y => cycle.lookup y) z 0 = none := by
    simp only [common, hin, List.drop_zero, hnone]
  have hcarried : v.common (fun y => cycle.lookup y) z 1 = cycle.lookup w := by
    rw [← hw]
    simp only [common, hin, List.drop_succ_cons, List.drop_zero]
    cases cycle.lookup (v.carried z) <;> rfl
  have hmeaning : v.meaning known cycle p z = v.phiMeaning known cycle p z := by
    unfold meaning
    have hphi := h.phi z hz
    cases hi : v.func.instr z with
    | phi sources => rfl
    | _ =>
      rw [hi] at hphi
      cases hphi
  rw [hmeaning, phiMeaning, hcommon, hcarried, opening?_eq hin]
  simp only [hin, h.home z hz, hw, if_true]
  cases v.invariant? known outside with
  | none => rfl
  | some first =>
    rcases hbrings with ⟨rfl, hstart⟩ | ⟨hne, hlookup, hperiodic⟩
    · simp [hstart]
    · simp [hne, hlookup, hperiodic]

/-- The meanings of phis that follow each other, from where the way has come to `w`. -/
theorem Ring.meanings_of_isChain (hchain : (w :: zs).IsChain fun x y => v.carried y = x)
    (hzs : ∀ z ∈ zs, z ∈ c) (hc : v.Fresh known c) (hp : p ∉ zs)
    (hmember : ∀ t ∈ cycle, v.isMember t.1 = true) (hbrings : v.Brings known cycle p w d)
    (hd : d.members.map some = ds.map (v.opening? known)) :
    ((v.meanings known p cycle zs).isSome → ∀ z ∈ zs, (v.opening? known z).isSome) ∧
      ((∀ z ∈ zs, (v.opening? known z).isSome) → ∃ result e,
        v.meanings known p cycle zs = some result ∧
        v.Brings known result p ((w :: zs).getLast (List.cons_ne_nil _ _)) e ∧
        e.members.map some = (zs.reverse ++ ds).map (v.opening? known)) := by
  induction zs generalizing w cycle d ds with
  | nil => exact ⟨fun _ _ hz => absurd hz List.not_mem_nil, fun _ => ⟨cycle, d, rfl, hbrings, hd⟩⟩
  | cons z zs ih =>
    obtain ⟨hw, hchain⟩ := List.isChain_cons_cons.mp hchain
    obtain ⟨hz, hzs⟩ := List.forall_mem_cons.mp hzs
    rw [List.mem_cons, not_or] at hp
    have hmeaning := h.meaning_eq hz hmember hw hbrings
    cases hopening : v.opening? known z with
    | none =>
      rw [hopening, Option.map_none] at hmeaning
      refine ⟨fun hsome => ?_, fun hall => ?_⟩
      · rw [LoopView.meanings, hmeaning] at hsome
        cases hsome
      · have := hall z List.mem_cons_self
        rw [hopening] at this
        cases this
    | some first =>
      rw [hopening, Option.map_some] at hmeaning
      have hbrings' : v.Brings known ((z, .periodic first d) :: cycle) p z (.periodic first d) :=
        .inr ⟨Ne.symm hp.1, List.lookup_cons_self, rfl⟩
      have hd' : (Descriptor.periodic first d).members.map some =
          (z :: ds).map (v.opening? known) := by
        rw [Descriptor.members, List.map_cons, List.map_cons, hd, hopening]
      have hmember' : ∀ t ∈ (z, Descriptor.periodic first d) :: cycle, v.isMember t.1 = true :=
        List.forall_mem_cons.mpr ⟨hc.member z hz, hmember⟩
      obtain ⟨hsome, hexists⟩ := ih hchain hzs hp.2 hmember' hbrings' hd'
      rw [LoopView.meanings, hmeaning]
      refine ⟨fun h => List.forall_mem_cons.mpr ⟨by rw [hopening]; rfl, hsome h⟩, fun hall => ?_⟩
      obtain ⟨result, e, hresult, hlast, he⟩ := hexists (List.forall_mem_cons.mp hall).2
      refine ⟨result, e, hresult, by rwa [List.getLast_cons_cons], ?_⟩
      rw [he, List.reverse_cons, List.append_assoc, List.singleton_append]

end Meanings

theorem classifyCycle_eq (hothers : others ≠ []) (hp : v.opening? known p = some d) :
    v.classifyCycle known p others = v.classifyRound known p others d := by
  rw [opening?] at hp
  rw [classifyCycle, hp]
  cases others with
  | nil => exact absurd rfl hothers
  | cons z others => rfl

section Spread

theorem lookup_spread {xs : List InstrId} (hnew : ∀ x ∈ xs, known.lookup x = none) (hx : x ∈ xs) :
    ∃ i, xs[i]? = some x ∧ (spread known d xs).lookup x = some (Descriptor.rotate^[i] d) := by
  have hsome (xs : List InstrId) (known : Classes) (d : Descriptor)
      (hx : x ∈ xs ∨ (known.lookup x).isSome) : ((spread known d xs).lookup x).isSome := by
    induction xs generalizing known d with
    | nil => exact hx.resolve_left List.not_mem_nil
    | cons y xs ih =>
      refine ih _ _ ?_
      by_cases hxy : x = y
      · rw [hxy, List.lookup_cons_self]
        exact .inr rfl
      · rw [lookup_cons_of_ne hxy]
        exact hx.imp_left fun hx => (List.mem_cons.mp hx).resolve_left hxy
  obtain ⟨e, he⟩ := Option.isSome_iff_exists.mp (hsome xs known d (.inl hx))
  rcases mem_spread (Setting.mem_of_lookup he) with hmem | ⟨i, hi, hrotate⟩
  · have := List.lookup_eq_none_iff.mp (hnew x hx) _ hmem
    simp at this
  · exact ⟨i, hi, he.trans (congrArg some hrotate)⟩

end Spread

section Classified

variable (hk : AllFormed (fun _ => True) known) (h : v.Ring c) (hc : v.Fresh known c)
variable (hperm : (p :: others).Perm c) (horder : v.InOrder others)

include hk in
theorem isTerm_of_opening? (hd : v.opening? known x = some d) : d.IsTerm := by
  obtain ⟨hstart, hinv⟩ := Option.filter_eq_some_iff.mp hd
  exact ((hk.start (fun _ _ _ _ => trivial) hstart).term hinv).isTerm

include h hc hperm horder

theorem Ring.carried_ne : v.carried p ≠ p := by
  obtain ⟨-, hlast⟩ := h.isChain hc hperm horder
  rw [List.getLast?_eq_getLast_of_ne_nil (List.cons_ne_nil p others), Option.some.injEq] at hlast
  have hothers : others ≠ [] := by
    rintro rfl
    have := hperm.length_eq ▸ h.several
    simp at this
  rw [List.getLast_cons hothers] at hlast
  have hnot : p ∉ others := (hc.nodup_cons hperm).1
  exact fun heq => hnot (heq ▸ hlast ▸ List.getLast_mem hothers)

/-- A ring that is taken in order closes if the phis start with invariants, with what they start
with on the way on which they follow each other. -/
theorem Ring.back_eq {initial : Descriptor} (hp : v.opening? known p = some initial) :
    ((v.meanings known p [] others).isSome → ∀ y ∈ c, (v.opening? known y).isSome) ∧
    ((∀ y ∈ c, (v.opening? known y).isSome) → ∃ result e,
      v.meanings known p [] others = some result ∧
      v.common (fun y => result.lookup y) p 1 = some e ∧ e.isPeriodic = true ∧
      e.members.map some = (others.reverse ++ [p]).map (v.opening? known)) := by
  obtain ⟨hchain, hlast⟩ := h.isChain hc hperm horder
  have hmem (y : InstrId) : y ∈ c ↔ y ∈ p :: others := hperm.mem_iff.symm
  have hnot : p ∉ others := (hc.nodup_cons hperm).1
  obtain ⟨hstart, hinv⟩ := Option.filter_eq_some_iff.mp hp
  have hmembers : initial.members.map some = [p].map (v.opening? known) := by
    rw [Descriptor.members_of_isInvariant hinv, List.map_singleton, List.map_singleton, hp]
  obtain ⟨hsome, hexists⟩ := h.meanings_of_isChain hchain
    (fun z hz => (hmem z).mpr (List.mem_cons_of_mem _ hz)) hc hnot
    (fun _ ht => absurd ht List.not_mem_nil) (.inl ⟨rfl, hstart⟩) hmembers
  refine ⟨fun hm y hy => ?_, fun hall => ?_⟩
  · rcases List.mem_cons.mp ((hmem y).mp hy) with rfl | hy
    · rw [hp]
      rfl
    · exact hsome hm y hy
  · obtain ⟨result, e, hresult, hbrings, he⟩ :=
      hexists fun z hz => hall z ((hmem z).mpr (List.mem_cons_of_mem _ hz))
    rw [List.getLast?_eq_getLast_of_ne_nil (List.cons_ne_nil p others), Option.some.injEq] at hlast
    rw [hlast] at hbrings
    have hne : v.carried p ≠ p := h.carried_ne hc hperm horder
    obtain ⟨-, hlookup, hperiodic⟩ := hbrings.resolve_left fun hb => hne hb.1
    obtain ⟨outside, hin, -⟩ := h.inputs p ((hmem p).mpr List.mem_cons_self)
    refine ⟨result, e, hresult, ?_, hperiodic, he⟩
    simp [common, hin, hlookup]

include hk

theorem Ring.exists_spread (hperiodic : e.isPeriodic = true)
    (he : e.members.map some = (others.reverse ++ [p]).map (v.opening? known)) (hx : x ∈ c) :
    ∃ e', (spread known e (others.reverse ++ [p])).lookup x = some e' ∧
      e'.members.map some = (List.iterate v.carried x c.length).map (v.opening? known) := by
  have hlist (y : InstrId) : y ∈ others.reverse ++ [p] ↔ y ∈ c := by
    rw [← hperm.mem_iff]
    simp [or_comm]
  obtain ⟨i, hi, hlookup⟩ := lookup_spread (d := e)
    (fun y hy => hc.unknown y ((hlist y).mp hy)) ((hlist x).mpr hx)
  obtain ⟨heq, hperiod⟩ := h.eq_iterate hc hperm horder
  have hterm : ∀ m ∈ e.members, m.IsTerm := by
    intro m hm
    have hmem : some m ∈ e.members.map some := List.mem_map_of_mem hm
    rw [he] at hmem
    obtain ⟨y, -, hy⟩ := List.mem_map.mp hmem
    exact isTerm_of_opening? hk hy
  have hx : v.carried^[i] (v.carried p) = x := by
    have hlt : i < c.length := by
      have := (List.getElem?_eq_some_iff.mp hi).1
      rwa [heq, List.length_iterate] at this
    rw [heq, List.getElem?_iterate _ _ _ _ hlt] at hi
    exact Option.some.inj hi
  refine ⟨_, hlookup, ?_⟩
  rw [(Descriptor.iterate_rotate_spec hperiodic hterm i).2, List.map_rotate, he, heq,
    ← List.map_rotate, rotate_iterate hperiod, hx]

/-- A ring of phis that is taken in order has descriptors just if each phi starts with an
invariant. Then the sequence of a phi is made of what the phis start with, on the way on which
they follow each other. -/
theorem Ring.lookup_classifyCycle (hx : x ∈ c) :
    (((v.classifyCycle known p others).lookup x).isSome →
      ∀ y ∈ c, (v.opening? known y).isSome) ∧
    ((∀ y ∈ c, (v.opening? known y).isSome) → ∃ e,
      (v.classifyCycle known p others).lookup x = some e ∧
      e.members.map some = (List.iterate v.carried x c.length).map (v.opening? known)) := by
  have hnone : known.lookup x = none := hc.unknown x hx
  have hothers : others ≠ [] := by
    rintro rfl
    have := hperm.length_eq ▸ h.several
    simp at this
  cases hp : v.opening? known p with
  | none =>
    have hclassify : v.classifyCycle known p others = known := by
      rw [LoopView.opening?] at hp
      rw [LoopView.classifyCycle, hp]
    refine ⟨fun hsome => ?_, fun hall => ?_⟩
    · rw [hclassify, hnone] at hsome
      cases hsome
    · have := hall p (hperm.mem_iff.mp List.mem_cons_self)
      rw [hp] at this
      cases this
  | some initial =>
    obtain ⟨hsome, hexists⟩ := h.back_eq hc hperm horder hp
    rw [classifyCycle_eq hothers hp]
    unfold classifyRound
    refine ⟨fun hlookup => hsome ?_, fun hall => ?_⟩
    · cases hm : v.meanings known p [] others with
      | none =>
        rw [hm, Option.bind_none, hnone] at hlookup
        cases hlookup
      | some _ => rfl
    · obtain ⟨result, e, hresult, hback, hperiodic, he⟩ := hexists hall
      have hinv : e.isInvariant = false := by
        cases e with
        | periodic a b => rfl
        | _ => cases hperiodic
      rw [hresult, Option.bind_some, hback]
      simp only [hinv, hperiodic, if_true, Bool.false_eq_true, if_false]
      exact h.exists_spread hk hc hperm horder hperiodic he hx

end Classified

end LoopView

namespace Setting

variable {R : Type} [Arithmetic R] {S : Setting R} {known cycle : Classes}
variable {c others : List InstrId} {p z : InstrId} {m : Descriptor}

/-- On a cycle of entry phis a member has a meaning only if it has one input from each side. -/
theorem Meaning.length_inputs (h : S.Meaning known cycle p z m) (hz : S.Inner z)
    (hentry : S.view.isEntryPhi z = true) (hcycle : ∀ t ∈ cycle, S.view.isMember t.1 = true) :
    (S.view.inputs z).length = 2 := by
  obtain ⟨y, inner, sources, hphi, -, hin⟩ := isEntryPhi_before hz hentry
  cases h with
  | forward _ _ hall =>
    obtain ⟨y', hy', hout⟩ := hin.exists_outer
    obtain rfl := List.mem_singleton.mp hy'
    have := hcycle _ (hall y' (by rw [hin.inputs]; exact List.mem_cons_self))
    rw [LoopView.isMember_eq_true_iff, hout] at this
    cases this.1
  | delay _ _ hpair _ _ =>
    rw [hpair]
    rfl
  | first hstep _ _ _ | next hstep _ _ _ _ =>
    rcases hstep with heq | ⟨-, heq⟩
    all_goals
      rw [hphi] at heq
      cases heq
  | reflect harith _ _ _ =>
    rw [hphi] at harith
    cases harith

/-- If meanings are found for several entry phis on a cycle of nothing else, they form a ring. -/
theorem ring_of_meanings (hinner : ∀ x ∈ c, S.Inner x)
    (hentry : ∀ x ∈ c, S.view.isEntryPhi x = true)
    (hperm : (p :: others).Perm c) (hne : others ≠ [])
    (h : S.view.meanings known p [] others = some cycle) : S.view.Ring c := by
  obtain ⟨-, hmem⟩ := mem_of_perm_cons hperm
  obtain ⟨-, hkeys, hmeaning⟩ := meanings_spec h
  have hkey {t : InstrId × Descriptor} (ht : t ∈ cycle) : t.1 ∈ others := by
    have := List.mem_map_of_mem (f := Prod.fst) ht
    rw [hkeys] at this
    simpa using this
  obtain ⟨z, hz⟩ := List.exists_mem_of_ne_nil others hne
  have hlength : (S.view.inputs z).length = 2 := by
    have : z ∈ cycle.map Prod.fst := by
      rw [hkeys]
      simpa using hz
    obtain ⟨t, ht, rfl⟩ := List.mem_map.mp this
    exact ((hmeaning t ht).resolve_left List.not_mem_nil).length_inputs (hinner _ (hmem _ hz))
      (hentry _ (hmem _ hz)) fun t ht => (hinner _ (hmem _ (hkey ht))).member
  obtain ⟨-, -, sources, hphi, hhome, -⟩ := isEntryPhi_before (hinner z (hmem z hz))
    (hentry z (hmem z hz))
  refine ⟨?_, fun x hx => ?_, fun x hx => ?_, fun x hx => ?_⟩
  · have := List.length_pos_iff.mpr hne
    rw [← hperm.length_eq, List.length_cons]
    omega
  all_goals
    obtain ⟨-, -, sources', hphi', hhome', -⟩ := isEntryPhi_before (hinner x hx) (hentry x hx)
  · have hcongr := (isEntryPhi_congr (hinner z (hmem z hz)) hphi hhome (hinner x hx) hphi' hhome').2
    obtain ⟨outside, w, hin⟩ := List.length_eq_two.mp (hcongr.symm.trans hlength)
    have hcarried : S.view.carried x = w := by rw [LoopView.carried, hin]; rfl
    have hlisted := (hinner x hx).listed (by rw [hphi']; rfl)
    exact ⟨outside, by rw [hcarried, hin], (headerInputs_pair hphi' hlisted hhome' hin).1⟩
  · exact hhome'
  · exact congrArg Instr.isPhi hphi'

end Setting

end LoopBounds
