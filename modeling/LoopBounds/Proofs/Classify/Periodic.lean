import LoopBounds.Proofs.Classify.Components
import LoopBounds.Proofs.Classify.Cycle

/-!
# Cycles that pass a sequence on

On a cycle that closes with a periodic sequence every member has that sequence, started
at a place that its own meaning tells: a meaning of `j` members is the end of the sequence,
and the member starts at the first of these. This rests on the cycle being strongly
connected, as then every member takes part in what comes back to the phi.
-/

namespace LoopBounds

namespace Descriptor

variable {d last : Descriptor}

theorem members_appendLast (h : last.IsTerm) :
    (appendLast last d).members = d.members ++ [last] := by
  induction d with
  | periodic a b _ ihb => rw [appendLast, members, ihb, members, List.cons_append]
  | _ => simp only [appendLast, members, h.members_eq, List.singleton_append]

theorem isPeriodic_appendLast : (appendLast last d).isPeriodic = true := by
  cases d <;> rfl

theorem rotate_spec (hp : d.isPeriodic = true) (hm : ∀ m ∈ d.members, m.IsTerm) :
    d.rotate.isPeriodic = true ∧ d.rotate.members = d.members.rotate 1 := by
  cases d with
  | periodic a b =>
    refine ⟨isPeriodic_appendLast, ?_⟩
    rw [rotate, members_appendLast (hm a List.mem_cons_self), members, List.rotate_cons_succ,
      List.rotate_zero]
  | _ => cases hp

theorem iterate_rotate_spec (hp : d.isPeriodic = true) (hm : ∀ m ∈ d.members, m.IsTerm)
    (i : ℕ) : (rotate^[i] d).isPeriodic = true ∧ (rotate^[i] d).members = d.members.rotate i := by
  induction i with
  | zero => exact ⟨hp, (List.rotate_zero _).symm⟩
  | succ i ih =>
    obtain ⟨hpi, hmi⟩ := ih
    rw [Function.iterate_succ_apply']
    have hterm : ∀ m ∈ (rotate^[i] d).members, m.IsTerm := fun m hm' =>
      hm m (List.mem_rotate.mp (hmi ▸ hm'))
    obtain ⟨hp', hm''⟩ := rotate_spec hpi hterm
    exact ⟨hp', by rw [hm'', hmi, List.rotate_rotate]⟩

theorem IsTerm.isPeriodic (h : d.IsTerm) : d.isPeriodic = false := by
  cases h <;> rfl

theorem two_le_length_members (hp : d.isPeriodic = true) : 2 ≤ d.members.length := by
  cases d with
  | periodic a b =>
    have := List.length_pos_iff.mpr (members_ne_nil b)
    rw [members, List.length_cons]
    omega
  | _ => cases hp

end Descriptor

namespace LoopView

variable (v : LoopView)

/-- The place in the sequence of the cycle at which a member starts. -/
def startPlace (cycle : Classes) (p : InstrId) (length : ℕ) (x : InstrId) : ℕ :=
  if x = p then length - 1
  else length - ((cycle.lookup x).map fun m => m.members.length).getD 0

/-- The meanings of a cycle that closes with a periodic sequence, and the sequence. -/
def round? (known : Classes) (p : InstrId) (others : List InstrId) :
    Option (Classes × Descriptor) := do
  let cycle ← v.meanings known p [] others
  let d ← v.common (fun y => cycle.lookup y) p 1
  if d.isPeriodic then some (cycle, d) else none

/-- How many places a value that starts at place `start` of the sequence `l` is ahead of the
sequence started at place `i`. -/
def placesAhead (l : List Descriptor) (i start : ℕ) : ℕ :=
  if l.rotate i = l.rotate start then 0 else (start + (l.length - i % l.length)) % l.length

/-- How many places the members of a cycle are ahead of the sequences that they are given. -/
def roundPlaces (p : InstrId) (others : List InstrId) (cycle : Classes) (d : Descriptor) :
    List (InstrId × Option ℕ) :=
  (others.reverse ++ [p]).zipIdx.map fun (x, i) =>
    (x, some (placesAhead d.members i (startPlace cycle p d.members.length x)))

theorem rotate_placesAhead (l : List Descriptor) (i start : ℕ) :
    l.rotate (i + placesAhead l i start) = l.rotate start := by
  unfold placesAhead
  split_ifs with h
  · exact h
  · cases hl : l.length with
    | zero => rw [List.eq_nil_of_length_eq_zero hl, List.rotate_nil, List.rotate_nil]
    | succ m =>
      have hmod : i % (m + 1) < m + 1 := Nat.mod_lt i m.succ_pos
      have hdiv := Nat.div_add_mod i (m + 1)
      have hsum : i + (start + (m + 1 - i % (m + 1))) = start + (m + 1) * (i / (m + 1) + 1) := by
        rw [Nat.mul_succ]
        omega
      rw [← List.rotate_mod l (i + _), hl, Nat.add_mod_mod, hsum, Nat.add_mul_mod_self_left, ← hl,
        List.rotate_mod]

/-- The values given by `spread` start one place later from one member to the next. -/
theorem mem_spread {known : Classes} {d : Descriptor} {xs : List InstrId}
    {t : InstrId × Descriptor} (ht : t ∈ spread known d xs) :
    t ∈ known ∨ ∃ i, xs[i]? = some t.1 ∧ t.2 = Descriptor.rotate^[i] d := by
  induction xs generalizing known d with
  | nil => exact .inl ht
  | cons x xs ih =>
    rcases ih ht with ht | ⟨i, hx, ht⟩
    · rcases List.mem_cons.mp ht with rfl | ht
      · exact .inr ⟨0, rfl, rfl⟩
      · exact .inl ht
    · exact .inr ⟨i + 1, hx, ht⟩

end LoopView

namespace Setting

open Components

variable {R : Type} [Arithmetic R] {S : Setting R} {ahead : InstrId → Option ℕ}
variable {known cycle : Classes} {p : InstrId} {initial d : Descriptor} {s s' : State}
variable {component : List InstrId}

section Place

variable {ρ : InstrId → R} {n j : ℕ} {r : R}

/-- The value is the member of the sequence `d` with which its last `j` members begin, `n`
places on. -/
def placeClaim (d : Descriptor) (j : ℕ) : Claim R := fun ρ n r =>
  (d.members.map (Descriptor.value ρ))[(n + (d.members.length - j)) % d.members.length]? = some r

theorem placeClaim_succ (hj : j < d.members.length) (h : placeClaim d j ρ n r) :
    placeClaim d (j + 1) ρ (n + 1) r := by
  have hn : n + 1 + (d.members.length - (j + 1)) = n + (d.members.length - j) := by omega
  rwa [placeClaim, hn]

theorem placeClaim_wrap (hd : 2 ≤ d.members.length) (h : placeClaim d d.members.length ρ n r) :
    placeClaim d 1 ρ (n + 1) r := by
  have hn : n + 1 + (d.members.length - 1) = n + d.members.length := by omega
  rw [placeClaim, Nat.sub_self, Nat.add_zero] at h
  rwa [placeClaim, hn, Nat.add_mod_right]

theorem placeClaim_zero {first : Descriptor} {rest : List Descriptor}
    (h : first :: rest <:+ d.members) :
    placeClaim d (first :: rest).length ρ 0 (first.value ρ) := by
  obtain ⟨before, heq⟩ := h
  have hlen : d.members.length - (first :: rest).length = before.length := by
    rw [← heq, List.length_append, Nat.add_sub_cancel]
  have hlt : before.length < d.members.length := by
    rw [← heq, List.length_append, List.length_cons]
    omega
  rw [placeClaim, hlen, zero_add, Nat.mod_eq_of_lt hlt, ← heq, List.getElem?_map,
    List.getElem?_append_right le_rfl, Nat.sub_self]
  rfl

/-- The difference of `a` and a value that alternates with it alternates the other way. -/
theorem placeClaim_reflect {a : Descriptor} (ha : a.IsTerm) (hi : initial.IsTerm)
    (h : placeClaim (.periodic (.combine .sub (some a) initial) initial) 1 ρ n r) :
    placeClaim (.periodic (.combine .sub (some a) initial) initial) 2 ρ n (a.value ρ - r) := by
  have hdiff : (Descriptor.combine .sub (some a) initial).value ρ =
      a.value ρ - initial.value ρ := (Descriptor.termOf_sum ha true hi).2
  simp only [placeClaim, Descriptor.members, hi.members_eq, List.map_cons, List.map_nil, hdiff,
    List.length_cons, List.length_nil] at h ⊢
  rcases Nat.mod_two_eq_zero_or_one n with hn | hn
  · have hn' : (n + 1) % 2 = 1 := by omega
    simp only [hn', Nat.zero_add, Nat.reduceAdd, Nat.reduceSub, List.getElem?_cons_succ,
      List.getElem?_cons_zero, Option.some.injEq] at h
    simp [hn, ← h]
  · have hn' : (n + 1) % 2 = 0 := by omega
    simp only [hn', Nat.zero_add, Nat.reduceAdd, Nat.reduceSub, List.getElem?_cons_zero,
      Option.some.injEq] at h
    simp [hn, ← h]

end Place

/-- A member of the cycle has a sequence that the sequence `d` ends with. -/
def Delayed (cycle : Classes) (d : Descriptor) (z : InstrId) : Prop :=
  ∃ m, (z, m) ∈ cycle ∧ m.isPeriodic = true ∧ m.members <:+ d.members

section Round

variable (hk : S.Sound ahead known) (hp : S.EntryPhi p initial) (hc : S.Cycle known p cycle)
variable (hproper : ∀ t ∈ cycle, Proper initial t.2)
variable (hback : ∀ y ∈ (S.view.inputs p).drop 1, (y, d) ∈ cycle)

include hk hp hc hproper hback

/-- What a delayed member or the phi depends on within the cycle is delayed, too. -/
theorem delayed_of_deps (hd : d.isPeriodic = true)
    (hknown : ∀ x e, (x, e) ∈ known → x ∉ component) {x y : InstrId}
    (hx : x = p ∨ Delayed cycle d x) (hy : y ∈ S.view.deps x) (hycomp : y ∈ component) :
    y = p ∨ Delayed cycle d y := by
  obtain ⟨hyin, hmember⟩ := mem_deps.mp hy
  have hnot : S.view.isOutside y ≠ true := by
    rw [not_isOutside_of_isMember hmember]
    exact Bool.false_ne_true
  rcases hx with rfl | ⟨m, hmem, hm, hsuffix⟩
  · obtain ⟨outside, rest, hin, hout, -⟩ := hp.inputs
    rw [hin] at hyin hback
    rcases List.mem_cons.mp hyin with rfl | hyin
    · exact absurd hout hnot
    · exact .inr ⟨d, hback y hyin, hd, List.suffix_rfl⟩
  · cases hc.meaning _ _ hmem with
    | forward _ _ hall => exact .inr ⟨m, hall y hyin, hm, hsuffix⟩
    | @delay sources outside carried first rest hz hhome hin _ hrest =>
      rw [hin] at hyin
      have hcarried : y = carried := by
        rcases List.mem_cons.mp hyin with rfl | hyin
        · exact absurd (headerInputs_pair hz (hc.listed hmem) hhome hin).1 hnot
        · exact List.mem_singleton.mp hyin
      subst hcarried
      rcases hrest with ⟨rfl, -⟩ | ⟨hrestmem, hrest⟩
      · exact .inl rfl
      · exact .inr ⟨rest, hrestmem, hrest, (List.suffix_cons first rest.members).trans hsuffix⟩
    | first _ _ hb heq =>
      rw [(isTerm_of_first (isTerm_of_invariant? hk hb) heq).isPeriodic] at hm
      cases hm
    | next _ hmem' ha hb heq =>
      rw [(isTerm_of_next ((hproper _ hmem').isTerm ha) (isTerm_of_invariant? hk hb)
        heq).isPeriodic] at hm
      cases hm
    | @reflect x' outside a start hz hin ha _ =>
      left
      have hyin : y ∈ [x', p] := by
        have hz' : S.view.func.instr x = .arith .sub x' p := hz
        unfold LoopView.inputs at hyin
        rw [hz'] at hyin
        exact hyin
      rcases List.mem_cons.mp hyin with rfl | hyin
      · have hmem' := mem_known_of_lookup (invariant?_eq_some ha).1 hnot
        exact absurd hycomp (hknown _ _ hmem')
      · exact List.mem_singleton.mp hyin

/-- In a strongly connected component every member is delayed. -/
theorem delayed_of_joined (hd : d.isPeriodic = true)
    (hknown : ∀ x e, (x, e) ∈ known → x ∉ component) (hjoined : Joined S.view.deps component)
    (hpcomp : p ∈ component) {z : InstrId} (hz : z ∈ component) (hne : z ≠ p) :
    Delayed cycle d z := by
  suffices h : ∀ x y, Leads S.view.deps (· ∈ component) x y →
      x = p ∨ Delayed cycle d x → y = p ∨ Delayed cycle d y from
    (h p z (hjoined p hpcomp z hz) (.inl rfl)).resolve_left hne
  intro x y hpath
  induction hpath with
  | refl _ => exact fun h => h
  | step hx hy hrest ih =>
    exact fun h => ih (delayed_of_deps hk hp hc hproper hback hd hknown h hy hrest.left)

omit hk hp hc hproper hback in
/-- The claims on a cycle that closes with the periodic sequence `d`: the place of the
sequence at which each value is. -/
inductive RoundClaim (cycle : Classes) (p : InstrId) (d : Descriptor) :
    InstrId → Claim R → Prop
  | phi : RoundClaim cycle p d p (placeClaim d 1)
  | member {z m} : (z, m) ∈ cycle → m.isPeriodic = true → m.members <:+ d.members →
      RoundClaim cycle p d z (placeClaim d m.members.length)

omit hproper hback in
theorem place_of_delay {sources : List (InstrId × BlockId)} {z outside carried : InstrId}
    {first rest : Descriptor} {ρ : InstrId → R} (hz : S.func.instr z = .phi sources)
    (hlisted : S.func.Listed z) (hhome : S.func.home z = S.loop.header)
    (hinputs : S.view.inputs z = [outside, carried])
    (hfirst : S.view.invariant? known outside = some first)
    (hrest : carried = p ∧ S.view.start? known p = some rest ∨
      (carried, rest) ∈ cycle ∧ rest.isPeriodic = true)
    (hlen : 2 ≤ d.members.length)
    (hsuffix : (Descriptor.periodic first rest).members <:+ d.members) (hs : S.Run s)
    (ha : S.allowed s) (h : S.func.step? s = some s') (hin : s'.here ∈ S.loop.blocks)
    (hmeets : s.here ∈ S.loop.blocks → ∀ y φ, RoundClaim cycle p d y φ →
      S.loop.Current S.func s y → S.Meets s y φ)
    (hexec : z ∈ S.func.executed s s') (hρ : S.Fetches s' ρ) :
    placeClaim d (Descriptor.periodic first rest).members.length ρ (S.iteration s')
      (s'.reading R z) := by
  have hρ' : S.Fetches s ρ := hρ.of_step hs h hin
  obtain ⟨y, b, hsource, hread, rfl, harrival⟩ := arrival_of_executed hs h hin hexec hz
  obtain ⟨hout, hside⟩ := headerInputs_pair hz hlisted hhome hinputs
  obtain ⟨houter, hinner⟩ := hside y _ hsource
  cases harrival with
  | inside hne _ _ _ => exact absurd hhome hne
  | outside _ hhere hiter hyout hsame =>
    obtain rfl := houter hhere
    have hfetch : first = S.func.fetch y := Option.some.inj
      ((invariant?_eq_some hfirst).1.symm.trans (lookup_of_isOutside hk hout))
    rw [hiter, hread, ← hsame, ← value_fetch (hs.step ha h) hout hρ, ← hfetch]
    exact placeClaim_zero hsuffix
  | around _ hhere hiter hready =>
    obtain rfl := hinner hhere
    rw [hiter, hread]
    rcases hrest with ⟨rfl, hrest⟩ | ⟨hrestmem, hrest⟩
    · rw [hp.start?_eq hk, Option.some.injEq] at hrest
      subst hrest
      have := hmeets hhere y _ .phi (hp.current hready) ρ hρ'
      rw [Descriptor.members, hp.isTerm.members_eq]
      exact placeClaim_succ (Nat.lt_of_lt_of_le Nat.one_lt_two hlen) this
    · have hsuffix' : rest.members <:+ d.members :=
        (List.suffix_cons first rest.members).trans hsuffix
      have hlt : rest.members.length < d.members.length := hsuffix.length_le
      exact placeClaim_succ hlt (hmeets hhere y _ (.member hrestmem hrest hsuffix')
        (current_of_cycle hc hrestmem hready) ρ hρ')

theorem follows_round (hd : d.isPeriodic = true)
    (hinner : ∃ y, y ∈ (S.view.inputs p).drop 1)
    (hunique : ∀ z m m', (z, m) ∈ cycle → (z, m') ∈ cycle → m = m') :
    ∀ x φ, RoundClaim (R := R) cycle p d x φ → S.Follows x φ := by
  have hlen := Descriptor.two_le_length_members hd
  obtain ⟨y₀, hy₀⟩ := hinner
  have hlast : d.members.getLast? = some initial := (hproper _ (hback y₀ hy₀)).last hd
  refine follows_of_step _ ?_ ?_
  · intro x φ hx
    cases hx with
    | phi => exact hp.listed
    | member hmem _ _ => exact hc.listed hmem
  intro s s' hs ha h hin hmeets x φ hx hexec ρ hρ
  have hρ' : S.Fetches s ρ := hρ.of_step hs h hin
  cases hx with
  | phi =>
    rcases hp.executed hs ha h hin hexec with ⟨hiter, hval⟩ | ⟨y, hy, hhere, hready, hiter, hval⟩
    · rw [hiter, hval ρ hρ]
      exact placeClaim_zero (List.singleton_suffix_iff_getLast?_eq_some.mpr hlast)
    · have hmem := hback y hy
      rw [hiter, hval]
      exact placeClaim_wrap hlen (hmeets hhere y _ (.member hmem hd List.suffix_rfl)
        (current_of_cycle hc hmem hready) ρ hρ')
  | @member _ m hmem hm hsuffix =>
    cases hc.meaning _ _ hmem with
    | forward hz _ hall =>
      obtain ⟨y, hy, hhere, hiter, hcur, hval⟩ :=
        forward_executed hc hz (hc.listed hmem) hall hs h hin hexec
      rw [hiter, hval]
      exact hmeets hhere y _ (.member hy hm hsuffix) hcur ρ hρ'
    | delay hz hhome hinputs hfirst hrest =>
      exact place_of_delay hk hp hc hz (hc.listed hmem) hhome hinputs hfirst hrest hlen hsuffix hs
        ha h hin hmeets hexec hρ
    | first _ _ hb heq =>
      rw [(isTerm_of_first (isTerm_of_invariant? hk hb) heq).isPeriodic] at hm
      cases hm
    | next _ hmem' ha hb heq =>
      rw [(isTerm_of_next ((hproper _ hmem').isTerm ha) (isTerm_of_invariant? hk hb)
        heq).isPeriodic] at hm
      cases hm
    | @reflect x' outside a start hz hinputs ha' hstart =>
      obtain rfl := (eq_start_of_reflect hk hp hinputs hstart).symm
      have hmemd := hback _ (by rw [hinputs]; exact List.mem_cons_self)
      obtain rfl := hunique _ _ _ hmem hmemd
      obtain ⟨hhere, hiter, hrx, hrp, hval⟩ :=
        arith_executed hs ha h hin
          (show _ = Instr.arith (if true then .sub else .add) _ _ from hz) hexec
      have hphi := hmeets hhere p _ .phi (hp.current hrp) ρ hρ'
      rw [hiter, hval, reading_of_invariant? hk hs hhere hρ' ha' hrx]
      have hlength : (Descriptor.periodic (.combine .sub (some a) initial) initial).members.length
          = 2 := by rw [Descriptor.members, hp.isTerm.members_eq]; rfl
      rw [hlength]
      exact placeClaim_reflect (isTerm_of_invariant? hk ha') hp.isTerm hphi

end Round

end Setting

end LoopBounds
