import LoopBounds.Proofs.Classify.Stored
import LoopBounds.Proofs.Descriptor.Formed

/-!
# Stored descriptors are well formed

Whatever the function is like, the descriptors that a loop stores are well formed, and they
fetch only values from outside the loop that instructions of the loop use. A property of
operands that is inherited by their own operands therefore holds of all that is fetched.
-/

namespace LoopBounds

theorem Descriptor.FormedOver.rotate {P : InstrId → Prop} {d : Descriptor} (hd : d.FormedOver P) :
    d.rotate.FormedOver P := by
  refine ⟨?_, hd.fetches.rotate⟩
  cases d with
  | periodic a b =>
    have hmembers := hd.wellFormed.isTerm_of_mem_members rfl
    obtain ⟨hperiodic, hrotate⟩ := rotate_spec rfl hmembers
    generalize (periodic a b).rotate = e at hperiodic hrotate
    cases e with
    | periodic a' b' =>
      exact .periodic fun m hm => hmembers m (List.mem_rotate.mp (hrotate ▸ hm))
    | _ => cases hperiodic
  | _ => exact hd.wellFormed

namespace LoopView

open Descriptor Setting

variable {v : LoopView} {P : InstrId → Prop} {known cycle : Classes} {x y z p : InstrId}
variable {d initial : Descriptor} {others : List InstrId}

/-- All known descriptors are well formed and fetch only what has `P`. -/
def AllFormed (P : InstrId → Prop) (known : Classes) : Prop := ∀ t ∈ known, t.2.FormedOver P

/-- If the value is fetched, it has `P`. -/
def Fetchable (v : LoopView) (P : InstrId → Prop) (y : InstrId) : Prop :=
  v.isOutside y = true → v.func.constant? y = none → P y

/-- All operands that the instruction can fetch have `P`. -/
def Supplied (v : LoopView) (P : InstrId → Prop) (x : InstrId) : Prop :=
  ∀ y ∈ (v.func.instr x).operands, v.Fetchable P y

theorem Supplied.of_mem_inputs (hx : v.Supplied P x) (hy : y ∈ v.inputs x) : v.Fetchable P y :=
  hx y (mem_inputs_iff.mp hy)

section Lookup

theorem AllFormed.cons (hk : AllFormed P known) (hd : d.FormedOver P) :
    AllFormed P ((x, d) :: known) := List.forall_mem_cons.mpr ⟨hd, hk⟩

theorem AllFormed.lookup_cycle (hk : AllFormed P known) (h : known.lookup y = some d) :
    d.FormedOver P := hk _ (mem_of_lookup h)

theorem termOver_fetch_func (hy : v.Fetchable P y) (hout : v.isOutside y = true) :
    (v.func.fetch y).TermOver P := by
  unfold Func.fetch
  split
  · exact termOver_constant _
  · exact termOver_fetch (hy hout ‹_›)

theorem AllFormed.lookup (hk : AllFormed P known) (h : v.lookup known y = some d)
    (hy : v.Fetchable P y) : d.FormedOver P := by
  unfold LoopView.lookup at h
  split at h
  · rename_i e he
    exact Option.some.inj h ▸ hk.lookup_cycle he
  · split_ifs at h with hout
    exact Option.some.inj h ▸ (termOver_fetch_func hy hout).formed

theorem AllFormed.invariant? (hk : AllFormed P known) (h : v.invariant? known y = some d)
    (hy : v.Fetchable P y) : d.TermOver P :=
  (hk.lookup (invariant?_eq_some h).1 hy).term (invariant?_eq_some h).2

theorem AllFormed.common (hk : AllFormed P known) (hx : v.Supplied P x) {start : ℕ}
    (h : v.common (v.lookup known) x start = some d) : d.FormedOver P := by
  obtain ⟨⟨y, hy⟩, hall⟩ := common_eq_some h
  exact hk.lookup (hall y hy) (hx.of_mem_inputs (List.mem_of_mem_drop hy))

theorem AllFormed.common_cycle (hc : AllFormed P cycle) {start : ℕ}
    (h : v.common (fun y => cycle.lookup y) x start = some d) : d.FormedOver P := by
  obtain ⟨⟨y, hy⟩, hall⟩ := common_eq_some h
  exact hc.lookup_cycle (hall y hy)

end Lookup

section Classified

theorem AllFormed.classifyTrivial (hk : AllFormed P known) (hx : v.Supplied P x)
    (h : v.classifyTrivial known x = some d) : d.FormedOver P := by
  unfold LoopView.classifyTrivial at h
  split at h
  · exact hk.common hx h
  · rename_i op y z harith
    have hoperand {w : InstrId} (hw : w ∈ [y, z]) : v.Fetchable P w :=
      hx w (by rw [harith]; exact hw)
    by_cases hrem : op = .rem
    · simp [hrem] at h
    simp only [if_neg hrem, bind, Option.bind_eq_some_iff] at h
    obtain ⟨a, ha, b, hb, h⟩ := h
    have ha := hk.lookup ha (hoperand (by simp))
    have hb := hk.lookup hb (hoperand (by simp))
    cases op with
    | add => exact ha.sum? hb h
    | sub => exact ha.sum? hb h
    | mul => exact ha.mul? hb h
    | div => exact ha.div? hb h
    | shl =>
      obtain ⟨c, -, hd⟩ := Option.bind_eq_some_iff.mp h
      exact ha.shl? hd
    | rem => exact absurd rfl hrem
  · rename_i y hneg
    simp only [bind, Option.bind_eq_some_iff] at h
    obtain ⟨a, ha, hd⟩ := h
    exact (hk.lookup ha (hx y (by rw [hneg]; exact List.mem_singleton_self y))).neg? hd
  · cases h

theorem AllFormed.addTrivial (hk : AllFormed P known) (hx : v.Supplied P x) :
    AllFormed P (v.addTrivial known x) := by
  unfold LoopView.addTrivial
  split
  · exact hk.cons (hk.classifyTrivial hx ‹_›)
  · exact hk

theorem AllFormed.foldl_addTrivial (hk : AllFormed P known)
    (hothers : ∀ x ∈ others, v.Supplied P x) :
    AllFormed P (others.foldl v.addTrivial known) :=
  List.foldlRecOn _ _ hk fun _ hk x hx => hk.addTrivial (hothers x hx)

theorem AllFormed.spread (hk : AllFormed P known) (hd : d.FormedOver P) :
    AllFormed P (LoopView.spread known d others) := by
  induction others generalizing known d with
  | nil => exact hk
  | cons x others ih => exact ih (hk.cons hd) hd.rotate

end Classified

section Cycle

variable (hk : AllFormed P known) (hp : v.Supplied P p)
variable (hstart : v.start? known p = some initial) (hinitial : initial.TermOver P)

include hk

theorem AllFormed.start (hp : v.Supplied P p) (h : v.start? known p = some d) :
    d.FormedOver P := by
  obtain ⟨y, hy, h⟩ := Option.bind_eq_some_iff.mp h
  exact hk.lookup h (hp.of_mem_inputs (List.mem_of_mem_head? hy))

include hstart hinitial in
theorem AllFormed.phiMeaning (hc : AllFormed P cycle) (hz : v.Supplied P z)
    (h : v.phiMeaning known cycle p z = some d) : d.FormedOver P := by
  unfold LoopView.phiMeaning at h
  split at h
  · rename_i e he
    exact Option.some.inj h ▸ hc.common_cycle he
  · split at h
    · rename_i outside carried hin
      have houtside {first : Descriptor} (h : v.invariant? known outside = some first) :
          first.TermOver P := hk.invariant? h (hz.of_mem_inputs (by simp [hin]))
      split_ifs at h
      · obtain ⟨first, hfirst, h⟩ := Option.bind_eq_some_iff.mp h
        simp only [hstart, bind, Option.bind_some] at h
        exact Option.some.inj h ▸ formedOver_periodic (houtside hfirst) hinitial.formed
          (.inl hinitial.isTerm.isInvariant)
      · obtain ⟨first, hfirst, h⟩ := Option.bind_eq_some_iff.mp h
        obtain ⟨rest, hrest, h⟩ := Option.bind_eq_some_iff.mp h
        split_ifs at h with hperiodic
        exact Option.some.inj h ▸ formedOver_periodic (houtside hfirst) (hc.common_cycle hrest)
          (.inr hperiodic)
    · cases h

theorem AllFormed.stepMeaning (hc : AllFormed P cycle) {minus : Bool} (hy : v.Fetchable P y)
    (h : v.stepMeaning known cycle p minus x y = some d) : d.TermOver P := by
  obtain ⟨b, hb, h⟩ := Option.bind_eq_some_iff.mp h
  have hb := hk.invariant? hb hy
  split_ifs at h
  · exact Option.some.inj h ▸ hb.negated
  · exact Option.some.inj h ▸ hb
  · obtain ⟨a, ha, h⟩ := Option.bind_eq_some_iff.mp h
    obtain ⟨ha, hinv⟩ := Option.filter_eq_some_iff.mp ha
    exact Option.some.inj h ▸ ((hc.lookup_cycle ha).term hinv).sum minus hb

include hstart hinitial in
theorem AllFormed.reflectMeaning (hx : v.Fetchable P x)
    (h : v.reflectMeaning known p z x y = some d) : d.FormedOver P := by
  unfold LoopView.reflectMeaning at h
  split at h
  · rename_i outside carried hin
    split_ifs at h
    obtain ⟨a, ha, h⟩ := Option.bind_eq_some_iff.mp h
    have houtside : v.lookup known outside = some initial := by
      simpa [LoopView.start?, hin] using hstart
    simp only [houtside, bind, Option.bind_some] at h
    exact Option.some.inj h ▸ formedOver_periodic
      ((hk.invariant? ha hx).sum true hinitial) hinitial.formed (.inl hinitial.isTerm.isInvariant)
  · cases h

include hstart hinitial in
theorem AllFormed.meaning (hc : AllFormed P cycle) (hz : v.Supplied P z)
    (h : v.meaning known cycle p z = some d) : d.FormedOver P := by
  unfold LoopView.meaning at h
  split at h
  · exact hk.phiMeaning hstart hinitial hc hz h
  · rename_i x y hadd
    have hx : v.Fetchable P x := hz x (by rw [hadd]; simp [Instr.operands])
    have hy : v.Fetchable P y := hz y (by rw [hadd]; simp [Instr.operands])
    rw [Option.orElse_eq_orElse, Option.orElse_eq_or, Option.or_eq_some_iff] at h
    rcases h with h | ⟨-, h⟩
    · exact (hk.stepMeaning hc hy h).formed
    · exact (hk.stepMeaning hc hx h).formed
  · rename_i x y hsub
    have hx : v.Fetchable P x := hz x (by rw [hsub]; simp [Instr.operands])
    have hy : v.Fetchable P y := hz y (by rw [hsub]; simp [Instr.operands])
    rw [Option.orElse_eq_orElse, Option.orElse_eq_or, Option.or_eq_some_iff] at h
    rcases h with h | ⟨-, h⟩
    · exact (hk.stepMeaning hc hy h).formed
    · exact hk.reflectMeaning hstart hinitial hx h
  · cases h

include hstart hinitial in
theorem AllFormed.meanings (hc : AllFormed P cycle) (hothers : ∀ x ∈ others, v.Supplied P x)
    {result : Classes} (h : v.meanings known p cycle others = some result) :
    AllFormed P result := by
  induction others generalizing cycle with
  | nil => exact Option.some.inj h ▸ hc
  | cons z others ih =>
    obtain ⟨d, hd, h⟩ := Option.bind_eq_some_iff.mp h
    have hd := hk.meaning hstart hinitial hc (hothers z List.mem_cons_self) hd
    exact ih (hc.cons hd) (fun x hx => hothers x (List.mem_cons_of_mem _ hx)) h

include hp hinitial in
theorem AllFormed.classifyAlone : AllFormed P (v.classifyAlone known p initial) := by
  unfold LoopView.classifyAlone
  split
  · rename_i update hupdate
    exact hk.cons (formedOver_wrapAround hinitial (hk.common hp hupdate))
  · exact hk

include hstart hinitial in
theorem AllFormed.classifyRound (hothers : ∀ x ∈ others, v.Supplied P x) :
    AllFormed P (v.classifyRound known p others initial) := by
  unfold LoopView.classifyRound
  dsimp only
  split
  · exact hk
  · rename_i d hd
    obtain ⟨cycle, hmeanings, hcommon⟩ := Option.bind_eq_some_iff.mp hd
    have hc :=
      hk.meanings hstart hinitial (fun t ht => absurd ht List.not_mem_nil) hothers hmeanings
    have hd := hc.common_cycle hcommon
    split_ifs with hinv
    · exact (hk.cons (formedOver_linear (hd.term hinv) hinitial)).foldl_addTrivial hothers
    · exact hk.spread hd
    · exact hk

include hp in
theorem AllFormed.classifyCycle (hothers : ∀ x ∈ others, v.Supplied P x) :
    AllFormed P (v.classifyCycle known p others) := by
  unfold LoopView.classifyCycle
  split
  · exact hk
  · rename_i initial hfilter
    obtain ⟨hstart, hinv⟩ := Option.filter_eq_some_iff.mp hfilter
    have hinitial := (hk.start hp hstart).term hinv
    split
    · exact hk.classifyAlone hp hinitial
    · exact hk.classifyRound hstart hinitial hothers

end Cycle

theorem AllFormed.classifyComponent (hk : AllFormed P known) {component : List InstrId}
    (hcomponent : ∀ x ∈ component, v.Supplied P x) :
    AllFormed P (v.classifyComponent known component) := by
  unfold LoopView.classifyComponent
  split
  · exact hk.addTrivial (hcomponent _ List.mem_cons_self)
  · exact hk
  · split
    · exact hk
    · rename_i p others hfrom
      have hmem : ∀ x ∈ p :: others, v.Supplied P x := fun x hx =>
        hcomponent x ((v.fromEntry_perm _).mem_iff.mp (hfrom ▸ hx))
      exact hk.classifyCycle (hmem p List.mem_cons_self)
        fun x hx => hmem x (List.mem_cons_of_mem _ hx)

/-- Every value classified is well formed and fetches what has `P`, if all that instructions with
`q` use has `P`, and the instructions of the loop and their dependencies have `q`. -/
theorem allFormed_classes {q : InstrId → Prop} (hdeps : ∀ x y, q x → y ∈ v.deps x → q y)
    (hmembers : ∀ x ∈ v.members, q x) (hsupplied : ∀ x, q x → v.Supplied P x) :
    AllFormed P v.classes :=
  v.classes_induction hdeps hmembers (fun _ ht => absurd ht List.not_mem_nil)
    fun _ _ hk hc => hk.classifyComponent fun x hx => hsupplied x (hc x hx)

section TripCount

variable {control : InstrId}

theorem control?_eq_some {a b : Descriptor} {cmp : Comparison}
    (h : v.control? known control = some (a, b, cmp)) :
    ∃ c t e op l r, v.func.instr control = .branch c t e ∧ v.func.instr c = .compare op l r ∧
      v.lookup known l = some a ∧ v.lookup known r = some b := by
  unfold LoopView.control? at h
  split at h
  · rename_i c t e hbranch
    split at h
    · rename_i op l r hcompare
      obtain ⟨a', ha, h⟩ := Option.bind_eq_some_iff.mp h
      obtain ⟨b', hb, h⟩ := Option.bind_eq_some_iff.mp h
      refine ⟨c, t, e, op, l, r, hbranch, hcompare, ?_⟩
      split at h <;> cases h <;> exact ⟨ha, hb⟩
    · cases h
  · cases h

theorem AllFormed.exists_condition (hk : AllFormed P known)
    (hcontrol : ∀ c ∈ (v.func.instr control).operands, v.Supplied P c)
    (h : v.tripCount? known control = some d) :
    ∃ a b cmp, a.FormedOver P ∧ b.FormedOver P ∧ conditionTripCount? a b cmp = some d := by
  obtain ⟨⟨a, b, cmp⟩, htest, h⟩ := Option.bind_eq_some_iff.mp h
  obtain ⟨c, t, e, op, l, r, hbranch, hcompare, ha, hb⟩ := control?_eq_some htest
  have hc : v.Supplied P c := hcontrol c (by rw [hbranch]; simp [Instr.operands])
  have ha := hk.lookup ha (hc l (by rw [hcompare]; simp [Instr.operands]))
  have hb := hk.lookup hb (hc r (by rw [hcompare]; simp [Instr.operands]))
  exact ⟨a, b, cmp, ha, hb, h⟩

theorem AllFormed.tripCount? (hk : AllFormed P known)
    (hcontrol : ∀ c ∈ (v.func.instr control).operands, v.Supplied P c)
    (h : v.tripCount? known control = some d) : d.IsTripCount ∧ d.FetchesOnly P := by
  obtain ⟨a, b, cmp, ha, hb, h⟩ := hk.exists_condition hcontrol h
  exact ⟨isTripCount_of_conditionTripCount? ha.wellFormed hb.wellFormed h,
    ha.fetches.conditionTripCount? hb.fetches h⟩

end TripCount

end LoopView

namespace Analysis

variable {f : Func} {P : InstrId → Prop} {l : LoopId} {x : InstrId} {d : Descriptor}

/-- What a stored descriptor fetches has every property that operands have and that their own
operands inherit. -/
theorem fetchesOnly_of_stored? (hclosed : ∀ x, P x → ∀ y ∈ (f.instr x).operands, P y)
    (hlisted : ∀ b, ∀ x ∈ (f.block b).instrs, ∀ y ∈ (f.instr x).operands, P y)
    (h : (ofFunc f).stored? l x = some d) : d.FetchesOnly P := by
  have hl := lt_of_stored? h
  rw [stored?, classesOf_ofFunc hl] at h
  let v : LoopView := ⟨f, f.flow.loopForest, l⟩
  have hsupplied (x : InstrId) (hx : ∀ y ∈ (f.instr x).operands, P y) : v.Supplied P x :=
    fun y hy _ _ => hx y hy
  have hclasses : LoopView.AllFormed P v.classes :=
    LoopView.allFormed_classes (q := fun x => ∀ y ∈ (f.instr x).operands, P y)
      (fun x y hx hy => hclosed y (hx y
        (LoopView.mem_inputs_iff.mp (List.mem_of_mem_filter hy))))
      (fun x hx => by
        obtain ⟨b, -, hx⟩ := List.mem_flatMap.mp hx
        exact hlisted b x hx)
      hsupplied
  rcases LoopView.lookup_classesWithTripCount h with h | ⟨hcontrol, h⟩
  · exact (hclasses _ h).fetches
  · have hcontrol := hlisted v.header x (List.mem_append_right _ (Option.mem_toList.mpr hcontrol))
    exact (hclasses.tripCount? (fun c hc => hsupplied c (hclosed c (hcontrol c hc))) h).2

end Analysis

end LoopBounds
