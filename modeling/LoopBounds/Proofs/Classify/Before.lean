import LoopBounds.Proofs.Classify.Test
import LoopBounds.Proofs.Descriptor.Fetched
import LoopBounds.Proofs.Flow.Nesting

/-!
# What a loop fetches is there before it

A stored descriptor fetches only values whose definitions dominate the header from outside
the loop. An operand of an instruction of the loop is defined on every way to it; if that is
not in the loop, it lies before the header. The sources of a phi are defined on the ways from
some predecessor only, and a predecessor that control never comes from says nothing. But
there is always one in the loop itself, and a phi of the header whose outside value counts has
one predecessor outside, which control passes first.
-/

namespace LoopBounds.Setting

open Descriptor FlowGraph

variable {R : Type} [Arithmetic R] {S : Setting R} {known cycle : Classes}
variable {b : BlockId} {p x y z : InstrId} {d : Descriptor} {sources : List (InstrId × BlockId)}

def Before (S : Setting R) (y : InstrId) : Prop :=
  (S.func.instr y).isLeaf = true ∨ S.func.Listed y ∧ S.func.home y ∉ S.loop.blocks ∧
    S.func.flow.Dominates (S.func.home y) S.loop.header

/-- All that the known descriptors fetch is there before the loop is entered. -/
def FetchesBefore (S : Setting R) (known : Classes) : Prop :=
  ∀ t ∈ known, t.2.FetchesOnly S.Before

section Operands

theorem before_of_dominates (hb : b ∈ S.loop.blocks) (hy : S.func.Listed y)
    (hout : S.func.home y ∉ S.loop.blocks) (hd : S.func.flow.Dominates (S.func.home y) b) :
    S.Before y := by
  refine .inr ⟨hy, hout, ?_⟩
  have hhead := loop_natural.dominates b hb
  rcases hd.total hhead (loop_natural.reachable b hb) with h | h
  · exact h
  · exact absurd (loop_natural.mem_of_dominates hb h hd) hout

theorem before_of_availableAtEnd (hb : b ∈ S.loop.blocks) (hav : S.func.AvailableAtEnd b y)
    (hout : S.view.isOutside y = true) : S.Before y := by
  rcases hav with hleaf | ⟨hlisted, hd⟩
  · exact .inl hleaf
  · rcases isOutside_iff.mp hout with hleaf | hout
    · exact .inl hleaf
    · exact before_of_dominates hb hlisted hout hd

theorem before_of_operand (hz : S.Inner z) (hphi : (S.func.instr z).isPhi = false)
    (hy : y ∈ (S.func.instr z).operands) (hout : S.view.isOutside y = true) : S.Before y := by
  have hb := (isOutside_eq_false_iff.mp (not_isOutside_of_isMember hz.member)).2
  obtain ⟨done, rest, heq⟩ := List.append_of_mem hz.mem_instrs
  rcases S.valid.operand_available _ done z rest heq hphi y hy with h | h | ⟨hlisted, -, hd⟩
  · exact .inl h
  · have hmem : y ∈ (S.func.block (S.func.home z)).instrs := heq ▸ List.mem_append_left _ h
    have hhome := S.valid.home _ y hmem
    rcases isOutside_iff.mp hout with hleaf | hout
    · exact .inl hleaf
    · exact absurd (hhome ▸ hb) hout
  · exact before_of_availableAtEnd hb (.inr ⟨hlisted, hd⟩) hout

theorem Inner.mem_phis (hx : S.Inner x) (hphi : S.func.instr x = .phi sources) :
    x ∈ (S.func.block (S.func.home x)).phis := by
  have hlisted : S.func.Listed x := hx.listed (by rw [hphi]; rfl)
  rcases List.mem_append.mp hlisted with h | h
  · exact h
  · have := (S.valid.body _ x h).1
    rw [hphi] at this
    cases this

theorem Inner.availableAtEnd (hx : S.Inner x) (hphi : S.func.instr x = .phi sources)
    (hmem : (y, b) ∈ sources) : S.func.AvailableAtEnd b y :=
  S.valid.source_available _ x (hx.mem_phis hphi) sources hphi _ hmem

theorem Inner.exists_source (hx : S.Inner x) (hphi : S.func.instr x = .phi sources)
    (hedge : S.func.home x ∈ S.func.flow.succs b) : ∃ y, (y, b) ∈ sources := by
  have hone := S.valid.sources _ x (hx.mem_phis hphi) sources hphi
  obtain ⟨⟨y, b'⟩, hmem, rfl⟩ :=
    List.mem_map.mp ((hone.2 b).mpr ((S.valid.flow.edges b _).mp hedge))
  exact ⟨y, hmem⟩

theorem Inner.exists_carried (hx : S.Inner x) (hphi : S.func.instr x = .phi sources) :
    ∃ y b, (y, b) ∈ sources ∧ b ∈ S.loop.blocks := by
  have hb := (isOutside_eq_false_iff.mp (not_isOutside_of_isMember hx.member)).2
  by_cases hhead : S.func.home x = S.loop.header
  · obtain ⟨b, hlatch, hedge⟩ := (loop_natural (S := S)).back_edge
    obtain ⟨y, hmem⟩ := hx.exists_source hphi (hhead ▸ hedge)
    exact ⟨y, b, hmem, loop_natural.latch_mem b hlatch⟩
  · obtain ⟨t, ht⟩ := loop_natural.reachable _ hb
    have hentry : S.func.home x ≠ .entry := fun heq =>
      loop_natural.entry_not_mem (Func.entry_not_mem_succs S.valid) (heq ▸ hb)
    obtain ⟨q, u, v, heq, -, hedge⟩ := ht.exists_arrival List.mem_cons_self hentry
    obtain ⟨y, hmem⟩ := hx.exists_source hphi hedge
    have hq : S.func.flow.Reachable q := ht.reachable (by simp [heq])
    exact ⟨y, q, hmem, loop_natural.entered q _ hb hhead hq hedge⟩

/-- The only value from outside the loop comes from the block that control passes before it
comes to the header. -/
theorem HeaderInputs.before (hx : S.Inner x) (hphi : S.func.instr x = .phi sources)
    (hhome : S.func.home x = S.loop.header) {inner : List InstrId}
    (h : S.HeaderInputs x sources [y] inner) : S.Before y := by
  obtain ⟨y', hy', hout⟩ := h.exists_outer
  obtain rfl := List.mem_singleton.mp hy'
  obtain ⟨⟨w, q⟩, hq⟩ := List.length_eq_one_iff.mp h.length_outer.symm
  have honly : ∀ t ∈ sources, t.2 ∉ S.loop.blocks → t = (w, q) := by
    intro t ht hnot
    have hmem : t ∈ sources.filter fun t => !S.view.contains t.2 :=
      List.mem_filter.mpr ⟨ht, by simpa [contains_eq_false_iff] using hnot⟩
    rwa [hq, List.mem_singleton] at hmem
  obtain ⟨b, hmem, hb⟩ := (h.outer_iff y').mp List.mem_cons_self
  obtain ⟨rfl, rfl⟩ := Prod.mk.inj (honly _ hmem hb)
  obtain ⟨hreach, hdom⟩ := loop_natural.passes_preheader (l := S.loop) (p := b) (by
    intro c
    constructor
    · rintro ⟨hedge, hc⟩
      obtain ⟨u, hu⟩ := hx.exists_source hphi (hhome ▸ hedge)
      exact (Prod.mk.inj (honly _ hu hc)).2
    · rintro rfl
      have hone := S.valid.sources _ x (hx.mem_phis hphi) sources hphi
      refine ⟨?_, hb⟩
      rw [← hhome]
      exact (S.valid.flow.edges _ _).mpr ((hone.2 c).mp (List.mem_map_of_mem hmem))) (by
    intro heq
    exact loop_natural.entry_not_mem (Func.entry_not_mem_succs S.valid)
      (heq ▸ loop_natural.header_mem))
  rcases hx.availableAtEnd hphi hmem with hleaf | ⟨hlisted, hd⟩
  · exact .inl hleaf
  · rcases isOutside_iff.mp hout with hleaf | hout
    · exact .inl hleaf
    · exact .inr ⟨hlisted, hout, hd.trans hdom⟩

end Operands

section Lookup

theorem fetchesOnly_funcFetch (hy : S.Before y) : (S.func.fetch y).FetchesOnly S.Before := by
  unfold Func.fetch
  split
  · exact fetchesOnly_constant _
  · exact fetchesOnly_fetch.mpr hy

theorem FetchesBefore.lookup (hk : S.FetchesBefore known) (h : S.view.lookup known y = some d)
    (hy : S.view.isOutside y = true → S.Before y) : d.FetchesOnly S.Before := by
  unfold LoopView.lookup at h
  split at h
  · rename_i e he
    exact Option.some.inj h ▸ hk (y, e) (mem_of_lookup he)
  · split_ifs at h with hout
    exact Option.some.inj h ▸ fetchesOnly_funcFetch (hy hout)

theorem FetchesBefore.invariant? (hk : S.FetchesBefore known)
    (h : S.view.invariant? known y = some d) (hy : S.view.isOutside y = true → S.Before y) :
    d.FetchesOnly S.Before := hk.lookup (invariant?_eq_some h).1 hy

theorem FetchesBefore.cons (hk : S.FetchesBefore known) (hd : d.FetchesOnly S.Before) :
    S.FetchesBefore ((x, d) :: known) := List.forall_mem_cons.mpr ⟨hd, hk⟩

theorem FetchesBefore.common (hk : S.FetchesBefore known) (hx : S.Inner x)
    (hphi : S.func.instr x = .phi sources)
    (h : S.view.common (S.view.lookup known) x 0 = some d) : d.FetchesOnly S.Before := by
  obtain ⟨y, b, hmem, hb⟩ := hx.exists_carried hphi
  exact hk.lookup ((common_eq_some h).2 y (mem_inputs_of_mem_sources hphi hmem))
    (before_of_availableAtEnd hb (hx.availableAtEnd hphi hmem))

end Lookup

section Classified

variable (hk : S.FetchesBefore known)

include hk

theorem FetchesBefore.classifyTrivial (hx : S.Inner x)
    (h : S.view.classifyTrivial known x = some d) : d.FetchesOnly S.Before := by
  unfold LoopView.classifyTrivial at h
  split at h
  · rename_i hphi
    exact hk.common hx hphi h
  · rename_i op y z harith
    have harith : S.func.instr x = .arith op y z := harith
    have hoperand {w : InstrId} (hw : w ∈ [y, z]) : S.view.isOutside w = true → S.Before w :=
      before_of_operand hx (by rw [harith]; rfl) (by rw [harith]; exact hw)
    by_cases hrem : op = .rem
    · simp [hrem] at h
    simp only [if_neg hrem, bind, Option.bind_eq_some_iff] at h
    obtain ⟨a, ha, b, hb, h⟩ := h
    have ha := hk.lookup ha (hoperand (by simp))
    have hb := hk.lookup hb (hoperand (by simp))
    cases op with
    | add => exact ha.sum? hb h
    | sub => exact ha.sum? hb h
    | mul => exact ha.mul? hb h
    | div => exact ha.div? hb h
    | shl =>
      obtain ⟨c, -, hd⟩ := Option.bind_eq_some_iff.mp h
      exact ha.shl? hd
    | rem => exact absurd rfl hrem
  · rename_i y hneg
    have hneg : S.func.instr x = .neg y := hneg
    simp only [bind, Option.bind_eq_some_iff] at h
    obtain ⟨a, ha, hd⟩ := h
    refine (hk.lookup ha ?_).neg? hd
    exact before_of_operand hx (by rw [hneg]; rfl) (by rw [hneg]; exact List.mem_singleton_self y)
  · cases h

theorem FetchesBefore.addTrivial (hx : S.Inner x) :
    S.FetchesBefore (S.view.addTrivial known x) := by
  unfold LoopView.addTrivial
  split
  · exact hk.cons (hk.classifyTrivial hx ‹_›)
  · exact hk

theorem FetchesBefore.foldl_addTrivial {xs : List InstrId} (hxs : ∀ x ∈ xs, S.Inner x) :
    S.FetchesBefore (xs.foldl S.view.addTrivial known) := by
  induction xs generalizing known with
  | nil => exact hk
  | cons x xs ih =>
    exact ih (hk.addTrivial (hxs x List.mem_cons_self))
      fun y hy => hxs y (List.mem_cons_of_mem _ hy)

omit hk in
theorem FetchesBefore.spread (hk : S.FetchesBefore known) {xs : List InstrId}
    (hd : d.FetchesOnly S.Before) : S.FetchesBefore (LoopView.spread known d xs) := by
  induction xs generalizing known d with
  | nil => exact hk
  | cons x xs ih => exact ih (hk.cons hd) hd.rotate

end Classified

section Cycle

variable (hk : S.FetchesBefore known) (hp : S.Inner p) (hentry : S.view.isEntryPhi p = true)

include hp hentry in
theorem isEntryPhi_before : ∃ y inner sources, S.func.instr p = .phi sources ∧
    S.func.home p = S.loop.header ∧ S.HeaderInputs p sources [y] inner := by
  unfold LoopView.isEntryPhi at hentry
  split at hentry
  · rename_i sources hphi
    have hphi : S.func.instr p = .phi sources := hphi
    simp only [Bool.and_eq_true, decide_eq_true_eq] at hentry
    have hhome : S.func.home p = S.loop.header := hentry.1
    obtain ⟨outer, inner, hin⟩ :=
      exists_headerInputs hphi (hp.listed (by rw [hphi]; rfl)) hhome
    obtain ⟨y, rfl⟩ := List.length_eq_one_iff.mp (hin.length_outer.trans hentry.2)
    exact ⟨y, inner, sources, hphi, hhome, hin⟩
  · cases hentry

include hk

/-- A pair of inputs at the header is one from outside, which comes from before the loop, and
one carried round the loop. -/
theorem FetchesBefore.outside (hx : S.Inner x) (hphi : S.func.instr x = .phi sources)
    (hhome : S.func.home x = S.loop.header) {outside carried : InstrId}
    (hin : S.view.inputs x = [outside, carried])
    (h : S.view.lookup known outside = some d) : d.FetchesOnly S.Before := by
  obtain ⟨outer, inner, hheader⟩ :=
    exists_headerInputs hphi (hx.listed (by rw [hphi]; rfl)) hhome
  obtain ⟨y, hy, -⟩ := hheader.exists_outer
  obtain ⟨w, hw⟩ := hheader.exists_inner
  have heq := hin.symm.trans hheader.inputs
  match outer, inner, hy, hw with
  | [a], inner, _, _ =>
    obtain ⟨rfl, -⟩ := List.cons.inj heq
    exact hk.lookup h fun _ => hheader.before hx hphi hhome
  | a :: c :: outer, e :: inner, _, _ => simp at heq

include hp hentry

theorem FetchesBefore.start (h : S.view.start? known p = some d) : d.FetchesOnly S.Before := by
  obtain ⟨y, inner, sources, hphi, hhome, hin⟩ := isEntryPhi_before hp hentry
  simp only [LoopView.start?, hin.inputs, bind, List.singleton_append, List.head?_cons,
    Option.bind_some] at h
  exact hk.lookup h fun _ => hin.before hp hphi hhome

/-- The meanings of a cycle fetch what is there before the loop: one case for each way in
which a meaning comes about. -/
theorem FetchesBefore.meaning (hc : S.FetchesBefore cycle) (hz : S.Inner z)
    (h : S.Meaning known cycle p z d) : d.FetchesOnly S.Before := by
  have hstep {minus : Bool} {x y : InstrId} (hstep : S.StepOf minus z x y) :
      S.view.isOutside y = true → S.Before y := by
    rcases hstep with heq | ⟨-, heq⟩
    · exact before_of_operand hz (by rw [heq]; rfl) (by rw [heq]; simp [Instr.operands])
    · exact before_of_operand hz (by rw [heq]; rfl) (by rw [heq]; simp [Instr.operands])
  cases h with
  | forward _ hne hall =>
    obtain ⟨y, hy⟩ := hne
    exact hc _ (hall y hy)
  | delay hphi hhome hin hfirst hrest =>
    have hfirst := hk.outside hz hphi hhome hin (invariant?_eq_some hfirst).1
    refine fetchesOnly_periodic.mpr ⟨hfirst, ?_⟩
    rcases hrest with ⟨-, hrest⟩ | ⟨hrest, -⟩
    · exact hk.start hp hentry hrest
    · exact hc _ hrest
  | @first minus _ _ b _ hz _ hb hm =>
    have hb := hk.invariant? hb (hstep hz)
    subst hm
    cases minus with
    | false => exact hb
    | true => exact hb.combineNeg
  | next hz ha _ hb hm =>
    rw [hm]
    exact FetchesOnly.combine _ (hc _ ha) (hk.invariant? hb (hstep hz))
  | reflect heq hin ha hstart =>
    obtain ⟨y, inner, sources, hphi, hhome, -⟩ := isEntryPhi_before hp hentry
    have hstart := hk.outside hp hphi hhome hin hstart
    have ha := hk.invariant? ha
      (before_of_operand hz (by rw [heq]; rfl) (by rw [heq]; simp [Instr.operands]))
    exact fetchesOnly_periodic.mpr ⟨ha.combine .sub hstart, hstart⟩

theorem FetchesBefore.meanings {others : List InstrId} (hothers : ∀ x ∈ others, S.Inner x)
    {start : Classes} (hs : S.FetchesBefore start)
    (h : S.view.meanings known p start others = some cycle) : S.FetchesBefore cycle := by
  induction others generalizing start with
  | nil => exact Option.some.inj h ▸ hs
  | cons z others ih =>
    simp only [LoopView.meanings, bind, Option.bind_eq_some_iff] at h
    obtain ⟨d, hd, h⟩ := h
    have hd := hk.meaning hp hentry hs (hothers z List.mem_cons_self) (meaning_spec hd)
    exact ih (fun x hx => hothers x (List.mem_cons_of_mem _ hx)) (hs.cons hd) h

theorem FetchesBefore.classifyRound {others : List InstrId} (hothers : ∀ x ∈ others, S.Inner x)
    {initial : Descriptor} (hi : initial.FetchesOnly S.Before) :
    S.FetchesBefore (S.view.classifyRound known p others initial) := by
  unfold LoopView.classifyRound
  dsimp only
  split
  · exact hk
  · rename_i d hd
    obtain ⟨cycle, hmeanings, hcommon⟩ := Option.bind_eq_some_iff.mp hd
    have hc := hk.meanings hp hentry hothers (fun t ht => absurd ht List.not_mem_nil) hmeanings
    obtain ⟨⟨y, hy⟩, hall⟩ := common_eq_some hcommon
    have hd : d.FetchesOnly S.Before := hc _ (mem_of_lookup (hall y hy))
    split_ifs
    · exact (hk.cons (fetchesOnly_linear.mpr ⟨hd, hi⟩)).foldl_addTrivial hothers
    · exact hk.spread hd
    · exact hk

theorem FetchesBefore.classifyAlone {initial : Descriptor} (hi : initial.FetchesOnly S.Before) :
    S.FetchesBefore (S.view.classifyAlone known p initial) := by
  unfold LoopView.classifyAlone
  split
  · rename_i update hupdate
    obtain ⟨y, inner, sources, hphi, -, hin⟩ := isEntryPhi_before hp hentry
    obtain ⟨w, b, hmem, hb⟩ := hp.exists_carried hphi
    have hw : w ∈ (S.view.inputs p).drop 1 := by
      rw [hin.inputs]
      exact (hin.inner_iff w).mpr ⟨b, hmem, hb⟩
    refine hk.cons (fetchesOnly_wrapAround.mpr ⟨hi, ?_⟩)
    exact hk.lookup ((common_eq_some hupdate).2 w hw)
      (before_of_availableAtEnd hb (hp.availableAtEnd hphi hmem))
  · exact hk

theorem FetchesBefore.classifyCycle {others : List InstrId} (hothers : ∀ x ∈ others, S.Inner x) :
    S.FetchesBefore (S.view.classifyCycle known p others) := by
  unfold LoopView.classifyCycle
  split
  · exact hk
  · rename_i initial hstart
    have hi := hk.start hp hentry (Option.filter_eq_some_iff.mp hstart).1
    split
    · exact hk.classifyAlone hp hentry hi
    · exact hk.classifyRound hp hentry hothers hi

end Cycle

theorem FetchesBefore.classifyComponent (hk : S.FetchesBefore known) {component : List InstrId}
    (hinner : ∀ x ∈ component, S.Inner x) :
    S.FetchesBefore (S.view.classifyComponent known component) := by
  cases hany : component.any S.view.isEntryPhi with
  | false =>
    simp only [LoopView.classifyComponent, hany]
    split
    · exact hk.addTrivial (hinner _ List.mem_cons_self)
    · exact hk
    · contradiction
  | true =>
    cases hfrom : S.view.fromEntry component with
    | nil => simpa only [LoopView.classifyComponent, hany, hfrom] using hk
    | cons p others =>
      simp only [LoopView.classifyComponent, hany, hfrom]
      have hperm : (p :: others).Perm component := hfrom ▸ S.view.fromEntry_perm component
      have hmem : ∀ x ∈ p :: others, S.Inner x := fun x hx => hinner x (hperm.mem_iff.mp hx)
      exact hk.classifyCycle (hmem p List.mem_cons_self) (isEntryPhi_of_fromEntry hany hfrom)
        fun x hx => hmem x (List.mem_cons_of_mem _ hx)

/-- All that the descriptors of the loop fetch is there before the loop is entered. -/
theorem fetchesBefore_classes : S.FetchesBefore S.view.classes := by
  obtain ⟨-, -, hinner⟩ := S.components_inner
  suffices h : ∀ components : List (List InstrId), (∀ c ∈ components, ∀ x ∈ c, S.Inner x) →
      ∀ known, S.FetchesBefore known →
        S.FetchesBefore (components.foldl S.view.classifyComponent known) from
    h _ hinner [] fun t ht => absurd ht List.not_mem_nil
  intro components
  induction components with
  | nil => exact fun _ _ hk => hk
  | cons c components ih =>
    intro hinner known hk
    exact ih (fun c' hc' => hinner c' (List.mem_cons_of_mem _ hc')) _
      (hk.classifyComponent (hinner c List.mem_cons_self))

section TripCount

/-- The comparison at the end of the header is made before the loop or in it, and so its
operands are there before the loop if they are not of the loop. -/
theorem before_of_compared {control c : InstrId} {t e : BlockId} {op : Comparison}
    (hcontrol : S.func.terminator? S.loop.header = some control)
    (hbranch : S.func.instr control = .branch c t e) (hcompare : S.func.instr c = .compare op y z)
    {w : InstrId} (hw : w ∈ [y, z]) (hout : S.view.isOutside w = true) : S.Before w := by
  have hmem : control ∈ (S.func.block S.loop.header).instrs :=
    List.mem_append_right _
      (by simp [show (S.func.block S.loop.header).terminator = _ from hcontrol])
  obtain ⟨done, rest, heq⟩ := List.append_of_mem hmem
  have hc := S.valid.operand_available _ done control rest heq (by rw [hbranch]; rfl) c
    (by rw [hbranch]; exact List.mem_singleton_self c)
  have hinstrs : ∃ b, c ∈ (S.func.block b).instrs ∧ S.func.flow.Dominates b S.loop.header := by
    rcases hc with hleaf | hdone | ⟨hlisted, -, hd⟩
    · rw [hcompare] at hleaf
      cases hleaf
    · exact ⟨_, heq ▸ List.mem_append_left _ hdone, .refl _⟩
    · exact ⟨_, List.mem_append_left _ hlisted, hd⟩
  obtain ⟨b, hcb, hd⟩ := hinstrs
  obtain ⟨done, rest, heq⟩ := List.append_of_mem hcb
  have hav := S.valid.operand_available _ done c rest heq (by rw [hcompare]; rfl) w
    (by rw [hcompare]; exact hw)
  rcases isOutside_iff.mp hout with hleaf | hhome
  · exact .inl hleaf
  rcases hav with hleaf | hdone | ⟨hlisted, -, hdw⟩
  · exact .inl hleaf
  · obtain ⟨hlisted, rfl⟩ := S.valid.listed_of_mem_done heq hdone
    exact .inr ⟨hlisted, hhome, hd⟩
  · exact .inr ⟨hlisted, hhome, hdw.trans hd⟩

theorem FetchesBefore.tripCount? (hk : S.FetchesBefore known) {control : InstrId}
    (hcontrol : S.func.terminator? S.loop.header = some control)
    (h : S.view.tripCount? known control = some d) : d.FetchesOnly S.Before := by
  obtain ⟨⟨a, b, cmp⟩, htest, h⟩ := Option.bind_eq_some_iff.mp h
  obtain ⟨c, y, z, op, htest⟩ := test_of_control? htest
  obtain ⟨t, e, hbranch, -⟩ := htest.branch
  have hbefore {w : InstrId} (hw : w ∈ [y, z]) : S.view.isOutside w = true → S.Before w :=
    before_of_compared hcontrol hbranch htest.compare hw
  exact FetchesOnly.conditionTripCount? (hk.lookup htest.left (hbefore (by simp)))
    (hk.lookup htest.right (hbefore (by simp))) h

/-- All that a stored descriptor fetches is there before the loop is entered. -/
theorem fetchesOnly_of_stored? (hl : S.id.index < S.func.flow.loopForest.loops.size)
    (h : (Analysis.ofFunc S.func).stored? S.id x = some d) : d.FetchesOnly S.Before := by
  rw [Analysis.stored?, Analysis.classesOf_ofFunc hl] at h
  rcases LoopView.lookup_classesWithTripCount h with h | ⟨hcontrol, h⟩
  · exact fetchesBefore_classes _ h
  · exact fetchesBefore_classes.tripCount? hcontrol h

end TripCount

end LoopBounds.Setting
