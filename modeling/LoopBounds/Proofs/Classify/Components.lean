import LoopBounds.Classify.Components
import Mathlib.Tactic

/-!
# Components are strongly connected

The search keeps one invariant: the stack holds the nodes by descending number, and every
node on it leads to the node of its low number over nodes that are not older. A node whose
low number is its own number therefore closes a component: it leads to everything that was
entered after it, and from there the low numbers lead down to it again.
-/

namespace LoopBounds.Components

variable {α : Type}

/-- There is a path of dependencies from `x` to `y` whose nodes all lie in `c`. -/
inductive Leads (deps : α → List α) (c : α → Prop) : α → α → Prop
  | refl {x} : c x → Leads deps c x x
  | step {x y z} : c x → y ∈ deps x → Leads deps c y z → Leads deps c x z

/-- All nodes of the list lead to each other within it. -/
def Joined (deps : α → List α) (c : List α) : Prop :=
  ∀ x ∈ c, ∀ y ∈ c, Leads deps (· ∈ c) x y

variable {deps : α → List α}

theorem Leads.trans {c : α → Prop} {x y z : α} (hxy : Leads deps c x y)
    (hyz : Leads deps c y z) : Leads deps c x z := by
  induction hxy with
  | refl _ => exact hyz
  | step hx hy _ ih => exact .step hx hy (ih hyz)

theorem Leads.mono {c c' : α → Prop} (h : ∀ x, c x → c' x) {x y : α}
    (hxy : Leads deps c x y) : Leads deps c' x y := by
  induction hxy with
  | refl hx => exact .refl (h _ hx)
  | step hx hy _ ih => exact .step (h _ hx) hy ih

theorem Leads.left {c : α → Prop} {x y : α} (h : Leads deps c x y) : c x := by
  cases h with
  | refl h => exact h
  | step h _ _ => exact h

variable [DecidableEq α]

namespace Search

variable {s : Search α} {x y : α} {n : ℕ}

/-- The number with which a node was entered. -/
def number (s : Search α) (x : α) : ℕ := (s.low.reverse.lookup x).getD 0

def Entered (s : Search α) (x : α) : Prop := (s.low? x).isSome

theorem low?_cons : (List.lookup y ((x, n) :: s.low)) = if y = x then some n else s.low? y := by
  by_cases h : y = x
  · simp [h]
  · simp [List.lookup_cons, h, low?, beq_false_of_ne h]

theorem lookup_reverse_isSome (h : s.Entered y) : (s.low.reverse.lookup y).isSome := by
  rw [Entered, low?, List.lookup_isSome_iff] at h
  rw [List.lookup_isSome_iff]
  simpa using h

/-- A node keeps its number when low numbers are recorded. -/
theorem number_cons_of_entered {t : Search α} (ht : t.low = (x, n) :: s.low)
    (h : s.Entered y) : t.number y = s.number y := by
  obtain ⟨m, hm⟩ := Option.isSome_iff_exists.mp (lookup_reverse_isSome h)
  rw [number, ht, List.reverse_cons, List.lookup_append, hm, number, hm]
  rfl

theorem number_cons_self {t : Search α} (ht : t.low = (x, n) :: s.low)
    (h : s.low? x = none) : t.number x = n := by
  have hnone : s.low.reverse.lookup x = none := by
    rw [low?, List.lookup_eq_none_iff] at h
    rw [List.lookup_eq_none_iff]
    simpa using h
  rw [number, ht, List.reverse_cons, List.lookup_append, hnone]
  simp

end Search

/-- From `x` the search has found its way back to the node of number `l` on the stack,
over nodes that are not older than it. -/
def ReachesBack (deps : α → List α) (s : Search α) (x : α) (l : ℕ) : Prop :=
  ∃ w ∈ s.stack, s.number w = l ∧
    Leads deps (fun z => z ∈ s.stack ∧ l ≤ s.number z) x w

/-- What the search keeps to. All nodes it meets have the property `p`. -/
structure Invariant (deps : α → List α) (p : α → Prop) (s : Search α) : Prop where
  nodup : (s.stack ++ s.found.flatten).Nodup
  seen : ∀ x ∈ s.stack ++ s.found.flatten, s.Entered x ∧ p x
  sorted : s.stack.Pairwise fun x y => s.number y < s.number x
  bounded : ∀ x ∈ s.stack, s.number x ≤ s.entered
  low : ∀ x ∈ s.stack, ∀ l, s.low? x = some l → l ≤ s.number x ∧ ReachesBack deps s x l
  joined : ∀ c ∈ s.found, Joined deps c
  nonempty : ∀ c ∈ s.found, c ≠ []
  counted : (s.stack ++ s.found.flatten).length = s.entered

/-- What later states of the search leave as it is. -/
structure Extends (s t : Search α) : Prop where
  entered : s.entered ≤ t.entered
  low : ∀ y, s.Entered y → t.low? y = s.low? y ∧ t.number y = s.number y

theorem Extends.isEntered {s t : Search α} (h : Extends s t) {y : α} (hy : s.Entered y) :
    t.Entered y := by
  rw [Search.Entered, (h.low y hy).1]
  exact hy

theorem Extends.trans {s t u : Search α} (hst : Extends s t) (htu : Extends t u) :
    Extends s u where
  entered := hst.entered.trans htu.entered
  low y hy := by
    obtain ⟨hl, hn⟩ := htu.low y (hst.isEntered hy)
    rw [hl, hn]
    exact hst.low y hy

/-- The nodes `seg` on the stack are done, but not closed: they lead back to nodes before
them, down to the number `l`, and `x` leads to all of them. -/
def Pending (deps : α → List α) (s : Search α) (x : α) (l : ℕ) (seg done : List α) : Prop :=
  ∀ y ∈ done, (∃ m, s.low? y = some m ∧ l ≤ m ∧ m < s.number y) ∧ Leads deps (· ∈ seg) x y

/-- What the search below `x` leads to from state `s`: `x` is closed with all that was
entered after it, or all of these wait on the stack for a node before them. -/
structure Visited (deps : α → List α) (p : α → Prop) (s : Search α) (x : α)
    (t : Search α) : Prop where
  invariant : Invariant deps p t
  extend : Extends s t
  result : ∃ seg l, t.stack = seg ++ s.stack ∧ t.low? x = some l ∧
    Pending deps t x l seg seg ∧ (seg = [] → s.entered < l) ∧ (seg ≠ [] → x ∈ seg)

/-- Where the search stands that has entered `x` from state `s₀` and gone through some of
its dependencies. -/
structure Descending (deps : α → List α) (p : α → Prop) (s₀ : Search α) (x : α)
    (s : Search α) (low : ℕ) : Prop where
  invariant : Invariant deps p s
  extend : Extends s₀ s
  fresh : s₀.low? x = none
  number : s.number x = s₀.entered + 1
  own : s.low? x = some (s₀.entered + 1)
  back : ReachesBack deps s x low
  le : low ≤ s₀.entered + 1
  stack : ∃ seg, s.stack = seg ++ x :: s₀.stack ∧ Pending deps s x low (seg ++ [x]) seg

section Steps

variable {p : α → Prop} {s₀ s t : Search α} {x y : α} {low l : ℕ}

theorem Invariant.entered_of_mem_stack (hs : Invariant deps p s) (hx : x ∈ s.stack) :
    s.Entered x := (hs.seen x (List.mem_append_left _ hx)).1

/-- As long as a node is missing, fewer nodes have been entered than there are. -/
theorem Invariant.entered_lt {nodes : List α} (hs : Invariant deps (· ∈ nodes) s)
    (hx : s.low? x = none) (hmem : x ∈ nodes) : s.entered < nodes.length := by
  have hnew : x ∉ s.stack ++ s.found.flatten := fun hold => by
    have := (hs.seen x hold).1
    rw [Search.Entered, hx] at this
    cases this
  have hsubset : x :: (s.stack ++ s.found.flatten) ⊆ nodes :=
    List.cons_subset.mpr ⟨hmem, fun y hy => (hs.seen y hy).2⟩
  have hlength := (List.subperm_of_subset (List.nodup_cons.mpr ⟨hnew, hs.nodup⟩) hsubset).length_le
  rwa [List.length_cons, hs.counted] at hlength

theorem ReachesBack.mono (hsub : ∀ z ∈ s.stack, z ∈ t.stack ∧ t.number z = s.number z)
    (hx : ReachesBack deps s x l) : ReachesBack deps t x l := by
  obtain ⟨w, hw, hl, hpath⟩ := hx
  refine ⟨w, (hsub w hw).1, (hsub w hw).2.trans hl, hpath.mono fun z hz => ?_⟩
  exact ⟨(hsub z hz.1).1, (hsub z hz.1).2.symm ▸ hz.2⟩

theorem Extends.of_mem_stack (h : Extends s t) (hs : Invariant deps p s)
    (hsub : ∀ z ∈ s.stack, z ∈ t.stack) :
    ∀ z ∈ s.stack, z ∈ t.stack ∧ t.number z = s.number z :=
  fun z hz => ⟨hsub z hz, (h.low z (hs.entered_of_mem_stack hz)).2⟩

theorem ReachesBack.step (hx : x ∈ s.stack) (hle : l ≤ s.number x) (hy : y ∈ deps x)
    (h : ReachesBack deps s y l) : ReachesBack deps s x l := by
  obtain ⟨w, hw, hl, hpath⟩ := h
  exact ⟨w, hw, hl, .step ⟨hx, hle⟩ hy hpath⟩

theorem Pending.mono {seg seg' done : List α} {l' : ℕ} (h : Extends s t)
    (hentered : ∀ y ∈ done, s.Entered y) (hsub : ∀ z ∈ seg, z ∈ seg') (hl : l' ≤ l)
    (hp : Pending deps s x l seg done) : Pending deps t x l' seg' done := by
  intro y hy
  obtain ⟨⟨m, hm, hlm, hmn⟩, hpath⟩ := hp y hy
  obtain ⟨hlow, hnumber⟩ := h.low y (hentered y hy)
  exact ⟨⟨m, hlow.trans hm, hl.trans hlm, hnumber ▸ hmn⟩, hpath.mono hsub⟩

theorem Invariant.enter (hs : Invariant deps p s) (hx : s.low? x = none) (hpx : p x) :
    Descending deps p s x (s.enter x) (s.entered + 1) := by
  have hne {y : α} (hy : s.Entered y) : y ≠ x := fun heq => by
    rw [Search.Entered, heq, hx] at hy
    cases hy
  have hext : Extends s (s.enter x) := by
    refine ⟨Nat.le_succ _, fun y hy => ⟨?_, Search.number_cons_of_entered rfl hy⟩⟩
    exact Search.low?_cons.trans (if_neg (hne hy))
  have hnumber : (s.enter x).number x = s.entered + 1 := Search.number_cons_self rfl hx
  have hown : (s.enter x).low? x = some (s.entered + 1) := Search.low?_cons.trans (if_pos rfl)
  have hback : ReachesBack deps (s.enter x) x (s.entered + 1) :=
    ⟨x, List.mem_cons_self, hnumber, .refl ⟨List.mem_cons_self, hnumber.ge⟩⟩
  have hmem {y : α} (hy : y ∈ s.stack ++ s.found.flatten) : y ≠ x := hne (hs.seen y hy).1
  refine ⟨⟨?_, ?_, ?_, ?_, ?_, hs.joined, hs.nonempty, congrArg Nat.succ hs.counted⟩, hext, hx,
    hnumber, hown, hback, le_rfl, [], rfl, ?_⟩
  · exact List.nodup_cons.mpr ⟨fun h => hmem h rfl, hs.nodup⟩
  · refine List.forall_mem_cons.mpr ⟨⟨by rw [Search.Entered, hown]; rfl, hpx⟩, fun y hy => ?_⟩
    exact ⟨hext.isEntered (hs.seen y hy).1, (hs.seen y hy).2⟩
  · refine List.pairwise_cons.mpr ⟨fun y hy => ?_, ?_⟩
    · rw [hnumber, (hext.low y (hs.entered_of_mem_stack hy)).2]
      exact Nat.lt_succ_of_le (hs.bounded y hy)
    · refine hs.sorted.imp_of_mem fun ha hb hlt => ?_
      rw [(hext.low _ (hs.entered_of_mem_stack ha)).2,
        (hext.low _ (hs.entered_of_mem_stack hb)).2]
      exact hlt
  · refine List.forall_mem_cons.mpr ⟨hnumber.le, fun y hy => ?_⟩
    rw [(hext.low y (hs.entered_of_mem_stack hy)).2]
    exact Nat.le_succ_of_le (hs.bounded y hy)
  · refine List.forall_mem_cons.mpr ⟨fun l hl => ?_, fun y hy l hl => ?_⟩
    · obtain rfl := Option.some.inj (hown.symm.trans hl)
      exact ⟨hnumber.ge, hback⟩
    · obtain ⟨hlow, hnum⟩ := hext.low y (hs.entered_of_mem_stack hy)
      obtain ⟨hle, hb⟩ := hs.low y hy l (hlow ▸ hl)
      exact ⟨hnum ▸ hle, hb.mono (hext.of_mem_stack hs fun z hz => List.mem_cons_of_mem _ hz)⟩
  · exact fun y hy => absurd hy List.not_mem_nil

namespace Descending

variable (h : Descending deps p s₀ x s low)

include h

theorem mem_stack : x ∈ s.stack := by
  obtain ⟨seg, hstack, -⟩ := h.stack
  rw [hstack]
  exact List.mem_append_right _ List.mem_cons_self

theorem lt_entered : s₀.entered < s.entered := by
  have hbounded := h.invariant.bounded x h.mem_stack
  rwa [h.number] at hbounded

theorem le_entered : low ≤ s.entered := h.le.trans h.lt_entered

theorem lower (hy : y ∈ deps x) (hl : ReachesBack deps s y l) :
    Descending deps p s₀ x s (min low l) := by
  obtain ⟨seg, hstack, hpend⟩ := h.stack
  refine { h with back := ?_, le := (min_le_left _ _).trans h.le, stack := ⟨seg, hstack, ?_⟩ }
  · rcases le_total low l with hle | hle
    · rw [min_eq_left hle]
      exact h.back
    · rw [min_eq_right hle]
      exact hl.step h.mem_stack (h.number ▸ hle.trans h.le) hy
  · intro z hz
    obtain ⟨⟨m, hm, hlm, hmn⟩, hpath⟩ := hpend z hz
    exact ⟨⟨m, hm, (min_le_left _ _).trans hlm, hmn⟩, hpath⟩

theorem visited (hy : y ∈ deps x) (hv : Visited deps p s y t) (hl : t.low? y = some l) :
    Descending deps p s₀ x t (min low l) := by
  obtain ⟨seg', l', hstack', hl', hpend', hclosed, hopen⟩ := hv.result
  obtain rfl := Option.some.inj (hl'.symm.trans hl)
  obtain ⟨seg, hstack, hpend⟩ := h.stack
  have hsub : ∀ z ∈ s.stack, z ∈ t.stack := fun z hz => hstack' ▸ List.mem_append_right _ hz
  have hx := hv.extend.low x (h.invariant.entered_of_mem_stack h.mem_stack)
  have hseg {z : α} (hz : z ∈ seg) : s.Entered z :=
    h.invariant.entered_of_mem_stack (hstack ▸ List.mem_append_left _ hz)
  have hback : ReachesBack deps t x low := h.back.mono (hv.extend.of_mem_stack h.invariant hsub)
  have hstart : s₀.entered + 1 ≤ s.entered := h.lt_entered
  by_cases hnil : seg' = []
  · subst hnil
    have hlow : min low l' = low := min_eq_left (by have := h.le; have := hclosed rfl; omega)
    rw [hlow]
    exact ⟨hv.invariant, h.extend.trans hv.extend, h.fresh, hx.2.trans h.number,
      hx.1.trans h.own, hback, h.le, seg, hstack'.trans hstack,
      hpend.mono hv.extend (fun z hz => hseg hz) (fun z hz => hz) le_rfl⟩
  · have hyseg : y ∈ seg' := hopen hnil
    have hxmem : x ∈ t.stack := hsub x h.mem_stack
    have hymem : y ∈ t.stack := hstack' ▸ List.mem_append_left _ hyseg
    have hstack'' : t.stack = (seg' ++ seg) ++ x :: s₀.stack := by
      rw [hstack', hstack, List.append_assoc]
    refine ⟨hv.invariant, h.extend.trans hv.extend, h.fresh, hx.2.trans h.number,
      hx.1.trans h.own, ?_, (min_le_left _ _).trans h.le, seg' ++ seg, hstack'', fun z hz => ?_⟩
    · rcases le_total low l' with hle | hle
      · rw [min_eq_left hle]
        exact hback
      · rw [min_eq_right hle]
        have hnum : l' ≤ t.number x := (hx.2.trans h.number) ▸ hle.trans h.le
        exact (hv.invariant.low y hymem l' hl').2.step hxmem hnum hy
    · rcases List.mem_append.mp hz with hz | hz
      · obtain ⟨⟨m, hm, hlm, hmn⟩, hpath⟩ := hpend' z hz
        refine ⟨⟨m, hm, (min_le_right _ _).trans hlm, hmn⟩, .step (by simp) hy ?_⟩
        exact hpath.mono fun w hw => by simp [hw]
      · have hwider : ∀ w ∈ seg ++ [x], w ∈ seg' ++ seg ++ [x] := fun w hw =>
          List.append_assoc .. ▸ List.mem_append_right _ hw
        exact hpend.mono hv.extend (fun z hz => hseg hz) hwider (min_le_left low l') z hz

/-- What lies on the stack from a node up is what was entered after it. -/
theorem mem_seg_of_le {seg : List α} (hstack : s.stack = seg ++ x :: s₀.stack)
    (hy : y ∈ s.stack) (hle : s.number x ≤ s.number y) : y ∈ seg ++ [x] := by
  rw [hstack] at hy
  rcases List.mem_append.mp hy with hy | hy
  · exact List.mem_append_left _ hy
  · rcases List.mem_cons.mp hy with rfl | hy
    · exact List.mem_append_right _ List.mem_cons_self
    · have hsorted := h.invariant.sorted
      rw [hstack, List.pairwise_append] at hsorted
      have := (List.pairwise_cons.mp hsorted.2.1).1 y hy
      omega

/-- If nothing before `x` is reached, all that was entered after `x` leads back to it. -/
theorem joined_of_le {seg : List α} (hstack : s.stack = seg ++ x :: s₀.stack)
    (hpend : Pending deps s x low (seg ++ [x]) seg) (hle : s₀.entered + 1 ≤ low) :
    Joined deps (seg ++ [x]) := by
  have hfrom : ∀ y ∈ seg ++ [x], Leads deps (· ∈ seg ++ [x]) x y := by
    intro y hy
    rcases List.mem_append.mp hy with hy | hy
    · exact (hpend y hy).2
    · rw [List.mem_singleton.mp hy]
      exact .refl (by simp)
  -- The low numbers lead to older and older nodes, and never to one before `x`.
  have hto : ∀ n, ∀ y ∈ seg ++ [x], s.number y = n → Leads deps (· ∈ seg ++ [x]) y x := by
    intro n
    induction n using Nat.strong_induction_on with
    | _ n ih =>
      intro y hy hn
      rcases List.mem_append.mp hy with hmem | hmem
      · obtain ⟨⟨m, hm, hlm, hmn⟩, -⟩ := hpend y hmem
        have hystack : y ∈ s.stack := hstack ▸ List.mem_append_left _ hmem
        obtain ⟨w, hw, hwn, hpath⟩ := (h.invariant.low y hystack m hm).2
        have hseg {z : α} (hz : z ∈ s.stack) (hmz : m ≤ s.number z) : z ∈ seg ++ [x] :=
          h.mem_seg_of_le hstack hz (by have := h.number; omega)
        have hyw : Leads deps (· ∈ seg ++ [x]) y w := hpath.mono fun z hz => hseg hz.1 hz.2
        exact hyw.trans (ih m (hn ▸ hmn) w (hseg hw hwn.ge) hwn)
      · rw [List.mem_singleton.mp hmem]
        exact .refl (by simp)
  exact fun y hy z hz => (hto _ y hy rfl).trans (hfrom z hz)

theorem ne_of_entered (hy : s₀.Entered y) : y ≠ x := fun heq => by
  rw [Search.Entered, heq, h.fresh] at hy
  cases hy

theorem not_mem_seg {seg : List α} (hstack : s.stack = seg ++ x :: s₀.stack) : x ∉ seg := by
  have := h.invariant.nodup
  rw [hstack, List.append_assoc, List.nodup_append] at this
  exact fun hx => this.2.2 x hx x (by simp) rfl

theorem ne_of_mem_seg {seg : List α} (hstack : s.stack = seg ++ x :: s₀.stack) :
    ∀ y ∈ seg, decide (y ≠ x) = true := fun _ hy =>
  decide_eq_true fun heq => h.not_mem_seg hstack (heq ▸ hy)

/-- `x` waits on the stack when something before it has been reached. -/
theorem visited_setLow (hlt : low < s₀.entered + 1) :
    Visited deps p s₀ x (s.setLow x low) := by
  obtain ⟨seg, hstack, hpend⟩ := h.stack
  have hnumber {y : α} (hy : s.Entered y) : (s.setLow x low).number y = s.number y :=
    Search.number_cons_of_entered rfl hy
  have hlow {y : α} (hy : y ≠ x) : (s.setLow x low).low? y = s.low? y :=
    Search.low?_cons.trans (if_neg hy)
  have hown : (s.setLow x low).low? x = some low := Search.low?_cons.trans (if_pos rfl)
  have hentered {y : α} (hy : s.Entered y) : (s.setLow x low).Entered y := by
    by_cases hyx : y = x
    · rw [Search.Entered, hyx, hown]
      rfl
    · rw [Search.Entered, hlow hyx]
      exact hy
  have hstay {y : α} (hy : y ∈ s.stack) : (s.setLow x low).number y = s.number y :=
    hnumber (h.invariant.entered_of_mem_stack hy)
  have hpend' : Pending deps (s.setLow x low) x low (seg ++ [x]) (seg ++ [x]) := by
    intro y hy
    rcases List.mem_append.mp hy with hy | hy
    · obtain ⟨⟨m, hm, hlm, hmn⟩, hpath⟩ := hpend y hy
      have hne : y ≠ x := fun heq => h.not_mem_seg hstack (heq ▸ hy)
      have hystack : y ∈ s.stack := hstack ▸ List.mem_append_left _ hy
      exact ⟨⟨m, (hlow hne).trans hm, hlm, (hstay hystack).symm ▸ hmn⟩, hpath⟩
    · obtain rfl := List.mem_singleton.mp hy
      refine ⟨⟨low, hown, le_rfl, ?_⟩, .refl (by simp)⟩
      rw [hstay h.mem_stack, h.number]
      exact hlt
  refine ⟨⟨h.invariant.nodup, ?_, ?_, ?_, ?_, h.invariant.joined, h.invariant.nonempty,
    h.invariant.counted⟩, ⟨h.extend.entered, ?_⟩,
    seg ++ [x], low, by rw [List.append_assoc]; exact hstack, hown, hpend', by simp, by simp⟩
  · exact fun y hy => ⟨hentered (h.invariant.seen y hy).1, (h.invariant.seen y hy).2⟩
  · exact h.invariant.sorted.imp_of_mem fun ha hb hlt => by rwa [hstay ha, hstay hb]
  · exact fun y hy => hstay hy ▸ h.invariant.bounded y hy
  · intro y hy l hl
    have hmono : ∀ z ∈ s.stack, z ∈ (s.setLow x low).stack ∧
        (s.setLow x low).number z = s.number z := fun z hz => ⟨hz, hstay hz⟩
    rw [hstay hy]
    by_cases hyx : y = x
    · subst hyx
      obtain rfl := Option.some.inj (hown.symm.trans hl)
      exact ⟨h.number ▸ h.le, h.back.mono hmono⟩
    · obtain ⟨hle, hback⟩ := h.invariant.low y hy l ((hlow hyx).symm.trans hl)
      exact ⟨hle, hback.mono hmono⟩
  · intro y hy
    rw [hlow (h.ne_of_entered hy), hnumber (h.extend.isEntered hy)]
    exact h.extend.low y hy

theorem stack_close : (s.close x).stack = s₀.stack := by
  obtain ⟨seg, hstack, -⟩ := h.stack
  rw [Search.close, hstack, List.dropWhile_append_of_pos (h.ne_of_mem_seg hstack)]
  simp

theorem found_close {seg : List α} (hstack : s.stack = seg ++ x :: s₀.stack) :
    (s.close x).found = s.found ++ [seg ++ [x]] := by
  rw [Search.close, hstack, List.takeWhile_append_of_pos (h.ne_of_mem_seg hstack)]
  simp

theorem visited_close (hs₀ : Invariant deps p s₀) (hle : s₀.entered + 1 ≤ low) :
    Visited deps p s₀ x (s.close x) := by
  obtain ⟨seg, hstack, hpend⟩ := h.stack
  have hstack' := h.stack_close
  have hfound := h.found_close hstack
  have hext : Extends s₀ (s.close x) := ⟨h.extend.entered, h.extend.low⟩
  have hperm : ((s.close x).stack ++ (s.close x).found.flatten).Perm
      (s.stack ++ s.found.flatten) := by
    rw [hstack', hfound, hstack, List.flatten_append, List.flatten_singleton]
    have hswap : seg ++ x :: s₀.stack = (seg ++ [x]) ++ s₀.stack := by simp
    rw [hswap, ← List.append_assoc]
    apply List.perm_append_comm.trans
    rw [List.append_assoc (seg ++ [x])]
  have hsub : ∀ y ∈ s₀.stack, y ∈ s.stack := fun y hy => by
    rw [hstack]
    exact List.mem_append_right _ (List.mem_cons_of_mem _ hy)
  refine ⟨⟨hperm.nodup_iff.mpr h.invariant.nodup, ?_, ?_, ?_, ?_, ?_, ?_,
    hperm.length_eq.trans h.invariant.counted⟩, hext, [], s₀.entered + 1, hstack', h.own,
    fun _ hy => absurd hy List.not_mem_nil, fun _ => Nat.lt_succ_self _, fun hne => absurd rfl hne⟩
  · exact fun y hy => h.invariant.seen y (hperm.mem_iff.mp hy)
  · have := h.invariant.sorted
    rw [hstack, List.pairwise_append] at this
    exact hstack' ▸ (List.pairwise_cons.mp this.2.1).2
  · exact fun y hy => h.invariant.bounded y (hsub y (hstack' ▸ hy))
  · intro y hy l hl
    rw [hstack'] at hy
    obtain ⟨hlow, hnum⟩ := hext.low y (hs₀.entered_of_mem_stack hy)
    obtain ⟨hle, hback⟩ := hs₀.low y hy l (hlow ▸ hl)
    exact ⟨hnum.symm ▸ hle, hback.mono (hext.of_mem_stack hs₀ fun z hz => hstack'.symm ▸ hz)⟩
  · intro c hc
    rw [hfound] at hc
    rcases List.mem_append.mp hc with hc | hc
    · exact h.invariant.joined c hc
    · rw [List.mem_singleton.mp hc]
      exact h.joined_of_le hstack hpend hle
  · intro c hc
    rw [hfound] at hc
    rcases List.mem_append.mp hc with hc | hc
    · exact h.invariant.nonempty c hc
    · simp [List.mem_singleton.mp hc]

end Descending

end Steps

section Visit

variable {p : α → Prop}

/-- What the search does with one dependency `y` of the node it stands at. -/
def look (deps : α → List α) (depth : ℕ) (t : Search α × ℕ) (y : α) : Search α × ℕ :=
  match t.1.low? y with
  | none =>
      let s := visit deps depth y t.1
      (s, match s.low? y with
        | some l => min t.2 l
        | none => t.2)
  | some l => (t.1, if y ∈ t.1.stack then min t.2 l else t.2)

theorem visit_succ (depth : ℕ) (x : α) (s : Search α) :
    visit deps (depth + 1) x s =
      let below := (deps x).foldl (look deps depth) (s.enter x, s.entered + 1)
      if below.2 < s.entered + 1 then below.1.setLow x below.2 else below.1.close x := rfl

theorem invariant_empty : Invariant deps p Search.empty :=
  ⟨List.nodup_nil, by simp [Search.empty], .nil, by simp [Search.empty],
    by simp [Search.empty], by simp [Search.empty], by simp [Search.empty], rfl⟩

namespace Descending

variable {s₀ s : Search α} {t : Search α × ℕ} {x y : α} {depth low : ℕ}

theorem look (ht : Descending deps p s₀ x t.1 t.2) (hy : y ∈ deps x)
    (hvisit : t.1.low? y = none → visit deps depth y t.1 = t.1 ∨
      Visited deps p t.1 y (visit deps depth y t.1)) :
    Descending deps p s₀ x (look deps depth t y).1 (look deps depth t y).2 := by
  unfold Components.look
  cases hl : t.1.low? y with
  | none =>
    rcases hvisit hl with heq | hv
    · simpa only [heq, hl] using ht
    · obtain ⟨-, l, -, hl', -⟩ := hv.result
      simpa only [hl'] using ht.visited hy hv hl'
  | some l =>
    dsimp only
    split
    · rename_i hmem
      exact ht.lower hy (ht.invariant.low y hmem l hl).2
    · exact ht

theorem leave (h : Descending deps p s₀ x s low) (hs₀ : Invariant deps p s₀) :
    Visited deps p s₀ x (if low < s₀.entered + 1 then s.setLow x low else s.close x) := by
  split
  · rename_i hlt
    exact h.visited_setLow hlt
  · rename_i hle
    exact h.visited_close hs₀ (Nat.le_of_not_lt hle)

end Descending

variable (hdeps : ∀ x y, p x → y ∈ deps x → p y)

include hdeps

theorem visited_succ {depth : ℕ} {x : α} {s : Search α}
    (hvisit : ∀ (y : α) (t : Search α), Invariant deps p t → p y → t.low? y = none →
      visit deps depth y t = t ∨ Visited deps p t y (visit deps depth y t))
    (hs : Invariant deps p s) (hpx : p x) (hx : s.low? x = none) :
    Visited deps p s x (visit deps (depth + 1) x s) := by
  refine Descending.leave ?_ hs
  have hstep : ∀ t : Search α × ℕ, Descending deps p s x t.1 t.2 → ∀ y ∈ deps x,
      Descending deps p s x (look deps depth t y).1 (look deps depth t y).2 :=
    fun t ht y hy => ht.look hy (hvisit y t.1 ht.invariant (hdeps x y hpx hy))
  exact List.foldlRecOn (deps x) (look deps depth) (hs.enter hx hpx) hstep

/-- One visit, down to any depth. Without any depth left it does nothing. -/
theorem visit_spec (depth : ℕ) : ∀ (x : α) (s : Search α), Invariant deps p s → p x →
    s.low? x = none → visit deps depth x s = s ∨ Visited deps p s x (visit deps depth x s) := by
  induction depth with
  | zero => exact fun x s _ _ _ => .inl rfl
  | succ depth ih => exact fun x s hs hpx hx => .inr (visited_succ hdeps ih hs hpx hx)

/-- What the search does with one of the given nodes. -/
def resume (deps : α → List α) (depth : ℕ) (s : Search α) (x : α) : Search α :=
  match s.low? x with
  | none => visit deps depth x s
  | some _ => s

omit hdeps in
theorem components_eq_found (nodes : List α) : components deps nodes =
    (nodes.foldl (resume deps nodes.length) Search.empty).found := rfl

theorem Invariant.resume {s : Search α} {x : α} (hs : Invariant deps p s) (hx : p x) (depth : ℕ) :
    Invariant deps p (resume deps depth s x) := by
  unfold Components.resume
  split
  · rename_i hl
    rcases visit_spec hdeps depth x s hs hx hl with heq | hv
    · rwa [heq]
    · exact hv.invariant
  · exact hs

theorem invariant_components {nodes : List α} (hnodes : ∀ x ∈ nodes, p x) :
    Invariant deps p (nodes.foldl (resume deps nodes.length) Search.empty) :=
  List.foldlRecOn nodes _ invariant_empty fun _ hs x hx => hs.resume hdeps (hnodes x hx) _

/-- The components are disjoint and strongly connected, and their nodes have every
property that the given nodes have and that dependencies inherit. -/
theorem components_spec {nodes : List α} (hnodes : ∀ x ∈ nodes, p x) :
    (components deps nodes).flatten.Nodup ∧ (∀ c ∈ components deps nodes, Joined deps c) ∧
      ∀ c ∈ components deps nodes, ∀ x ∈ c, p x := by
  have hs := invariant_components hdeps hnodes
  rw [components_eq_found]
  refine ⟨(List.nodup_append.mp hs.nodup).2.1, hs.joined, fun c hc x hx => ?_⟩
  exact (hs.seen x (List.mem_append_right _ (List.mem_flatten.mpr ⟨c, hc, hx⟩))).2

end Visit

section Room

variable {nodes : List α} (hclosed : ∀ x y, x ∈ nodes → y ∈ deps x → y ∈ nodes)

include hclosed

theorem visited_of_room {depth : ℕ} {x : α} {s : Search α} (hs : Invariant deps (· ∈ nodes) s)
    (hx : x ∈ nodes) (hlow : s.low? x = none) (hroom : nodes.length ≤ depth + s.entered) :
    Visited deps (· ∈ nodes) s x (visit deps depth x s) := by
  cases depth with
  | zero =>
    have := hs.entered_lt hlow hx
    omega
  | succ depth => exact visited_succ hclosed (visit_spec hclosed depth) hs hx hlow

/-- What holds of a visit if it holds of the visits below it holds of all visits with depth for all
nodes that are still missing. -/
theorem visit_induction {P : ℕ → α → Search α → Prop}
    (hstep : ∀ depth x s, Invariant deps (· ∈ nodes) s → x ∈ nodes → s.low? x = none →
      (∀ t : Search α × ℕ, Descending deps (· ∈ nodes) s x t.1 t.2 → ∀ y ∈ deps x,
        Descending deps (· ∈ nodes) s x (look deps depth t y).1 (look deps depth t y).2 ∧
        (t.1.low? y = none → Visited deps (· ∈ nodes) t.1 y (visit deps depth y t.1) ∧
          P depth y t.1)) → P (depth + 1) x s)
    (depth : ℕ) : ∀ (x : α) (s : Search α), Invariant deps (· ∈ nodes) s → x ∈ nodes →
      s.low? x = none → nodes.length ≤ depth + s.entered → P depth x s := by
  induction depth with
  | zero =>
    intro x s hs hx hlow hroom
    have := hs.entered_lt hlow hx
    omega
  | succ depth ih =>
    intro x s hs hx hlow hroom
    refine hstep depth x s hs hx hlow fun t ht y hy => ?_
    have hyn : y ∈ nodes := hclosed x y hx hy
    have hleft : nodes.length ≤ depth + t.1.entered := by
      have := ht.lt_entered
      omega
    have hvisited (hnone : t.1.low? y = none) :=
      visited_of_room hclosed ht.invariant hyn hnone hleft
    exact ⟨ht.look hy fun hnone => .inr (hvisited hnone),
      fun hnone => ⟨hvisited hnone, ih y t.1 ht.invariant hyn hnone hleft⟩⟩

end Room

end LoopBounds.Components
