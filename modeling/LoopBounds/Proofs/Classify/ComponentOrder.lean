import LoopBounds.Proofs.Classify.Components

/-!
# Components come after what they depend on

Every node is in a component, and every initial segment of the components is closed under
dependencies. Two nodes that depend on each other are therefore in the same component. So the
components are determined by the graph; the order in which the nodes are given only decides how
each of them is written down, and which of several independent ones comes first.
-/

namespace LoopBounds.Components

variable {α : Type} {deps : α → List α}

/-- Every initial segment of the components is closed under dependencies. -/
def DependenciesFirst (deps : α → List α) (found : List (List α)) : Prop :=
  ∀ before after, found = before ++ after →
    ∀ x ∈ before.flatten, ∀ y ∈ deps x, y ∈ before.flatten

section Order

variable {found before after : List (List α)} {c d : List α} {x y : α}

theorem dependenciesFirst_nil : DependenciesFirst deps [] := by
  intro before after h x hx
  rw [(List.append_eq_nil_iff.mp h.symm).1] at hx
  cases hx

theorem DependenciesFirst.snoc (h : DependenciesFirst deps found)
    (hc : ∀ x ∈ c, ∀ y ∈ deps x, y ∈ found.flatten ∨ y ∈ c) :
    DependenciesFirst deps (found ++ [c]) := by
  intro before after heq x hx y hy
  rcases List.eq_nil_or_concat after with rfl | ⟨after, last, rfl⟩
  · obtain rfl : found ++ [c] = before := by simpa using heq
    rw [List.flatten_append, List.flatten_singleton, List.mem_append] at hx ⊢
    rcases hx with hx | hx
    · exact .inl (h found [] (by simp) x hx y hy)
    · exact hc x hx y hy
  · rw [List.concat_eq_append, ← List.append_assoc] at heq
    exact h before after (List.append_inj' heq rfl).1 x hx y hy

/-- What leads to a node is in its component or comes later. -/
theorem DependenciesFirst.mem_of_leads (h : DependenciesFirst deps found)
    (heq : found = before ++ after) (hx : x ∈ before.flatten) {p : α → Prop}
    (hxy : Leads deps p x y) : y ∈ before.flatten := by
  induction hxy with
  | refl _ => exact hx
  | step _ hy _ ih => exact ih (h before after heq _ hx _ hy)

theorem DependenciesFirst.mem_or (h : DependenciesFirst deps found)
    (heq : found = before ++ c :: after) (hx : x ∈ c) (hy : y ∈ deps x) :
    y ∈ before.flatten ∨ y ∈ c := by
  have hmem : x ∈ (before ++ [c]).flatten := by simp [hx]
  have := h (before ++ [c]) after (by rw [heq]; simp) x hmem y hy
  rwa [List.flatten_append, List.flatten_singleton, List.mem_append] at this

theorem not_mem_before (hnodup : found.flatten.Nodup) (heq : found = before ++ c :: after)
    (hx : x ∈ c) : x ∉ before.flatten := by
  rw [heq, List.flatten_append, List.flatten_cons, List.nodup_append] at hnodup
  exact fun hmem => hnodup.2.2 x hmem x (List.mem_append_left _ hx) rfl

theorem not_mem_after (hnodup : found.flatten.Nodup) (heq : found = before ++ c :: after)
    (hx : x ∈ c) : x ∉ after.flatten := by
  rw [heq, List.flatten_append, List.flatten_cons, List.nodup_append, List.nodup_append] at hnodup
  exact fun hmem => hnodup.2.1.2.2 x hx x hmem rfl

theorem DependenciesFirst.eq_of_leads (h : DependenciesFirst deps found)
    (hnodup : found.flatten.Nodup) (hc : c ∈ found) (hd : d ∈ found) (hx : x ∈ c) (hy : y ∈ d)
    {p : α → Prop} (hxy : Leads deps p x y) (hyx : Leads deps p y x) : c = d := by
  obtain ⟨before, after, heq⟩ := List.append_of_mem hc
  have hy' : y ∈ (before ++ [c]).flatten :=
    h.mem_of_leads (heq.trans (List.append_cons ..)) (by simp [hx]) hxy
  rw [heq, List.mem_append] at hd
  rcases hd with hd | hd
  · -- Then `d` and all it leads to come before `c`.
    obtain ⟨before', after', rfl⟩ := List.append_of_mem hd
    have heq' : found = (before' ++ [d]) ++ (after' ++ c :: after) := by simp [heq]
    have hx' : x ∈ (before' ++ [d]).flatten := h.mem_of_leads heq' (by simp [hy]) hyx
    refine absurd ?_ (not_mem_before hnodup heq hx)
    rw [List.flatten_append, List.flatten_cons, ← List.append_assoc]
    rw [List.flatten_append, List.flatten_singleton] at hx'
    exact List.mem_append_left _ hx'
  · rcases List.mem_cons.mp hd with rfl | hd
    · rfl
    · have hlater : y ∈ after.flatten := List.mem_flatten.mpr ⟨d, hd, hy⟩
      rw [heq, List.append_cons, List.flatten_append, List.nodup_append] at hnodup
      exact absurd rfl (hnodup.2.2 y hy' y hlater)

end Order

variable [DecidableEq α]

/-- What `y` depends on is closed, or it waits on the stack and the low number of `y` does not
exceed its number. -/
def Explored (deps : α → List α) (s : Search α) (y : α) : Prop :=
  ∀ z ∈ deps y, z ∈ s.found.flatten ∨ z ∈ s.stack ∧ ∃ m, s.low? y = some m ∧ m ≤ s.number z

/-- What is entered is kept, and what is found comes after its dependencies. -/
structure Ordered (deps : α → List α) (s : Search α) : Prop where
  kept : ∀ y, s.Entered y → y ∈ s.stack ++ s.found.flatten
  first : DependenciesFirst deps s.found

/-- What a finished visit from state `s` leaves behind, beside what `Visited` says. -/
structure Finished (deps : α → List α) (s t : Search α) : Prop where
  ordered : Ordered deps t
  found : s.found <+: t.found
  explored : ∀ seg, t.stack = seg ++ s.stack → ∀ y ∈ seg, Explored deps t y

/-- Where the search stands that has entered `x` from state `s₀` and gone through the
dependencies `done` of `x`, beside what `Descending` says. -/
structure Looked (deps : α → List α) (s₀ : Search α) (x : α) (s : Search α) (low : ℕ)
    (done : List α) : Prop where
  ordered : Ordered deps s
  found : s₀.found <+: s.found
  explored : ∀ seg, s.stack = seg ++ x :: s₀.stack → ∀ y ∈ seg, Explored deps s y
  looked : ∀ z ∈ done, z ∈ s.found.flatten ∨ z ∈ s.stack ∧ low ≤ s.number z

variable {p : α → Prop} {s₀ s t : Search α} {x y : α} {low : ℕ} {done nodes : List α}

section Steps

omit [DecidableEq α] in
theorem mem_flatten_mono {found found' : List (List α)} (h : found <+: found')
    (hx : x ∈ found.flatten) : x ∈ found'.flatten := by
  obtain ⟨more, rfl⟩ := h
  rw [List.flatten_append]
  exact List.mem_append_left _ hx

theorem Explored.mono (hs : Invariant deps p s) (hext : Extends s t)
    (hstack : ∀ z ∈ s.stack, z ∈ t.stack) (hfound : s.found <+: t.found) (hy : y ∈ s.stack)
    (h : Explored deps s y) : Explored deps t y := by
  intro z hz
  refine (h z hz).imp (mem_flatten_mono hfound) fun ⟨hmem, m, hm, hle⟩ => ⟨hstack z hmem, m, ?_⟩
  have hlow := (hext.low y (hs.entered_of_mem_stack hy)).1
  have hnumber := (hext.low z (hs.entered_of_mem_stack hmem)).2
  exact ⟨hlow.trans hm, hle.trans hnumber.ge⟩

theorem ordered_empty : Ordered deps Search.empty :=
  ⟨fun _ hy => absurd hy Bool.false_ne_true, dependenciesFirst_nil⟩

theorem Ordered.enter (hs : Ordered deps s) (x : α) :
    Looked deps s x (s.enter x) (s.entered + 1) [] where
  ordered := by
    refine ⟨fun y hy => ?_, hs.first⟩
    by_cases hyx : y = x
    · exact hyx ▸ List.mem_cons_self
    · have hold : (s.enter x).low? y = s.low? y := Search.low?_cons.trans (if_neg hyx)
      exact List.mem_cons_of_mem _ (hs.kept y (by rwa [Search.Entered, hold] at hy))
  found := List.prefix_rfl
  explored seg hseg y hy := by
    have hnil : [] ++ x :: s.stack = seg ++ x :: s.stack := hseg
    rw [← List.append_cancel_right hnil] at hy
    cases hy
  looked z hz := by cases hz

/-- A dependency that has been entered before is on the stack, with a low number, or closed. -/
theorem Ordered.mem_or (hs : Ordered deps s) (hi : Invariant deps p s) {l : ℕ}
    (hl : s.low? y = some l) : y ∈ s.found.flatten ∨ y ∈ s.stack ∧ l ≤ s.number y := by
  rcases List.mem_append.mp (hs.kept y (Option.isSome_of_eq_some hl)) with hy | hy
  · exact .inr ⟨hy, (hi.low y hy l hl).1⟩
  · exact .inl hy

namespace Looked

theorem mono_low {low' : ℕ} (h : Looked deps s₀ x s low done) (hle : low' ≤ low) :
    Looked deps s₀ x s low' done :=
  { h with looked := fun z hz => (h.looked z hz).imp_right fun hz => ⟨hz.1, hle.trans hz.2⟩ }

theorem snoc (h : Looked deps s₀ x s low done)
    (hy : y ∈ s.found.flatten ∨ y ∈ s.stack ∧ low ≤ s.number y) :
    Looked deps s₀ x s low (done ++ [y]) where
  ordered := h.ordered
  found := h.found
  explored := h.explored
  looked z hz := by
    rcases List.mem_append.mp hz with hz | hz
    · exact h.looked z hz
    · rwa [List.mem_singleton.mp hz]

theorem visited (h : Looked deps s₀ x s low done) (hd : Descending deps p s₀ x s low)
    (hv : Visited deps p s y t) (hf : Finished deps s t) : Looked deps s₀ x t low done := by
  obtain ⟨seg', -, hstack', -⟩ := hv.result
  obtain ⟨seg, hstack, -⟩ := hd.stack
  have hsub : ∀ z ∈ s.stack, z ∈ t.stack := fun z hz => hstack' ▸ List.mem_append_right _ hz
  refine ⟨hf.ordered, h.found.trans hf.found, fun both hboth => ?_, fun z hz => ?_⟩
  · have heq : both ++ x :: s₀.stack = (seg' ++ seg) ++ x :: s₀.stack := by
      rw [← hboth, hstack', hstack, List.append_assoc]
    obtain rfl := List.append_cancel_right heq
    intro z hz
    rcases List.mem_append.mp hz with hz | hz
    · exact hf.explored seg' hstack' z hz
    · have hmem : z ∈ s.stack := hstack ▸ List.mem_append_left _ hz
      exact (h.explored seg hstack z hz).mono hd.invariant hv.extend hsub hf.found hmem
  · refine (h.looked z hz).imp (mem_flatten_mono hf.found) fun ⟨hmem, hle⟩ => ⟨hsub z hmem, ?_⟩
    exact hle.trans (hv.extend.low z (hd.invariant.entered_of_mem_stack hmem)).2.ge

/-- `x` waits on the stack when something before it has been reached. -/
theorem finished_setLow (h : Looked deps s₀ x s low (deps x)) (hd : Descending deps p s₀ x s low) :
    Finished deps s₀ (s.setLow x low) := by
  obtain ⟨seg, hstack, -⟩ := hd.stack
  have hlow {y : α} (hy : y ≠ x) : (s.setLow x low).low? y = s.low? y :=
    Search.low?_cons.trans (if_neg hy)
  have hnumber {z : α} (hz : z ∈ s.stack) : (s.setLow x low).number z = s.number z :=
    Search.number_cons_of_entered rfl (hd.invariant.entered_of_mem_stack hz)
  refine ⟨⟨fun y hy => ?_, h.ordered.first⟩, h.found, fun both hboth y hy => ?_⟩
  · by_cases hyx : y = x
    · rw [hyx]
      exact List.mem_append_left _ hd.mem_stack
    · exact h.ordered.kept y (by rwa [Search.Entered, hlow hyx] at hy)
  · have heq : both ++ s₀.stack = (seg ++ [x]) ++ s₀.stack := by
      rw [← hboth, List.append_assoc]
      exact hstack
    obtain rfl := List.append_cancel_right heq
    intro z hz
    rcases List.mem_append.mp hy with hy | hy
    · have hne : y ≠ x := fun heq => hd.not_mem_seg hstack (heq ▸ hy)
      refine (h.explored seg hstack y hy z hz).imp_right ?_
      rintro ⟨hmem, m, hm, hle⟩
      exact ⟨hmem, m, (hlow hne).trans hm, hle.trans (hnumber hmem).ge⟩
    · obtain rfl := List.mem_singleton.mp hy
      refine (h.looked z hz).imp_right ?_
      rintro ⟨hmem, hle⟩
      exact ⟨hmem, low, Search.low?_cons.trans (if_pos rfl), hle.trans (hnumber hmem).ge⟩

/-- When `x` is closed, all that its component depends on is closed. -/
theorem finished_close (h : Looked deps s₀ x s low (deps x)) (hd : Descending deps p s₀ x s low)
    (hle : s₀.entered + 1 ≤ low) : Finished deps s₀ (s.close x) := by
  obtain ⟨seg, hstack, hpend⟩ := hd.stack
  have hfound := hd.found_close hstack
  have hsegment : seg ++ x :: s₀.stack = seg ++ [x] ++ s₀.stack := by simp
  refine ⟨⟨fun y hy => ?_, ?_⟩, ?_, fun both hboth y hy => ?_⟩
  · rw [hd.stack_close, hfound, List.flatten_append, List.flatten_singleton]
    have := h.ordered.kept y hy
    rw [hstack, hsegment] at this
    simp only [List.mem_append] at this ⊢
    tauto
  · rw [hfound]
    refine h.ordered.first.snoc fun y hy z hz => ?_
    have hin (hmem : z ∈ s.stack) (hlow : low ≤ s.number z) : z ∈ seg ++ [x] :=
      hd.mem_seg_of_le hstack hmem (by have := hd.number; omega)
    rcases List.mem_append.mp hy with hy | hy
    · obtain ⟨⟨m, hm, hlm, -⟩, -⟩ := hpend y hy
      refine (h.explored seg hstack y hy z hz).imp_right fun ⟨hmem, m', hm', hle'⟩ => ?_
      obtain rfl := Option.some.inj (hm.symm.trans hm')
      exact hin hmem (hlm.trans hle')
    · obtain rfl := List.mem_singleton.mp hy
      exact (h.looked z hz).imp_right fun ⟨hmem, hlow⟩ => hin hmem hlow
  · rw [hfound]
    exact h.found.trans (List.prefix_append _ _)
  · have hnil : both ++ s₀.stack = [] ++ s₀.stack := by
      rw [← hboth, hd.stack_close, List.nil_append]
    rw [List.append_cancel_right hnil] at hy
    cases hy

end Looked

end Steps

section Visit

variable {depth : ℕ}

theorem Looked.look {t : Search α × ℕ} (h : Looked deps s₀ x t.1 t.2 done)
    (hd : Descending deps p s₀ x t.1 t.2)
    (hvisit : t.1.low? y = none → Visited deps p t.1 y (visit deps depth y t.1) ∧
      Finished deps t.1 (visit deps depth y t.1)) :
    Looked deps s₀ x (look deps depth t y).1 (look deps depth t y).2 (done ++ [y]) := by
  unfold Components.look
  cases hl : t.1.low? y with
  | some l =>
    dsimp only
    have hy := h.ordered.mem_or hd.invariant hl
    split_ifs with hmem
    · exact (h.mono_low (min_le_left _ _)).snoc
        (hy.imp_right fun hy => ⟨hy.1, (min_le_right _ _).trans hy.2⟩)
    · exact h.snoc (.inl (hy.resolve_right fun hy => hmem hy.1))
  | none =>
    obtain ⟨hv, hf⟩ := hvisit hl
    obtain ⟨-, l, -, hl', -⟩ := hv.result
    simp only [hl']
    have hy := hf.ordered.mem_or hv.invariant hl'
    exact ((h.visited hd hv hf).mono_low (min_le_left _ _)).snoc
      (hy.imp_right fun hy => ⟨hy.1, (min_le_right _ _).trans hy.2⟩)

variable (hclosed : ∀ x y, x ∈ nodes → y ∈ deps x → y ∈ nodes)

include hclosed

theorem visit_ordered : ∀ (depth : ℕ) (x : α) (s : Search α), Invariant deps (· ∈ nodes) s →
    x ∈ nodes → s.low? x = none → nodes.length ≤ depth + s.entered → Ordered deps s →
    Finished deps s (visit deps depth x s) := by
  refine visit_induction (P := fun depth x s => Ordered deps s →
    Finished deps s (visit deps depth x s)) hclosed fun depth x s hs hx hlow hbelow hordered => ?_
  -- By induction on the dependencies still to be gone through.
  have hfold (todo done : List α) (htodo : ∀ y ∈ todo, y ∈ deps x) (t : Search α × ℕ)
      (hd : Descending deps (· ∈ nodes) s x t.1 t.2) (hl : Looked deps s x t.1 t.2 done) :
      Descending deps (· ∈ nodes) s x (todo.foldl (look deps depth) t).1
          (todo.foldl (look deps depth) t).2 ∧
        Looked deps s x (todo.foldl (look deps depth) t).1 (todo.foldl (look deps depth) t).2
          (done ++ todo) := by
    induction todo generalizing done t with
    | nil => exact ⟨hd, by simpa using hl⟩
    | cons y todo ih =>
      obtain ⟨hy, htodo⟩ := List.forall_mem_cons.mp htodo
      obtain ⟨hlook, hvisit⟩ := hbelow t hd y hy
      have := ih (done ++ [y]) htodo (look deps depth t y) hlook
        (hl.look hd fun hnone => (hvisit hnone).imp_right fun hfinished => hfinished hl.ordered)
      rwa [List.append_assoc, List.singleton_append] at this
  obtain ⟨hd, hl⟩ := hfold (deps x) [] (fun y hy => hy) (s.enter x, s.entered + 1)
    (hs.enter hlow hx) (hordered.enter x)
  rw [visit_succ]
  dsimp only
  split_ifs with hlt
  · exact hl.finished_setLow hd
  · exact hl.finished_close hd (Nat.le_of_not_lt hlt)

omit hclosed in
/-- Nothing is left waiting when the search began with nothing on the stack: the oldest node that
waits would lead back to an older one. -/
theorem Visited.stack_eq_nil (h : Visited deps p s x t) (hs : s.stack = []) : t.stack = [] := by
  obtain ⟨seg, l, hstack, -, hpend, -⟩ := h.result
  rw [hs, List.append_nil] at hstack
  have hnone : ∀ n, ∀ y ∈ seg, t.number y ≠ n := by
    intro n
    induction n using Nat.strong_induction_on with
    | _ n ih =>
      rintro y hy rfl
      obtain ⟨⟨m, hm, -, hlt⟩, -⟩ := hpend y hy
      obtain ⟨w, hw, hnumber, -⟩ := (h.invariant.low y (hstack ▸ hy) m hm).2
      exact ih m hlt w (hstack ▸ hw) hnumber
  rw [hstack, List.eq_nil_iff_forall_not_mem]
  exact fun y hy => hnone _ y hy rfl

/-- Every node is in a component, after all that it depends on. -/
theorem components_order : DependenciesFirst deps (components deps nodes) ∧
    ∀ x ∈ nodes, x ∈ (components deps nodes).flatten := by
  have hfold (todo done : List α) (htodo : ∀ y ∈ todo, y ∈ nodes) (s : Search α)
      (hs : Invariant deps (· ∈ nodes) s) (ho : Ordered deps s) (hnil : s.stack = [])
      (hdone : ∀ y ∈ done, s.Entered y) :
      ∃ t, todo.foldl (resume deps nodes.length) s = t ∧ Ordered deps t ∧ t.stack = [] ∧
        ∀ y ∈ done ++ todo, t.Entered y := by
    induction todo generalizing done s with
    | nil => exact ⟨s, rfl, ho, hnil, by simpa using hdone⟩
    | cons x todo ih =>
      obtain ⟨hx, htodo⟩ := List.forall_mem_cons.mp htodo
      have hresume : Invariant deps (· ∈ nodes) (resume deps nodes.length s x) ∧
          Ordered deps (resume deps nodes.length s x) ∧
          (resume deps nodes.length s x).stack = [] ∧
          ∀ y ∈ done ++ [x], (resume deps nodes.length s x).Entered y := by
        rw [List.forall_mem_append, List.forall_mem_singleton]
        unfold resume
        cases hl : s.low? x with
        | some l => exact ⟨hs, ho, hnil, hdone, Option.isSome_of_eq_some hl⟩
        | none =>
          have hroom : nodes.length ≤ nodes.length + s.entered := Nat.le_add_right _ _
          have hv := visited_of_room hclosed hs hx hl hroom
          have hf := visit_ordered hclosed _ x s hs hx hl hroom ho
          obtain ⟨-, l, -, hl', -⟩ := hv.result
          exact ⟨hv.invariant, hf.ordered, hv.stack_eq_nil hnil,
            fun y hy => hv.extend.isEntered (hdone y hy), Option.isSome_of_eq_some hl'⟩
      obtain ⟨hi, ho, hnil, hdone⟩ := hresume
      simpa using ih (done ++ [x]) htodo _ hi ho hnil hdone
  obtain ⟨t, ht, ho, hnil, hall⟩ := hfold nodes [] (fun y hy => hy) Search.empty invariant_empty
    ordered_empty rfl (fun y hy => by cases hy)
  rw [components_eq_found, ht]
  refine ⟨ho.first, fun x hx => ?_⟩
  have := ho.kept x (hall x hx)
  rwa [hnil, List.nil_append] at this

end Visit

end LoopBounds.Components
