import LoopBounds.Proofs.Classify.ComponentOrder
import LoopBounds.Proofs.Classify.Owned

/-!
# Solving a loop

A loop is solved by one recursion over its instructions. It searches for components, and it
classifies each component as soon as it is complete. The recursion stands here with no bound on its
depth, as a relation between the states in which it begins and ends. It goes through all operands of
an instruction: one that is no instruction of the loop, or is in a complete component, counts with
the number of instructions entered so far, which is never lower than what has been met before.

The recursion ends, and in one state only: with the components as they are computed, and with their
classes.
-/

namespace LoopBounds

open Components (Search Invariant Descending Visited)

/-- The component that is complete when `x` is left. -/
def Components.Search.top {α : Type} [DecidableEq α] (s : Search α) (x : α) : List α :=
  s.stack.takeWhile (· ≠ x) ++ [x]

/-- How far the recursion has come: with its search, and with the classes. -/
structure Progress where
  search : Search InstrId
  known : Classes

namespace Progress

variable (v : LoopView) (s : Progress) (x : InstrId)

def start : Progress := ⟨Search.empty, []⟩

def enter : Progress := { s with search := s.search.enter x }

/-- Leaves `x`, which was entered with `number`, after `low` as the lowest number met below it. It
waits for an instruction entered before it, or else its component is complete and is classified. -/
def leave (number low : ℕ) : Progress :=
  if low < number then { s with search := s.search.setLow x low }
  else ⟨s.search.close x, v.classifyComponent s.known (s.search.top x)⟩

/-- The progress of a search that has classified what it found. -/
def ofSearch (s : Search InstrId) : Progress := ⟨s, s.found.foldl v.classifyComponent []⟩

theorem leave_ofSearch (s : Search InstrId) (number low : ℕ) :
    (ofSearch v s).leave v x number low =
      ofSearch v (if low < number then s.setLow x low else s.close x) := by
  unfold leave
  split_ifs
  · rfl
  · have hclassified : ofSearch v (s.close x) =
        ⟨s.close x, (s.found ++ [s.top x]).foldl v.classifyComponent []⟩ := rfl
    rw [hclassified, List.foldl_append]
    rfl

end Progress

namespace LoopView

/-- Going through the operands of an instruction, with the lowest number met so far before and after
that. -/
inductive Looks (v : LoopView) : List InstrId → Progress → ℕ → Progress → ℕ → Prop
  | done {s low} : v.Looks [] s low s low
  /-- An operand that is no instruction of the loop, or whose component is complete. -/
  | past {y rest s low t l} :
      (v.isMember y = true → s.search.Entered y ∧ y ∉ s.search.stack) →
      v.Looks rest s (min low s.search.entered) t l → v.Looks (y :: rest) s low t l
  /-- An instruction on the stack. -/
  | waiting {y rest s low t l m} : v.isMember y = true → y ∈ s.search.stack →
      s.search.low? y = some m → v.Looks rest s (min low m) t l → v.Looks (y :: rest) s low t l
  /-- An instruction met for the first time. -/
  | visit {y rest s low t l m u k} : v.isMember y = true → ¬ s.search.Entered y →
      v.Looks (v.inputs y) (s.enter y) (s.search.entered + 1) u k →
      (u.leave v y (s.search.entered + 1) k).search.low? y = some m →
      v.Looks rest (u.leave v y (s.search.entered + 1) k) (min low m) t l →
      v.Looks (y :: rest) s low t l

/-- The visit of an instruction. -/
def Visits (v : LoopView) (x : InstrId) (s t : Progress) : Prop :=
  ∃ u low, v.Looks (v.inputs x) (s.enter x) (s.search.entered + 1) u low ∧
    t = u.leave v x (s.search.entered + 1) low

/-- The recursion begins anew with each of the given instructions that it has not met. -/
inductive Solves (v : LoopView) : List InstrId → Progress → Progress → Prop
  | done {s} : v.Solves [] s s
  | met {x rest s t} : s.search.Entered x → v.Solves rest s t → v.Solves (x :: rest) s t
  | visit {x rest s t u} : ¬ s.search.Entered x → v.Visits x s u → v.Solves rest u t →
      v.Solves (x :: rest) s t

variable {v : LoopView}

section Unique

variable {todo : List InstrId} {x : InstrId} {s t t' : Progress} {low l l' : ℕ}

theorem Looks.unique (h : v.Looks todo s low t l) (h' : v.Looks todo s low t' l') :
    t = t' ∧ l = l' := by
  induction h generalizing t' l' with
  | done =>
    cases h'
    exact ⟨rfl, rfl⟩
  | past hpast _ ih =>
    cases h' with
    | past _ h' => exact ih h'
    | waiting hmember hstack => exact absurd hstack (hpast hmember).2
    | visit hmember hnew => exact absurd (hpast hmember).1 hnew
  | waiting hmember hstack hlow _ ih =>
    cases h' with
    | past hpast => exact absurd hstack (hpast hmember).2
    | waiting _ _ hlow' h' =>
      obtain rfl := Option.some.inj (hlow.symm.trans hlow')
      exact ih h'
    | visit _ hnew => exact absurd (Option.isSome_of_eq_some hlow) hnew
  | visit hmember hnew _ hlow _ ihbelow ih =>
    cases h' with
    | past hpast => exact absurd (hpast hmember).1 hnew
    | waiting _ _ hlow' => exact absurd (Option.isSome_of_eq_some hlow') hnew
    | visit _ _ hbelow' hlow' h' =>
      obtain ⟨rfl, rfl⟩ := ihbelow hbelow'
      obtain rfl := Option.some.inj (hlow.symm.trans hlow')
      exact ih h'

theorem Visits.unique (h : v.Visits x s t) (h' : v.Visits x s t') : t = t' := by
  obtain ⟨u, low, hlooks, rfl⟩ := h
  obtain ⟨u', low', hlooks', rfl⟩ := h'
  obtain ⟨rfl, rfl⟩ := hlooks.unique hlooks'
  rfl

theorem Solves.unique (h : v.Solves todo s t) (h' : v.Solves todo s t') : t = t' := by
  induction h with
  | done =>
    cases h'
    rfl
  | met hmet _ ih =>
    cases h' with
    | met _ h' => exact ih h'
    | visit hnew => exact absurd hmet hnew
  | visit hnew hvisit _ ih =>
    cases h' with
    | met hmet => exact absurd hmet hnew
    | visit _ hvisit' h' =>
      obtain rfl := hvisit.unique hvisit'
      exact ih h'

end Unique

section Ends

variable {x y : InstrId} {s s₀ : Search InstrId} {t : Search InstrId × ℕ} {depth : ℕ}

theorem Looks.member {rest : List InstrId} {u : Progress} {l : ℕ} (hy : y ∈ v.deps x)
    (hd : Descending v.deps (· ∈ v.members) s₀ x t.1 t.2)
    (hvisit : t.1.low? y = none →
      Visited v.deps (· ∈ v.members) t.1 y (Components.visit v.deps depth y t.1) ∧
        v.Visits y (.ofSearch v t.1) (.ofSearch v (Components.visit v.deps depth y t.1)))
    (h : v.Looks rest (.ofSearch v (Components.look v.deps depth t y).1)
      (Components.look v.deps depth t y).2 u l) :
    v.Looks (y :: rest) (.ofSearch v t.1) t.2 u l := by
  have hmember : v.isMember y = true := (List.mem_filter.mp hy).2
  unfold Components.look at h
  cases hlow : t.1.low? y with
  | some m =>
    simp only [hlow] at h
    by_cases hstack : y ∈ t.1.stack
    · rw [if_pos hstack] at h
      exact .waiting hmember hstack hlow h
    · rw [if_neg hstack] at h
      refine .past (fun _ => ⟨Option.isSome_of_eq_some hlow, hstack⟩) ?_
      rwa [Progress.ofSearch, min_eq_left hd.le_entered]
  | none =>
    obtain ⟨hvisited, u', low, hlooks, heq⟩ := hvisit hlow
    obtain ⟨-, m, -, hm, -⟩ := hvisited.result
    simp only [hlow, hm] at h
    have hnew : ¬ t.1.Entered y := by simp [Search.Entered, hlow]
    rw [heq] at h
    exact .visit hmember hnew hlooks (heq ▸ hm) h

variable (hv : v.forest.Finished) (hf : v.func.Linked)

include hv hf

/-- A visit with depth for all instructions that are still missing is the recursion's. -/
theorem visits_visit : ∀ (depth : ℕ) (x : InstrId) (s : Search InstrId),
    Invariant v.deps (· ∈ v.members) s → x ∈ v.members → s.low? x = none →
    v.members.length ≤ depth + s.entered →
    v.Visits x (.ofSearch v s) (.ofSearch v (Components.visit v.deps depth x s)) := by
  refine Components.visit_induction (P := fun depth x s =>
    v.Visits x (.ofSearch v s) (.ofSearch v (Components.visit v.deps depth x s)))
    (fun x y hx hy => mem_members_of_mem_deps hv hf hx hy) fun depth x s hs hx hlow hbelow => ?_
  -- By induction on the operands still to be gone through. The search leaves out those that are no
  -- instructions of the loop.
  have hfold (todo : List InstrId) (htodo : ∀ y ∈ todo, y ∈ v.inputs x) (t : Search InstrId × ℕ)
      (hd : Descending v.deps (· ∈ v.members) s x t.1 t.2) :
      ∃ u, (todo.filter v.isMember).foldl (Components.look v.deps depth) t = u ∧
        v.Looks todo (.ofSearch v t.1) t.2 (.ofSearch v u.1) u.2 := by
    induction todo generalizing t with
    | nil => exact ⟨t, rfl, .done⟩
    | cons y todo ih =>
      obtain ⟨hin, htodo⟩ := List.forall_mem_cons.mp htodo
      by_cases hmember : v.isMember y = true
      · have hy : y ∈ v.deps x := List.mem_filter.mpr ⟨hin, hmember⟩
        obtain ⟨hlook, hvisit⟩ := hbelow t hd y hy
        obtain ⟨u, hu, hlooks⟩ := ih htodo _ hlook
        refine ⟨u, ?_, .member hy hd hvisit hlooks⟩
        rw [List.filter_cons_of_pos hmember, List.foldl_cons, hu]
      · obtain ⟨u, hu, hlooks⟩ := ih htodo t hd
        refine ⟨u, ?_, .past (fun h => absurd h hmember) ?_⟩
        · rw [List.filter_cons_of_neg hmember, hu]
        · rwa [Progress.ofSearch, min_eq_left hd.le_entered]
  obtain ⟨u, hu, hlooks⟩ := hfold (v.inputs x) (fun _ hy => hy) (s.enter x, s.entered + 1)
    (hs.enter hlow hx)
  refine ⟨_, _, hlooks, ?_⟩
  rw [Progress.leave_ofSearch, Components.visit_succ, deps, hu]
  rfl

/-- The recursion ends, and in one state only. -/
theorem solves_iff {r : Progress} : v.Solves v.members .start r ↔
    r = .ofSearch v (v.members.foldl (Components.resume v.deps v.members.length) .empty) := by
  have hfold (todo : List InstrId) (htodo : ∀ x ∈ todo, x ∈ v.members) (s : Search InstrId)
      (hs : Invariant v.deps (· ∈ v.members) s) : v.Solves todo (.ofSearch v s)
        (.ofSearch v (todo.foldl (Components.resume v.deps v.members.length) s)) := by
    induction todo generalizing s with
    | nil => exact .done
    | cons x todo ih =>
      obtain ⟨hx, htodo⟩ := List.forall_mem_cons.mp htodo
      rw [List.foldl_cons]
      unfold Components.resume
      cases hlow : s.low? x with
      | some m => exact .met (Option.isSome_of_eq_some hlow) (ih htodo s hs)
      | none =>
        have hnew : ¬ s.Entered x := by simp [Search.Entered, hlow]
        have hroom : v.members.length ≤ v.members.length + s.entered := Nat.le_add_right _ _
        have hvisited := Components.visited_of_room
          (fun x y hx hy => mem_members_of_mem_deps hv hf hx hy) hs hx hlow hroom
        exact .visit hnew (visits_visit hv hf _ x s hs hx hlow hroom)
          (ih htodo _ hvisited.invariant)
  have hsolves := hfold v.members (fun _ hx => hx) .empty Components.invariant_empty
  constructor
  · intro h
    exact h.unique hsolves
  · rintro rfl
    exact hsolves

end Ends

end LoopView

end LoopBounds
