import LoopBounds.Flow.Graph
import Mathlib.Tactic

/-!
# Walks reach what they should

A walk from given starts stays in its region, follows the given edges, and misses nothing
that can be reached in this way. The work list is the frontier: every edge out of a seen
member leads to another seen member or to work that is still pending.
-/

namespace LoopBounds

variable {α : Type} {region : List α} {next : α → List α} {starts : List α}

/-- What can be reached from `starts` along `next` without leaving `region`. -/
inductive Reached (region : List α) (next : α → List α) (starts : List α) : α → Prop
  | start {x} : x ∈ starts → x ∈ region → Reached region next starts x
  | step {x y} : Reached region next starts x → y ∈ next x → y ∈ region →
      Reached region next starts y

theorem Reached.mem_region {x : α} (h : Reached region next starts x) : x ∈ region := by
  cases h with
  | start _ h => exact h
  | step _ _ h => exact h

variable [DecidableEq α]

theorem walkFrom_sound (seen work : List α) (hs : ∀ y ∈ seen, Reached region next starts y)
    (hw : ∀ y ∈ work, y ∈ region → Reached region next starts y) :
    ∀ x ∈ walkFrom region next seen work, Reached region next starts x := by
  fun_induction walkFrom region next seen work with
  | case1 seen => exact hs
  | case2 seen x work h ih => exact ih hs fun y hy => hw y (List.mem_cons_of_mem _ hy)
  | case3 seen x work h ih =>
    simp only [not_or, Decidable.not_not] at h
    have hx : Reached region next starts x := hw x List.mem_cons_self h.2
    refine ih ?_ ?_
    · intro y hy
      rcases List.mem_cons.mp hy with rfl | hy
      · exact hx
      · exact hs y hy
    · intro y hy hr
      rcases List.mem_append.mp hy with hy | hy
      · exact .step hx hy hr
      · exact hw y (List.mem_cons_of_mem _ hy) hr

theorem seen_subset_walkFrom (seen work : List α) :
    ∀ x ∈ seen, x ∈ walkFrom region next seen work := by
  fun_induction walkFrom region next seen work with
  | case1 seen => exact fun _ hx => hx
  | case2 seen x work h ih => exact ih
  | case3 seen x work h ih => exact fun y hy => ih y (List.mem_cons_of_mem _ hy)

theorem work_subset_walkFrom (seen work : List α) :
    ∀ x ∈ work, x ∈ region → x ∈ walkFrom region next seen work := by
  fun_induction walkFrom region next seen work with
  | case1 seen => simp
  | case2 seen x work h ih =>
    intro y hy hr
    rcases List.mem_cons.mp hy with rfl | hy
    · exact seen_subset_walkFrom _ _ y (h.resolve_right (not_not_intro hr))
    · exact ih y hy hr
  | case3 seen x work h ih =>
    intro y hy hr
    rcases List.mem_cons.mp hy with rfl | hy
    · exact seen_subset_walkFrom _ _ y List.mem_cons_self
    · exact ih y (List.mem_append_right _ hy) hr

/-- Nothing leads out of the result: the edges out of seen members end in seen members
or in the work. -/
theorem walkFrom_closed (seen work : List α)
    (hf : ∀ x ∈ seen, ∀ y ∈ next x, y ∈ region → y ∈ seen ∨ y ∈ work) :
    ∀ x ∈ walkFrom region next seen work, ∀ y ∈ next x, y ∈ region →
      y ∈ walkFrom region next seen work := by
  fun_induction walkFrom region next seen work with
  | case1 seen =>
    intro x hx y hy hr
    simpa using hf x hx y hy hr
  | case2 seen x work h ih =>
    apply ih
    intro z hz y hy hr
    rcases hf z hz y hy hr with hy | hy
    · exact .inl hy
    · rcases List.mem_cons.mp hy with rfl | hy
      · exact .inl (h.resolve_right (not_not_intro hr))
      · exact .inr hy
  | case3 seen x work h ih =>
    apply ih
    intro z hz y hy hr
    rcases List.mem_cons.mp hz with rfl | hz
    · exact .inr (List.mem_append_left _ hy)
    · rcases hf z hz y hy hr with hy | hy
      · exact .inl (List.mem_cons_of_mem _ hy)
      · rcases List.mem_cons.mp hy with rfl | hy
        · exact .inl List.mem_cons_self
        · exact .inr (List.mem_append_right _ hy)

/-- A walk collects exactly what can be reached. -/
theorem mem_walk_iff {x : α} : x ∈ walk region next starts ↔ Reached region next starts x := by
  constructor
  · exact walkFrom_sound [] starts (by simp) (fun y hy hr => .start hy hr) x
  · intro h
    induction h with
    | start hs hr => exact work_subset_walkFrom [] starts _ hs hr
    | step _ hy hr ih => exact walkFrom_closed [] starts (by simp) _ ih _ hy hr

end LoopBounds
