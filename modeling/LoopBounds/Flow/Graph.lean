import LoopBounds.Func.Basic

/-!
# Flow graphs and walks in them

A flow graph is what the analyses of control see of a function: how many blocks it has
and the edges between them. `walk` collects what can be reached from given blocks along
given edges without leaving a given set. Every search here is such a walk: forwards from
the entry, forwards with one block taken out, and backwards from the end of a loop.
-/

namespace LoopBounds

/-- The blocks of a function and the edges between them. -/
structure FlowGraph where
  size : Nat
  succs : BlockId → List BlockId
  preds : BlockId → List BlockId

def Func.flow (f : Func) : FlowGraph where
  size := f.blocks.size
  succs b := (f.block b).succs
  preds b := (f.block b).preds

def FlowGraph.blocks (g : FlowGraph) : List BlockId := (List.range g.size).map BlockId.mk

section Walk

variable {α : Type} [DecidableEq α]

/-- What the members of `region` not yet seen can still add to the work: themselves and
their edges. -/
def pending (next : α → List α) (seen : List α) : List α → Nat
  | [] => 0
  | x :: region =>
      (if x ∈ seen then 0 else (next x).length + 1) + pending next seen region

theorem pending_cons_le (next : α → List α) (x : α) (seen region : List α) :
    pending next (x :: seen) region ≤ pending next seen region := by
  induction region with
  | nil => exact Nat.le_refl _
  | cons y region ih =>
    simp only [pending, List.mem_cons]
    by_cases hy : y ∈ seen
    · simp only [hy, or_true, if_true]
      omega
    · by_cases hxy : y = x
      · simp only [hxy, true_or, if_true]
        omega
      · simp only [hxy, hy, or_self, if_false]
        omega

/-- Seeing a new member takes it and its edges out of the pending work. -/
theorem pending_cons_add_le (next : α → List α) {x : α} {seen region : List α}
    (hx : x ∉ seen) (hr : x ∈ region) :
    pending next (x :: seen) region + (next x).length + 1 ≤ pending next seen region := by
  induction region with
  | nil => cases hr
  | cons y region ih =>
    by_cases hxy : y = x
    · subst hxy
      have := pending_cons_le next y seen region
      simp only [pending, List.mem_cons, true_or, if_true, if_neg hx]
      omega
    · have hmem : x ∈ region := by
        rcases List.mem_cons.mp hr with h | h
        · exact absurd h.symm hxy
        · exact h
      have := ih hmem
      simp only [pending, List.mem_cons]
      by_cases hy : y ∈ seen
      · simp only [hy, or_true, if_true]
        omega
      · simp only [hxy, hy, or_self, if_false]
        omega

/-- Adds to `seen` all that can be reached from `work` inside `region`. -/
def walkFrom (region : List α) (next : α → List α) (seen : List α) : List α → List α
  | [] => seen
  | x :: work =>
      if x ∈ seen ∨ x ∉ region then walkFrom region next seen work
      else walkFrom region next (x :: seen) (next x ++ work)
termination_by work => pending next seen region + work.length
decreasing_by
  · simp
  · rename_i h
    simp only [not_or, Decidable.not_not] at h
    have := pending_cons_add_le next h.1 h.2
    simp only [List.length_append, List.length_cons]
    omega

/-- All that can be reached from `starts` along `next` without leaving `region`. -/
def walk (region : List α) (next : α → List α) (starts : List α) : List α :=
  walkFrom region next [] starts

end Walk

end LoopBounds
