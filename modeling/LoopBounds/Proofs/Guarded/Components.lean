import LoopBounds.Proofs.Classify.Components
import LoopBounds.Proofs.Guarded.Reads

/-!
# Guarded search for components

After the search below a node its low number is looked up in the table, where it must be. It is
there whenever the search has enough depth left to enter the node, and the depth given suffices:
every node entered counts, and there are no more of them than nodes.
-/

namespace LoopBounds

namespace Guarded

open Components (Search Invariant Descending)

variable {α : Type} [DecidableEq α]

/-- What the search does with one dependency `y` of the node it stands at. -/
def look (visit : α → Search α → Guarded (Search α)) (t : Search α × Nat) (y : α) :
    Guarded (Search α × Nat) :=
  match t.1.low? y with
  | none => do
      let s ← visit y t.1
      return (s, min t.2 (← found .noKey (s.low? y)))
  | some l => pure (t.1, if y ∈ t.1.stack then min t.2 l else t.2)

def visit (deps : α → Guarded (List α)) : Nat → α → Search α → Guarded (Search α)
  | 0, _, _ => throw .depth
  | depth + 1, x, s => do
      let below ← (← deps x).foldlM (look (visit deps depth)) (s.enter x, s.entered + 1)
      return if below.2 < s.entered + 1 then below.1.setLow x below.2 else below.1.close x

/-- What the search does with one of the given nodes. -/
def resume (deps : α → Guarded (List α)) (depth : Nat) (s : Search α) (x : α) :
    Guarded (Search α) :=
  match s.low? x with
  | none => visit deps depth x s
  | some _ => pure s

def components (deps : α → Guarded (List α)) (nodes : List α) : Guarded (List (List α)) := do
  return (← nodes.foldlM (resume deps nodes.length) Search.empty).found

variable {deps : α → List α} {guarded : α → Guarded (List α)} {nodes : List α} {x : α}
variable (hread : ∀ x ∈ nodes, guarded x = pure (deps x))
variable (hclosed : ∀ x y, x ∈ nodes → y ∈ deps x → y ∈ nodes)

include hread hclosed

theorem visit_eq : ∀ (depth : ℕ) (x : α) (s : Search α), Invariant deps (· ∈ nodes) s → x ∈ nodes →
    s.low? x = none → nodes.length ≤ depth + s.entered →
    visit guarded depth x s = pure (Components.visit deps depth x s) := by
  refine Components.visit_induction (P := fun depth x s =>
    visit guarded depth x s = pure (Components.visit deps depth x s)) hclosed
    fun depth x s hs hx hlow hbelow => ?_
  have hlook (t : Search α × ℕ) (ht : Descending deps (· ∈ nodes) s x t.1 t.2) (y : α)
      (hy : y ∈ deps x) :
      look (visit guarded depth) t y = pure (Components.look deps depth t y) ∧
        Descending deps (· ∈ nodes) s x (Components.look deps depth t y).1
          (Components.look deps depth t y).2 := by
    obtain ⟨hd, hvisit⟩ := hbelow t ht y hy
    refine ⟨?_, hd⟩
    unfold look Components.look
    cases hl : t.1.low? y with
    | some l => rfl
    | none =>
      obtain ⟨hv, heq⟩ := hvisit hl
      obtain ⟨-, l, -, hl', -⟩ := hv.result
      simp [heq, hl']
  have hfold : (deps x).foldlM (look (visit guarded depth)) (s.enter x, s.entered + 1) =
      pure ((deps x).foldl (Components.look deps depth) (s.enter x, s.entered + 1)) :=
    foldlM_eq (I := fun t => Descending deps (· ∈ nodes) s x t.1 t.2) hlook (hs.enter hlow hx)
  simp only [visit, hread x hx, pure_bind, hfold]
  rfl

theorem components_eq : components guarded nodes = pure (Components.components deps nodes) := by
  have hresume (s : Search α) (hs : Invariant deps (· ∈ nodes) s) (x : α) (hx : x ∈ nodes) :
      resume guarded nodes.length s x = pure (Components.resume deps nodes.length s x) ∧
        Invariant deps (· ∈ nodes) (Components.resume deps nodes.length s x) := by
    refine ⟨?_, hs.resume hclosed hx _⟩
    unfold resume Components.resume
    cases hl : s.low? x with
    | some l => rfl
    | none => exact visit_eq hread hclosed _ x s hs hx hl (Nat.le_add_right _ _)
  rw [components, foldlM_eq hresume Components.invariant_empty]
  rfl

end Guarded

end LoopBounds
