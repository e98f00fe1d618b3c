/-!
# Strongly connected components

A depth-first search over a graph in which every node lists its dependencies. Nodes get
increasing numbers as they are entered. The low number of a node is the least number
that it or anything below it can get back to on the search's stack; a node that gets
back to nothing before itself closes a component, which is taken off the stack.

Components come out in the order in which they are closed, so a component comes after
all components that it depends on. Inside a component the node entered last comes first.
-/

namespace LoopBounds.Components

variable {α : Type} [DecidableEq α]

/-- The state of the search. A node has a low number once it is entered. -/
structure Search (α : Type) where
  entered : Nat
  low : List (α × Nat)
  stack : List α
  found : List (List α)

namespace Search

def empty : Search α := ⟨0, [], [], []⟩

variable (s : Search α)

def low? (x : α) : Option Nat := s.low.lookup x

def setLow (x : α) (n : Nat) : Search α := { s with low := (x, n) :: s.low }

/-- Enters a node, whose number is the count of nodes entered with it. -/
def enter (x : α) : Search α :=
  { s with
    entered := s.entered + 1
    low := (x, s.entered + 1) :: s.low
    stack := x :: s.stack }

/-- Takes the component of `x` off the stack: `x` and all that was entered after it. -/
def close (x : α) : Search α :=
  { s with
    stack := (s.stack.dropWhile (· ≠ x)).tail
    found := s.found ++ [s.stack.takeWhile (· ≠ x) ++ [x]] }

end Search

/-- The search below node `x`, down to depth `depth`. -/
def visit (deps : α → List α) : Nat → α → Search α → Search α
  | 0, _, s => s
  | depth + 1, x, s =>
      let number := s.entered + 1
      let below := (deps x).foldl
        (fun (s, low) y =>
          match s.low? y with
          | none =>
              let s := visit deps depth y s
              (s, match s.low? y with
                | some l => min low l
                | none => low)
          | some l => (s, if y ∈ s.stack then min low l else low))
        (s.enter x, number)
      if below.2 < number then below.1.setLow x below.2 else below.1.close x

/-- The components of the graph on `nodes`, in which `deps` stays, dependencies first. -/
def components (deps : α → List α) (nodes : List α) : List (List α) :=
  (nodes.foldl
    (fun s x =>
      match s.low? x with
      | none => visit deps nodes.length x s
      | some _ => s)
    Search.empty).found

end LoopBounds.Components
