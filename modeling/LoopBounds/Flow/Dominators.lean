import LoopBounds.Flow.Graph

/-!
# Dominators

A block dominates those blocks that the entry no longer reaches once the block is taken
out of the graph. Blocks that the entry does not reach at all take no part.

The immediate dominator of a block is the closest of its strict dominators. They form a
chain, so it is found by going through them in any order and keeping the one that the
others so far dominate.
-/

namespace LoopBounds

/-- The dominators of a flow graph, worked out for every block. -/
structure Dominators where
  /-- The blocks that the entry reaches, in ascending order. -/
  reachable : List BlockId
  /-- For every block the blocks it dominates, itself included, in ascending order. -/
  dominated : Array (List BlockId)
  /-- For every block its immediate dominator. -/
  immediate : Array (Option BlockId)

namespace FlowGraph

variable (g : FlowGraph)

def reachable : List BlockId :=
  let seen := walk g.blocks g.succs [.entry]
  g.blocks.filter (· ∈ seen)

/-- What the entry reaches when block `a` is taken out. -/
def reachableWithout (a : BlockId) : List BlockId :=
  walk (g.blocks.filter (· ≠ a)) g.succs [.entry]

end FlowGraph

namespace Dominators

variable (t : Dominators)

/-- The blocks that `a` dominates. -/
def below (a : BlockId) : List BlockId := t.dominated[a.index]?.getD []

def dominates (a b : BlockId) : Bool := b ∈ t.below a

def isReachable (b : BlockId) : Bool := b ∈ t.reachable

def idom? (b : BlockId) : Option BlockId := (t.immediate[b.index]?).join

/-- The blocks whose immediate dominator is `a`, in ascending order. -/
def children (a : BlockId) : List BlockId :=
  t.reachable.filter fun b => t.idom? b = some a

end Dominators

/-- The closest of the strict dominators of `b` among `candidates`. -/
def closest (dominates : BlockId → BlockId → Bool) (candidates : List BlockId)
    (b : BlockId) : Option BlockId :=
  (candidates.filter fun a => a ≠ b && dominates a b).foldl
    (fun best a =>
      match best with
      | none => some a
      | some old => if dominates old a then some a else some old)
    none

def FlowGraph.dominators (g : FlowGraph) : Dominators :=
  let reachable := g.reachable
  let table := g.blocks.map fun a =>
    if a ∈ reachable then
      let left := g.reachableWithout a
      reachable.filter (· ∉ left)
    else []
  let t : Dominators := ⟨reachable, table.toArray, #[]⟩
  let immediate := g.blocks.map fun b => closest t.dominates reachable b
  { t with immediate := immediate.toArray }

end LoopBounds
