import LoopBounds.Flow.Dominators

/-!
# Natural loops

A block is the header of a loop when it dominates one of its own predecessors; those
predecessors are the latches of the loop. The loop consists of the header and all blocks
that can reach a latch without passing through the header. Two loops with different
headers are disjoint or nested.

Headers are met on a walk down the dominator tree that leaves a block after all blocks
below it, so inner loops are found first. The blocks of a new loop are collected backwards
from its latches. A block that is in no loop yet belongs to the new one. From a block that
is in a loop already the search jumps to the outermost loop around it: this one lies
directly inside the new loop, and the search goes on before its header.

So a block knows the innermost loop around it and a loop the next one around it. Levels,
subloops, blocks and preheaders are filled in afterwards by climbing from loop to loop.
-/

namespace LoopBounds

@[ext] structure LoopId where
  index : Nat
  deriving DecidableEq, Hashable, Repr

def LoopId.text (l : LoopId) : String := "L" ++ toString l.index

structure Loop where
  id : LoopId
  /-- The smallest loop around this one. -/
  outer : Option LoopId
  header : BlockId
  /-- One for an outermost loop, and -1 until it is worked out. -/
  level : Int
  noInner : Bool
  /-- The loops directly inside this one. -/
  subloops : List LoopId
  /-- In ascending order, with the blocks of inner loops. -/
  blocks : List BlockId
  latches : List BlockId
  /-- The only way into the loop, if it leads nowhere else. -/
  preheader : Option BlockId
  deriving DecidableEq, Repr

/-- What is known of a loop when its header is met. -/
def Loop.start (id : LoopId) (header : BlockId) (latches : List BlockId) : Loop :=
  ⟨id, none, header, -1, true, [], [], latches, none⟩

/-- The loops of a function, and for the blocks in loops the innermost ones around them. -/
structure LoopForest where
  loops : Array Loop
  loopMap : List (BlockId × LoopId)
  deriving DecidableEq, Repr

namespace LoopForest

def empty : LoopForest := ⟨#[], []⟩

variable (forest : LoopForest)

def ids : List LoopId := (List.range forest.loops.size).map LoopId.mk

def get (l : LoopId) : Loop := forest.loops[l.index]?.getD (.start l .entry [])

def nextId : LoopId := ⟨forest.loops.size⟩

/-- The innermost loop around block `b`. -/
def innermost? (b : BlockId) : Option LoopId := forest.loopMap.lookup b

def outer? (l : LoopId) : Option LoopId := (forest.get l).outer

def level (l : LoopId) : Int := (forest.get l).level

def subloops (l : LoopId) : List LoopId := (forest.get l).subloops

def hasNoInner (l : LoopId) : Bool := (forest.get l).noInner

def isHeader (b : BlockId) : Bool :=
  match forest.innermost? b with
  | some l => (forest.get l).header = b
  | none => false

/-- The loops from `cur` outwards, `depth` of them at most. -/
def climb : Nat → Option LoopId → List LoopId
  | depth + 1, some l => l :: climb depth (forest.outer? l)
  | _, _ => []

/-- The loops from `cur` outwards. No loop is met twice. -/
def wayOut (cur : Option LoopId) : List LoopId := forest.climb forest.loops.size cur

def contains (l : LoopId) (b : BlockId) : Bool := l ∈ forest.wayOut (forest.innermost? b)

/-- The last loop on the way out from `l`. -/
def outermost (l : LoopId) : LoopId := (forest.wayOut (some l)).getLastD l

def push (l : Loop) : LoopForest := { forest with loops := forest.loops.push l }

def update (l : LoopId) (change : Loop → Loop) : LoopForest :=
  { forest with loops := forest.loops.modify l.index change }

def assign (b : BlockId) (l : LoopId) : LoopForest :=
  { forest with loopMap := (b, l) :: forest.loopMap }

def enclose (inner outer : LoopId) : LoopForest :=
  (forest.update outer ({ · with noInner := false })).update inner
    ({ · with outer := some outer })

end LoopForest

namespace Dominators

/-- The dominator tree below `b` in post-order, down to depth `depth`. The tree is never
deeper than the number of blocks. -/
def postOrder (t : Dominators) : Nat → BlockId → List BlockId
  | 0, _ => []
  | depth + 1, b => (t.children b).flatMap (t.postOrder depth) ++ [b]

end Dominators

namespace FlowGraph

variable (g : FlowGraph) (t : Dominators)

section Collecting

/-- The predecessors of `h` that `h` dominates. -/
def latches (h : BlockId) : List BlockId := (g.preds h).filter (t.dominates h)

def reachablePreds (b : BlockId) : List BlockId := (g.preds b).filter t.isReachable

variable (h : BlockId) (new : LoopId)

/-- The search for the loop `new` of header `h` comes to block `b`, and has to go on with
the blocks given. -/
def visit (forest : LoopForest) (b : BlockId) : LoopForest × List BlockId :=
  match forest.innermost? b with
  | none => (forest.assign b new, if b = h then [] else g.reachablePreds t b)
  | some l =>
      let inner := forest.outermost l
      if inner = new then (forest, [])
      else (forest.enclose inner new, g.reachablePreds t (forest.get inner).header)

/-- Collects the loop `new` of header `h` from the blocks on the stack `work`, with `fuel`
visits at most. -/
def collect : Nat → LoopForest → List BlockId → LoopForest
  | fuel + 1, forest, b :: work =>
      let (forest, more) := g.visit t h new forest b
      collect fuel forest (more.reverse ++ work)
  | _, forest, _ => forest

/-- Every visit but the first ones is due to an edge into a block that was not seen before. -/
def visits (latches : List BlockId) : Nat := pending g.preds [] g.blocks + latches.length

end Collecting

/-- Adds the loop with header `h`, if `h` is a header. -/
def discover (forest : LoopForest) (h : BlockId) : LoopForest :=
  match g.latches t h with
  | [] => forest
  | latches =>
      let new := forest.nextId
      g.collect t h new (g.visits latches) (forest.push (.start new h latches)) latches.reverse

/-- The only predecessor of `h` that is not inside, when `h` is its only successor. -/
def preheader? (h : BlockId) (inside : BlockId → Bool) : Option BlockId :=
  match (g.preds h).filter fun p => !inside p with
  | [p] => if (g.succs p).length = 1 then some p else none
  | _ => none

end FlowGraph

namespace LoopForest

section Filling

/-- The level of `l`, and the forest with the levels that it depends on. -/
def calcLevel : Nat → LoopForest → LoopId → LoopForest × Int
  | 0, forest, l => (forest, forest.level l)
  | depth + 1, forest, l =>
      if forest.level l ≠ -1 then (forest, forest.level l)
      else
        let (forest, level) :=
          match forest.outer? l with
          | some m =>
              let (forest, above) := calcLevel depth forest m
              (forest, above + 1)
          | none => (forest, 1)
        (forest.update l ({ · with level := level }), level)

variable (forest : LoopForest)

/-- Works out the level of `l` and adds `l` to the subloops of the next outer loop. -/
def nest (l : LoopId) : LoopForest :=
  let forest := (calcLevel forest.loops.size forest l).1
  match forest.outer? l with
  | some m => forest.update m fun x => { x with subloops := x.subloops ++ [l] }
  | none => forest

/-- Adds `b` to the blocks of all loops around it. -/
def recordBlock (b : BlockId) : LoopForest :=
  (forest.wayOut (forest.innermost? b)).foldl
    (fun forest l => forest.update l fun x => { x with blocks := x.blocks ++ [b] }) forest

def recordPreheader (g : FlowGraph) (l : LoopId) : LoopForest :=
  let preheader := g.preheader? (forest.get l).header (forest.contains l)
  forest.update l ({ · with preheader := preheader })

end Filling

end LoopForest

namespace FlowGraph

variable (g : FlowGraph)

/-- The loops of `g` as the search finds them, still without what is filled in later. -/
def foundLoops : LoopForest :=
  let t := g.dominators
  (t.postOrder g.size .entry).foldl (g.discover t) .empty

def loopForest : LoopForest :=
  let found := g.foundLoops
  let nested := found.ids.foldl .nest found
  let filled := g.blocks.foldl .recordBlock nested
  filled.ids.foldl (.recordPreheader · g) filled

end FlowGraph

namespace LoopForest

variable (forest : LoopForest)

/-- Order by level and, on one level, by the position of the header. -/
def outerFirst (l m : LoopId) : Bool :=
  let a := forest.level l
  let b := forest.level m
  a < b || (a = b && (forest.get l).header.index ≤ (forest.get m).header.index)

/-- All loops, each after the loops around it. -/
def outerToInner : List LoopId :=
  (forest.loops.toList.map Loop.id).mergeSort forest.outerFirst

def text (l : LoopId) : String :=
  let outer := match forest.outer? l with
    | some m => m.text
    | none => "None"
  "outer: " ++ outer ++ ", header: " ++ (forest.get l).header.text ++ ", level: "
    ++ toString (forest.level l) ++ ", no_inner: "
    ++ (if forest.hasNoInner l then "true" else "false")

end LoopForest

end LoopBounds
