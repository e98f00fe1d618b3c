import LoopBounds.Descriptor.Basic
import LoopBounds.Flow.Loops

/-!
# A function seen from one loop

Classification looks at the instructions of one loop that lie in none of its inner
loops. Everything else is either defined outside the loop, and then fetched, or lies in
an inner loop, and then has no descriptor.
-/

namespace LoopBounds

/-- What is known so far about the values of a loop. -/
abbrev Classes := List (InstrId × Descriptor)

/-- The descriptor of a value that does not change in the loop at hand. -/
def Func.fetch (f : Func) (x : InstrId) : Descriptor :=
  match f.constant? x with
  | some v => .constant v
  | none => .fetch x

/-- A function, its loops, and the one to look at. -/
structure LoopView where
  func : Func
  forest : LoopForest
  id : LoopId

namespace LoopView

variable (v : LoopView)

def loop : Loop := v.forest.get v.id

def header : BlockId := v.loop.header

def contains (b : BlockId) : Bool := v.forest.contains v.id b

/-- Values that are there before the loop is entered. -/
def isOutside (x : InstrId) : Bool :=
  (v.func.instr x).isLeaf || !v.contains (v.func.home x)

/-- Instructions of this loop that lie in no inner loop. -/
def isMember (x : InstrId) : Bool :=
  !v.isOutside x && v.forest.innermost? (v.func.home x) = some v.id

/-- A phi of the header with exactly one source outside the loop. -/
def isEntryPhi (x : InstrId) : Bool :=
  match v.func.instr x with
  | .phi sources =>
      v.func.home x = v.header
        && (sources.filter fun s => !v.contains s.2).length = 1
  | _ => false

/-- The operands of an instruction. A phi of the header has its values from outside the
loop first and those carried round the loop after them. -/
def inputs (x : InstrId) : List InstrId :=
  match v.func.instr x with
  | .phi sources =>
      if v.func.home x = v.header then
        ((sources.filter fun s => !v.contains s.2)
          ++ sources.filter fun s => v.contains s.2).map Prod.fst
      else sources.map Prod.fst
  | i => i.operands

variable {v} in
theorem mem_inputs_iff {x y : InstrId} : y ∈ v.inputs x ↔ y ∈ (v.func.instr x).operands := by
  unfold inputs
  cases v.func.instr x with
  | phi sources =>
    dsimp only [Instr.operands]
    split
    · simp only [List.mem_map, List.mem_append, List.mem_filter, ← and_or_left]
      refine exists_congr fun s => and_congr_left fun _ => and_iff_left ?_
      cases v.contains s.2 <;> decide
    · rfl
  | _ => rfl

/-- The operands that are instructions of this loop, too. -/
def deps (x : InstrId) : List InstrId := (v.inputs x).filter v.isMember

/-- The instructions of this loop that lie in no inner loop, block by block. -/
def members : List InstrId :=
  (v.loop.blocks.filter fun b => v.forest.innermost? b = some v.id).flatMap
    fun b => (v.func.block b).instrs

def lookup (known : Classes) (x : InstrId) : Option Descriptor :=
  match known.lookup x with
  | some d => some d
  | none => if v.isOutside x then some (v.func.fetch x) else none

end LoopView

end LoopBounds
