/-!
# Instructions

A function holds its instructions and its blocks in two tables; instructions refer to
other instructions and to blocks by their positions there. Positions of the two tables
are different types, so that one is never taken for the other.
-/

namespace LoopBounds

/-- Position of an instruction in its function. -/
structure InstrId where
  index : Nat
  deriving DecidableEq, Hashable, Repr

/-- Position of a block in its function; the entry is at position zero. -/
structure BlockId where
  index : Nat
  deriving DecidableEq, Hashable, Repr

def InstrId.text (x : InstrId) : String := "v" ++ toString x.index

def BlockId.text (b : BlockId) : String := "B" ++ toString b.index

namespace BlockId

def entry : BlockId := ⟨0⟩

def entryLabel : String := "entry"

/-- The label of a block to which no label was given: the name of its position, except
for the entry. -/
def defaultLabel (b : BlockId) : String := if b = entry then entryLabel else b.text

end BlockId

/-- Integer operations with two operands. Division and remainder are signed and go
towards zero. -/
inductive ArithOp where
  | add
  | sub
  | mul
  | div
  | rem
  | shl
  deriving DecidableEq, Repr

def ArithOp.text : ArithOp → String
  | .add => "add"
  | .sub => "sub"
  | .mul => "mul"
  | .div => "sdiv"
  | .rem => "srem"
  | .shl => "shl"

def ArithOp.all : List ArithOp := [.add, .sub, .mul, .div, .rem, .shl]

inductive Comparison where
  | eq
  | ne
  | gt
  | ge
  | lt
  | le
  deriving DecidableEq, Repr

namespace Comparison

def text : Comparison → String
  | .eq => "eq"
  | .ne => "ne"
  | .gt => "sgt"
  | .ge => "sge"
  | .lt => "slt"
  | .le => "sle"

def all : List Comparison := [.eq, .ne, .lt, .le, .gt, .ge]

/-- The comparison that holds exactly when this one fails. -/
def inverse : Comparison → Comparison
  | .eq => .ne
  | .ne => .eq
  | .gt => .le
  | .ge => .lt
  | .lt => .ge
  | .le => .gt

/-- The comparison that says the same of the operands in the other order. -/
def swap : Comparison → Comparison
  | .eq => .eq
  | .ne => .ne
  | .gt => .lt
  | .ge => .le
  | .lt => .gt
  | .le => .ge

def holds (c : Comparison) (x y : Int) : Bool :=
  match c with
  | .eq => x = y
  | .ne => x ≠ y
  | .gt => y < x
  | .ge => y ≤ x
  | .lt => x < y
  | .le => x ≤ y

@[simp] theorem holds_inverse (c : Comparison) (x y : Int) :
    c.inverse.holds x y = !c.holds x y := by
  rw [Bool.eq_iff_iff]
  cases c <;> simp [inverse, holds]

@[simp] theorem holds_swap (c : Comparison) (x y : Int) : c.swap.holds y x = c.holds x y := by
  cases c <;> simp [swap, holds, eq_comm]

end Comparison

/-- One instruction. Constants and parameters are values that no block lists; a jump, a
branch or a return ends a block; everything else is listed in a block and has a value. -/
inductive Instr where
  | constant (value : Int32)
  | param (position : Nat)
  | arith (op : ArithOp) (left right : InstrId)
  | neg (operand : InstrId)
  | compare (op : Comparison) (left right : InstrId)
  | phi (sources : List (InstrId × BlockId))
  | jump (target : BlockId)
  | branch (condition : InstrId) (ifTrue ifFalse : BlockId)
  | ret (value : Option InstrId)
  deriving DecidableEq, Repr

namespace Instr

/-- The instructions whose values this one reads, in the order written. -/
def operands : Instr → List InstrId
  | .constant _ | .param _ | .jump _ => []
  | .arith _ x y | .compare _ x y => [x, y]
  | .neg x => [x]
  | .phi sources => sources.map Prod.fst
  | .branch c _ _ => [c]
  | .ret value => value.toList

def targets : Instr → List BlockId
  | .jump t => [t]
  | .branch _ t e => [t, e]
  | _ => []

def isPhi : Instr → Bool
  | .phi _ => true
  | _ => false

def isTerminator : Instr → Bool
  | .jump _ | .branch .. | .ret _ => true
  | _ => false

/-- Terminators are the instructions without a value. -/
def hasValue (i : Instr) : Bool := !i.isTerminator

def constant? : Instr → Option Int32
  | .constant v => some v
  | _ => none

theorem constant?_eq_some_iff {i : Instr} {v : Int32} : i.constant? = some v ↔ i = .constant v := by
  cases i <;> simp [constant?]

/-- Constants and parameters have their value before any block runs. -/
def isLeaf : Instr → Bool
  | .constant _ | .param _ => true
  | _ => false

theorem constant?_of_isLeaf {i : Instr} (h : i.isLeaf = false) : i.constant? = none := by
  cases i <;> first | rfl | cases h

end Instr

end LoopBounds
