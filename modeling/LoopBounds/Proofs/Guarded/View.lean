import LoopBounds.Proofs.Classify.Owned
import LoopBounds.Proofs.Guarded.Components
import LoopBounds.Proofs.Guarded.Loops

/-!
# Guarded view of a loop

What classification reads of the instructions of a loop: their operands, the blocks of these,
the loops around the blocks, and the operands that are instructions of the loop again. All of
it is there when the tables of the function fit together, since every operand of a listed
instruction is a leaf or listed itself.
-/

namespace LoopBounds

namespace LoopView

/-- The view is of one of the loops found. -/
structure Found (v : LoopView) : Prop where
  id : v.id ∈ v.forest.ids
  finished : v.forest.Finished

/-- Besides, the tables of the function fit together. -/
structure Grounded (v : LoopView) : Prop extends v.Found where
  linked : v.func.Linked
  filled : v.func.Filled
  header : v.header.index < v.func.blocks.size
  blocks : ∀ b ∈ v.loop.blocks, b.index < v.func.blocks.size

/-- The instruction and its operands are there. -/
structure Present (v : LoopView) (x : InstrId) : Prop where
  node : x.index < v.func.nodes.size
  operand : ∀ y ∈ (v.func.instr x).operands, y.index < v.func.nodes.size

variable {v : LoopView} {x y : InstrId} {b : BlockId}

theorem Present.input (hx : v.Present x) (hy : y ∈ v.inputs x) : y.index < v.func.nodes.size :=
  hx.operand y (mem_inputs_iff.mp hy)

theorem Grounded.present (hv : v.Grounded) (hx : x ∈ (v.func.block b).instrs) : v.Present x :=
  ⟨hv.filled b x hx, fun _ hy => hv.linked.operand_index_lt hv.filled hx hy⟩

theorem Grounded.present_operand (hv : v.Grounded) (hx : x ∈ (v.func.block b).instrs)
    (hy : y ∈ (v.func.instr x).operands) : v.Present y := by
  rcases hv.linked.operand b x hx y hy with hleaf | hlisted
  · refine ⟨Func.index_lt_of_isLeaf hleaf, fun z hz => ?_⟩
    cases hi : v.func.instr y with
    | constant | param =>
      rw [hi] at hz
      cases hz
    | _ =>
      rw [hi] at hleaf
      cases hleaf
  · exact hv.present (List.mem_append_left _ hlisted)

theorem Grounded.present_of_mem_members (hv : v.Grounded) (hx : x ∈ v.members) : v.Present x :=
  hv.present (owns_of_mem_members hv.finished hv.linked hx).listed

theorem inputs_ne_nil_of_isEntryPhi (hx : v.isEntryPhi x = true) : v.inputs x ≠ [] := by
  unfold isEntryPhi at hx
  split at hx
  · rename_i sources hphi
    simp only [Bool.and_eq_true, decide_eq_true_eq] at hx
    obtain ⟨s, hs⟩ := List.length_eq_one_iff.mp hx.2
    simp [inputs, hphi, hx.1, hs]
  · cases hx

end LoopView

namespace Guarded

def fetch (f : Func) (x : InstrId) : Guarded Descriptor := do
  match ← constant? f x with
  | some c => return .constant c
  | none => return .fetch x

theorem fetch_eq {f : Func} {x : InstrId} (hx : x.index < f.nodes.size) :
    fetch f x = pure (f.fetch x) := by
  simp only [fetch, constant?_eq hx, pure_bind, Func.fetch]
  cases f.constant? x <;> rfl

section View

variable (v : LoopView)

def header : Guarded BlockId := do return (← loop v.forest v.id).header

def isOutside (x : InstrId) : Guarded Bool := do
  if (← instr v.func x).isLeaf then return true
  else return !(← contains v.forest v.id (← home v.func x))

def isMember (x : InstrId) : Guarded Bool := do
  if ← isOutside v x then return false
  else return v.forest.innermost? (← home v.func x) = some v.id

/-- The sources of a phi that come from outside the loop. -/
def outsideSources (sources : List (InstrId × BlockId)) : Guarded (List (InstrId × BlockId)) :=
  sources.filterM fun s => do return !(← contains v.forest v.id s.2)

def isEntryPhi (x : InstrId) : Guarded Bool := do
  match ← instr v.func x with
  | .phi sources =>
      return (← home v.func x) = (← header v) && (← outsideSources v sources).length = 1
  | _ => return false

def inputs (x : InstrId) : Guarded (List InstrId) := do
  match ← instr v.func x with
  | .phi sources =>
      if (← home v.func x) = (← header v) then
        let outside ← outsideSources v sources
        let carried ← sources.filterM fun s => contains v.forest v.id s.2
        return (outside ++ carried).map Prod.fst
      else return sources.map Prod.fst
  | i => return i.operands

def deps (x : InstrId) : Guarded (List InstrId) := do (← inputs v x).filterM (isMember v)

def members : Guarded (List InstrId) := do
  let blocks := (← loop v.forest v.id).blocks.filter fun b => v.forest.innermost? b = some v.id
  blocks.flatMapM fun b => do return (← block v.func b).instrs

def lookup (known : Classes) (x : InstrId) : Attempt Descriptor := do
  match known.lookup x with
  | some d => return d
  | none => if ← isOutside v x then fetch v.func x else failure

variable {v} {x : InstrId} {known : Classes} (hv : v.Found)

include hv

theorem header_eq : header v = pure v.header := by
  simp [header, loop_eq hv.id, LoopView.header, LoopView.loop]

theorem isOutside_eq (hx : x.index < v.func.nodes.size) :
    isOutside v x = pure (v.isOutside x) := by
  simp only [isOutside, instr_eq hx, home_eq hx, contains_eq hv.finished.toClimbable, pure_bind,
    LoopView.isOutside,
    LoopView.contains]
  cases (v.func.instr x).isLeaf <;> rfl

theorem isMember_eq (hx : x.index < v.func.nodes.size) : isMember v x = pure (v.isMember x) := by
  simp only [isMember, isOutside_eq hv hx, home_eq hx, pure_bind, LoopView.isMember]
  cases v.isOutside x <;> simp

theorem outsideSources_eq (sources : List (InstrId × BlockId)) : outsideSources v sources =
    pure (sources.filter fun s => !v.contains s.2) :=
  filterM_eq fun s _ => by simp [contains_eq hv.finished.toClimbable, LoopView.contains]

theorem isEntryPhi_eq (hx : x.index < v.func.nodes.size) :
    isEntryPhi v x = pure (v.isEntryPhi x) := by
  simp only [isEntryPhi, instr_eq hx, home_eq hx, header_eq hv, pure_bind, LoopView.isEntryPhi]
  cases v.func.instr x with
  | phi sources => simp [outsideSources_eq hv]
  | _ => rfl

theorem inputs_eq (hx : x.index < v.func.nodes.size) : inputs v x = pure (v.inputs x) := by
  simp only [inputs, instr_eq hx, home_eq hx, header_eq hv, pure_bind, LoopView.inputs]
  cases v.func.instr x with
  | phi sources =>
    have hcarried : sources.filterM (fun s => contains v.forest v.id s.2) =
        pure (sources.filter fun s => v.contains s.2) :=
      filterM_eq fun s _ => contains_eq hv.finished.toClimbable
    simp only [outsideSources_eq hv, hcarried, pure_bind]
    split_ifs <;> rfl
  | _ => rfl

theorem deps_eq (hx : v.Present x) : deps v x = pure (v.deps x) := by
  simp only [deps, inputs_eq hv hx.node, pure_bind]
  exact filterM_eq fun y hy => isMember_eq hv (hx.input hy)

theorem members_eq (hblocks : ∀ b ∈ v.loop.blocks, b.index < v.func.blocks.size) :
    members v = pure v.members := by
  simp only [members, loop_eq hv.id, pure_bind]
  exact flatMapM_eq fun b hb => by simp [block_eq (hblocks b (List.mem_of_mem_filter hb))]

theorem lookup_eq (hx : x.index < v.func.nodes.size) :
    lookup v known x = given (v.lookup known x) := by
  unfold lookup LoopView.lookup
  cases known.lookup x with
  | some d => rfl
  | none =>
    simp only [isOutside_eq hv hx, fetch_eq hx]
    cases v.isOutside x <;> rfl

end View

end Guarded

end LoopBounds
