import LoopBounds.Error
import LoopBounds.Func.Basic

/-!
# Structural rules of a function

Every block ends in a terminator, and every phi has one source for each predecessor of
its block.
-/

namespace LoopBounds.Func

variable (f : Func)

/-- The rule that a listed phi of block `bb` breaks, if any. -/
def phiFault? (bb : Block) (x : InstrId) : Option Fault :=
  match f.instr x with
  | .phi sources =>
      if sources.all (fun s => s.2 ∈ bb.preds) && sources.length == bb.preds.length then
        none
      else some (.phiMismatch (f.nameOf x) bb.label)
  | _ => some (.notPhi (f.nameOf x))

/-- The first rule that block `bb` breaks, if any. -/
def blockFault? (bb : Block) : Option Fault :=
  match bb.terminator with
  | none => some (.noTerminator bb.label)
  | some _ => bb.phis.findSome? (f.phiFault? bb)

/-- The first broken rule, in the order of the blocks. -/
def fault? : Option Fault := f.blocks.toList.findSome? f.blockFault?

def verify : Except Error Unit :=
  match f.fault? with
  | some fault => .error (.malformed f.name fault)
  | none => .ok ()

end LoopBounds.Func
