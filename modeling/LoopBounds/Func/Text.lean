import LoopBounds.Func.Basic

/-!
# The text of a function

Constants are written as numbers and every other value as its marked name, so the
written operand of an instruction does not depend on the node table. A block line
carries its position and its predecessors in a comment, which a reader of the text
skips.
-/

namespace LoopBounds.Func

variable (f : Func)

/-- How an instruction is written where it is used. -/
def operandText (x : InstrId) : String :=
  match f.constant? x with
  | some v => toString v.toInt
  | none => "%" ++ f.nameOf x

def labelText (b : BlockId) : String := "%" ++ (f.block b).label

def sourceText (source : InstrId × BlockId) : String :=
  "[" ++ f.operandText source.1 ++ ", " ++ f.labelText source.2 ++ "]"

/-- The right-hand side of an instruction with a value. -/
def valueText : Instr → String
  | .constant v => toString v.toInt
  | .param position => "param " ++ toString position
  | .arith op x y => op.text ++ " i32 " ++ f.operandText x ++ ", " ++ f.operandText y
  | .neg x => "neg i32 " ++ f.operandText x
  | .compare op x y =>
      "icmp " ++ op.text ++ " i32 " ++ f.operandText x ++ ", " ++ f.operandText y
  | .phi sources => "phi i32 " ++ ", ".intercalate (sources.map f.sourceText)
  | _ => ""

/-- An instruction as one line. Terminators have no value, so their name is not
written. -/
def instrText (x : InstrId) : String :=
  match f.instr x with
  | .jump t => "br label " ++ f.labelText t
  | .branch c t e =>
      "br i1 " ++ f.operandText c ++ ", label " ++ f.labelText t ++ ", label "
        ++ f.labelText e
  | .ret (some v) => "ret i32 " ++ f.operandText v
  | .ret none => "ret void"
  | i => "%" ++ f.nameOf x ++ " = " ++ f.valueText i

/-- The label line of the block at position `b`. -/
def headText (b : BlockId) : String :=
  let preds := ", ".intercalate ((f.block b).preds.map fun p => toString p.index)
  (f.block b).label ++ ":    ; " ++ b.text ++ " prev: [" ++ preds ++ "]"

def blockText (b : BlockId) : String :=
  f.headText b ++ "\n"
    ++ String.join ((f.block b).instrs.map fun x => "  " ++ f.instrText x ++ "\n")

def text : String :=
  let params := ", ".intercalate (f.params.map fun p => "i32 " ++ f.operandText p)
  "define " ++ f.returns.text ++ " @" ++ f.name ++ "(" ++ params ++ ") \x7b\n"
    ++ String.join (f.blockIds.map f.blockText) ++ "\x7d"

end LoopBounds.Func
