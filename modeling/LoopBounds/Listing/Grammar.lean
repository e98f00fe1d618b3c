import LoopBounds.Listing.Basic
import LoopBounds.Listing.Reader

/-!
# The written form of programs

Blanks and comments may stand before every token and are never required, so each token
reader first skips them; inside a name, an integer or a label nothing is skipped.
-/

namespace LoopBounds.Listing

namespace Reader

def isNameChar (c : Char) : Bool := c.isAlphanum || c = '_' || c = '.'

/-- A name, at this very place. -/
def name : Reader String := partHere .name (run isNameChar)

/-- The name of a value or a block, directly after its mark. -/
def localName : Reader String := part .localName do
  char '%'
  name

/-- The name of a function, directly after its mark. -/
def globalName : Reader String := part .globalName do
  char '@'
  name

/-- A label directly followed by its colon. -/
def label : Reader String := part .label do
  let l ← name
  char ':'
  return l

/-- Decimal digits, perhaps after a minus sign. -/
def integer : Reader String := part .integer <|
  (do char '-'; return "-" ++ (← run Char.isDigit)) <|> run Char.isDigit

def operand : Reader Operand :=
  (do return .value (← localName)) <|> (do return .literal (← integer))

/-- The type of an operand, which the instruction already determines. -/
def operandType : Reader Unit := part .operandType (oneOf [("i32", ()), ("i1", ())])

def resultType : Reader ResultType :=
  part .resultType (oneOf [("void", .void), ("i32", .i32)])

def phiSource : Reader (Operand × String) := part .phiSource do
  word "["
  let value ← operand
  word ","
  let source ← localName
  word "]"
  return (value, source)

def phi : Reader Line := part .phi do
  let name ← localName
  word "="
  word "phi"
  operandType
  return .phi name (← commaSeparated phiSource)

def arithOp : Reader ArithOp :=
  part .arithOp (oneOf (ArithOp.all.map fun op => (op.text, op)))

def arith : Reader Line := part .arith do
  let name ← localName
  word "="
  let op ← arithOp
  operandType
  let left ← operand
  word ","
  return .arith name op left (← operand)

def neg : Reader Line := part .neg do
  let name ← localName
  word "="
  word "neg"
  operandType
  return .neg name (← operand)

def comparison : Reader Comparison :=
  part .comparison (oneOf (Comparison.all.map fun op => (op.text, op)))

def compare : Reader Line := part .compare do
  let name ← localName
  word "="
  word "icmp"
  let op ← comparison
  operandType
  let left ← operand
  word ","
  return .compare name op left (← operand)

def ordinary : Reader Line := arith <|> neg <|> compare

/-- A block named as the target of a jump. -/
def target : Reader String := do
  word "label"
  localName

def branch : Reader Line := part .branch do
  word "br"
  operandType
  let condition ← operand
  word ","
  let ifTrue ← target
  word ","
  return .branch condition ifTrue (← target)

def jump : Reader Line := part .jump do
  word "br"
  return .jump (← target)

def ret : Reader Line := part .ret do
  word "ret"
  (do word "void"; return .ret none) <|> (do operandType; return .ret (some (← operand)))

def terminator : Reader Line := branch <|> jump <|> ret

/-- A labelled block: phis, then ordinary instructions, then one terminator. -/
def block : Reader Section := part .block do
  let name ← label
  let phis ← many phi
  let body ← many ordinary
  let last ← terminator
  return ⟨name, phis ++ body ++ [last]⟩

def param : Reader String := part .param do
  operandType
  localName

def definition : Reader Definition := part .definition do
  word "define"
  let returns ← resultType
  let name ← globalName
  word "("
  let params ← commaSeparated param <|> pure []
  word ")"
  word "\x7b"
  let sections ← many1 block
  word "\x7d"
  return ⟨returns, name, params, sections⟩

def endOfText : Reader Unit := part .endOfText <| plain fun text =>
  if text = [] then some ((), []) else none

/-- A program is any number of functions and nothing after them. -/
def program : Reader (List Definition) := partHere .program do
  let defs ← many definition
  endOfText
  return defs

end Reader

/-- What a program text says, if it is a program. -/
def read? (text : String) : Option (List Definition) :=
  (Reader.program.read text.toList).map Prod.fst

theorem read?_of_eq {text : String} {chars : List Char} (h : text = String.ofList chars) :
    read? text = (Reader.program.read chars).map Prod.fst := by
  rw [h, read?, String.toList_ofList]

/-- The furthest mistake in a text that is no program. -/
def mistake (text : String) : Mistake :=
  let chars := text.toList
  let m := Reader.program.misses chars ⟨chars.length, []⟩
  let place := chars.length - m.left
  ⟨chars.take place, chars.drop place, m.parts⟩

end LoopBounds.Listing
