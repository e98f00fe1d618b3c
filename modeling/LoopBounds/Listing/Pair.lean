import LoopBounds.Listing.Grammar

/-!
# The pairs of a program text

Reading a text by the rules of the grammar leaves a tree: one pair for each rule that has
read something, with the text that it has read and the pairs of the rules inside it.
Words, marks, blanks and comments leave no pair, and a choice leaves those of the rule
that it takes.

The rules are the same as in the written form of programs, and so is what is read.
-/

namespace LoopBounds.Listing

/-- What a rule of the grammar has read. -/
inductive Pair where
  | of (rule : Part) (text : String) (inner : List Pair)

namespace Pair

def rule : Pair → Part
  | of r _ _ => r

def text : Pair → String
  | of _ t _ => t

def inner : Pair → List Pair
  | of _ _ ps => ps

variable (r : Part) (t : String) (ps : List Pair)

@[simp] theorem rule_of : (of r t ps).rule = r := rfl

@[simp] theorem text_of : (of r t ps).text = t := rfl

@[simp] theorem inner_of : (of r t ps).inner = ps := rfl

mutual

/-- A pair and all pairs inside it, in the order of the text. -/
def all : Pair → List Pair
  | of r t ps => of r t ps :: allOf ps

def allOf : List Pair → List Pair
  | [] => []
  | p :: ps => p.all ++ allOf ps

end

end Pair

namespace Reader

variable {α : Type}

/-- The part of `text` in front of `rest`. -/
def front (text rest : List Char) : String :=
  String.ofList (text.take (text.length - rest.length))

/-- One pair around the pairs of `r`, at this very place. -/
def pairHere (p : Part) (r : Reader (List Pair)) : Reader (List Pair) where
  read text := (r.read text).map fun (inner, rest) => ([.of p (front text rest) inner], rest)
  misses := (partHere p r).misses

/-- One pair after blanks and comments. -/
def pair (p : Part) (r : Reader (List Pair)) : Reader (List Pair) := do
  blanks
  pairHere p r

/-- What leaves no pair. -/
def silent (r : Reader α) : Reader (List Pair) := do
  let _ ← r
  return []

def inTurn : List (Reader (List Pair)) → Reader (List Pair)
  | [] => pure []
  | r :: rs => do return (← r) ++ (← inTurn rs)

def choice : List (Reader (List Pair)) → Reader (List Pair)
  | [] => plain fun _ => none
  | r :: rs => r <|> choice rs

def star (r : Reader (List Pair)) : Reader (List Pair) := do return (← many r).flatten

end Reader

namespace Pairs

open Reader

def word (w : String) : Reader (List Pair) := silent (Reader.word w)

def name : Reader (List Pair) := pairHere .name (silent (run isNameChar))

def localName : Reader (List Pair) := pair .localName (inTurn [silent (char '%'), name])

def globalName : Reader (List Pair) := pair .globalName (inTurn [silent (char '@'), name])

def label : Reader (List Pair) := pair .label (inTurn [name, silent (char ':')])

def integer : Reader (List Pair) :=
  pair .integer (inTurn [silent (char '-') <|> pure [], silent (run Char.isDigit)])

def operand : Reader (List Pair) := localName <|> integer

def operandType : Reader (List Pair) := pair .operandType (choice [word "i32", word "i1"])

def resultType : Reader (List Pair) := pair .resultType (choice [word "void", word "i32"])

def commaSeparated (item : Reader (List Pair)) : Reader (List Pair) :=
  inTurn [item, star (inTurn [word ",", item])]

def phiSource : Reader (List Pair) :=
  pair .phiSource (inTurn [word "[", operand, word ",", localName, word "]"])

def phi : Reader (List Pair) :=
  pair .phi
    (inTurn [localName, word "=", word "phi", operandType, commaSeparated phiSource])

def arithOp : Reader (List Pair) :=
  pair .arithOp (choice (ArithOp.all.map fun op => word op.text))

def arith : Reader (List Pair) :=
  pair .arith
    (inTurn [localName, word "=", arithOp, operandType, operand, word ",", operand])

def neg : Reader (List Pair) :=
  pair .neg (inTurn [localName, word "=", word "neg", operandType, operand])

def comparison : Reader (List Pair) :=
  pair .comparison (choice (Comparison.all.map fun op => word op.text))

def compare : Reader (List Pair) :=
  pair .compare (inTurn [localName, word "=", word "icmp", comparison, operandType, operand,
    word ",", operand])

def ordinary : Reader (List Pair) := arith <|> neg <|> compare

def branch : Reader (List Pair) :=
  pair .branch (inTurn [word "br", operandType, operand, word ",", word "label", localName,
    word ",", word "label", localName])

def jump : Reader (List Pair) := pair .jump (inTurn [word "br", word "label", localName])

def ret : Reader (List Pair) :=
  pair .ret (inTurn [word "ret", word "void" <|> inTurn [operandType, operand]])

def terminator : Reader (List Pair) := branch <|> jump <|> ret

def block : Reader (List Pair) :=
  pair .block (inTurn [label, star phi, star ordinary, terminator])

def param : Reader (List Pair) := pair .param (inTurn [operandType, localName])

def definition : Reader (List Pair) :=
  pair .definition (inTurn [word "define", resultType, globalName, word "(",
    commaSeparated param <|> pure [], word ")", word "\x7b", inTurn [block, star block],
    word "\x7d"])

def endOfText : Reader (List Pair) := pair .endOfText (silent Reader.endOfText)

def program : Reader (List Pair) := pairHere .program (inTurn [star definition, endOfText])

end Pairs

/-- The pairs of a program text, if it is one. -/
def pairs? (text : String) : Option (List Pair) :=
  (Pairs.program.read text.toList).map Prod.fst

end LoopBounds.Listing
