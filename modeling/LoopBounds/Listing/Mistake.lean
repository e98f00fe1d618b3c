import LoopBounds.Listing.Blank

/-!
# What a text that is no program lacks

Reading a text looks for parts of a program at places of the text. When the text is no
program, the mistake is reported at the furthest place where a part was looked for and
not found, with all parts that were looked for there.
-/

namespace LoopBounds.Listing

/-- The parts of a program, in the order in which a report lists them. -/
inductive Part where
  | endOfText
  | program
  | definition
  | param
  | block
  | label
  | phi
  | phiSource
  | arith
  | neg
  | compare
  | arithOp
  | comparison
  | jump
  | branch
  | ret
  | operandType
  | resultType
  | localName
  | globalName
  | name
  | integer
  deriving DecidableEq, Repr

namespace Part

def text : Part → String
  | endOfText => "EOI"
  | program => "Program"
  | definition => "Function"
  | param => "Param"
  | block => "Block"
  | label => "LabelDef"
  | phi => "Phi"
  | phiSource => "PhiSource"
  | arith => "Arith"
  | neg => "Neg"
  | compare => "Comp"
  | arithOp => "ArithOp"
  | comparison => "CompOp"
  | jump => "Jump"
  | branch => "JumpCond"
  | ret => "Ret"
  | operandType => "Type"
  | resultType => "RetType"
  | localName => "Local"
  | globalName => "Global"
  | name => "Ident"
  | integer => "Int"

def all : List Part :=
  [endOfText, program, definition, param, block, label, phi, phiSource, arith, neg,
    compare, arithOp, comparison, jump, branch, ret, operandType, resultType, localName,
    globalName, name, integer]

theorem mem_all (p : Part) : p ∈ all := by
  cases p <;> simp [all]

end Part

/-- The furthest place at which parts were missed, given by the length of the text from
there on, and the parts missed there, in the order in which they were. -/
structure Misses where
  left : Nat
  parts : List Part
  deriving DecidableEq, Repr

namespace Misses

/-- How many parts were missed at the place with `here` characters left. -/
def countAt (m : Misses) (here : Nat) : Nat := if m.left = here then m.parts.length else 0

/-- Adds that part `p` was missed at place `here`, where `before` parts had been missed
when `p` was begun. If exactly one part inside `p` was missed at the same place since
then, that one says it better; if several were, `p` stands for all of them. -/
def add (m : Misses) (p : Part) (here before : Nat) : Misses :=
  if m.countAt here = before + 1 then m
  else if here = m.left then { m with parts := m.parts.take before ++ [p] }
  else if here < m.left then ⟨here, [p]⟩
  else m

end Misses

/-- The place of a mistake, as the text before it and the text from there on, and what
was looked for. -/
structure Mistake where
  before : List Char
  after : List Char
  expected : List Part
  deriving DecidableEq, Repr

namespace Mistake

variable (m : Mistake)

/-- The number of the line with the mistake; the first line has number one. -/
def lineNumber : Nat := m.before.count '\n' + 1

def lineStart : List Char := (m.before.reverse.takeWhile (· ≠ '\n')).reverse

/-- The column of the mistake; the first column has number one. -/
def column : Nat := m.lineStart.length + 1

def lineRest : List Char :=
  m.after.takeWhile (· ≠ '\n') ++ (m.after.dropWhile (· ≠ '\n')).take 1

/-- A character that ends lines, made visible. -/
def visible (c : Char) : Char := if c = '\r' then '␍' else if c = '\n' then '␊' else c

/-- The line as shown. Line ends are shown only when the mistake is at one. -/
def shownLine : List Char :=
  let line := m.lineStart ++ m.lineRest
  if m.after.head?.any endsLine then line.map visible
  else line.filter fun c => !endsLine c

/-- The blanks under the shown line that lead to the mistake. -/
def marginLine : List Char :=
  (m.shownLine.take m.lineStart.length).map fun c => if c = '\t' then '\t' else ' '

/-- Names as a choice in words. -/
def choice : List String → String
  | [] => ""
  | [a] => a
  | [a, b] => a ++ " or " ++ b
  | names => ", ".intercalate names.dropLast ++ ", or " ++ names.getLastD ""

/-- What was looked for, each part once and in the order of the parts. -/
def expectedText : String :=
  choice ((Part.all.filter (· ∈ m.expected)).map Part.text)

/-- The report: the place, the line, a mark under it and what was looked for. -/
def text : String :=
  let number := toString m.lineNumber
  let margin := String.ofList (number.toList.map fun _ => ' ')
  margin ++ "--> " ++ number ++ ":" ++ toString m.column ++ "\n"
    ++ margin ++ " |\n"
    ++ number ++ " | " ++ String.ofList m.shownLine ++ "\n"
    ++ margin ++ " | " ++ String.ofList m.marginLine ++ "^---\n"
    ++ margin ++ " |\n"
    ++ margin ++ " = expected " ++ m.expectedText

end Mistake

end LoopBounds.Listing
