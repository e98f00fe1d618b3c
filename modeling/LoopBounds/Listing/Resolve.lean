import LoopBounds.Func.Verify
import LoopBounds.Listing.Grammar
import LoopBounds.Word

/-!
# From a listing to functions

The names of a written function are looked up in two tables made beforehand, so a name
may be used before the line that defines it. Constants get their nodes before any
instruction does; from then on the position of every instruction is known in advance:
it is the number of nodes so far plus the place of its line.

Faults are looked for in a fixed order and the first one found is reported: parameters,
labels, integer literals, names of instructions, operands and labels line by line, and
at last the structural rules.
-/

namespace LoopBounds.Listing

/-- The value of decimal digits, most significant first. -/
def digitsValue (digits : List Char) : Nat :=
  digits.foldl (fun n c => 10 * n + (c.toNat - '0'.toNat)) 0

/-- The integer that a literal denotes. -/
def literalValue (digits : String) : Int :=
  match digits.toList with
  | '-' :: rest => -(digitsValue rest : Int)
  | all => digitsValue all

/-- The word that a literal denotes, when it is one. -/
def readLiteral (digits : String) : Except Error Int32 :=
  match Word.narrow? (literalValue digits) with
  | some v => .ok v
  | none => .error (.literalOutOfRange digits)

/-- The first element that already occurs before. -/
def firstRepeated? : List String → List String → Option String
  | _, [] => none
  | seen, x :: rest => if x ∈ seen then some x else firstRepeated? (x :: seen) rest

/-- What the names of one function stand for. -/
structure Names where
  values : List (String × InstrId)
  labels : List (String × BlockId)

namespace Names

/-- The instruction that a written operand denotes. Literals denote the constants that
`f` already has. -/
def operand (names : Names) (f : Func) : Operand → Except Error InstrId
  | .value name =>
      match names.values.lookup name with
      | some x => .ok x
      | none => .error (.undefinedValue name)
  | .literal digits => do
      let v ← readLiteral digits
      match f.findConstant? v with
      | some x => .ok x
      | none => .error (.malformed f.name (.constantNotCollected v))

def label (names : Names) (l : String) : Except Error BlockId :=
  match names.labels.lookup l with
  | some b => .ok b
  | none => .error (.undefinedLabel l)

def source (names : Names) (f : Func) (s : Operand × String) :
    Except Error (InstrId × BlockId) := do
  let value ← names.operand f s.1
  return (value, ← names.label s.2)

def instr (names : Names) (f : Func) : Line → Except Error Instr
  | .phi _ sources => do return .phi (← sources.mapM (names.source f))
  | .arith _ op x y => do
      let left ← names.operand f x
      return .arith op left (← names.operand f y)
  | .neg _ x => do return .neg (← names.operand f x)
  | .compare _ op x y => do
      let left ← names.operand f x
      return .compare op left (← names.operand f y)
  | .jump t => do return .jump (← names.label t)
  | .branch c t e => do
      let condition ← names.operand f c
      let ifTrue ← names.label t
      return .branch condition ifTrue (← names.label e)
  | .ret none => .ok (.ret none)
  | .ret (some v) => do return .ret (some (← names.operand f v))

end Names

namespace Definition

variable (d : Definition)

/-- The function with its parameters and its blocks, but nothing in them. -/
def skeleton : Func :=
  let start := d.params.foldl Func.addParam (Func.empty d.name d.returns)
  match d.labels with
  | [] => start
  | first :: rest => rest.foldl Func.addBlock (start.renameBlock .entry first)

/-- Adds the nodes of the constants that `literals` denote. -/
def collectConstants (f : Func) (literals : List String) : Except Error Func :=
  literals.foldlM (fun f digits => do return (f.addConstant (← readLiteral digits)).2) f

/-- The positions of the named instructions, when the first line gets position `start`. -/
def definedAt (start : Nat) : List (String × InstrId) :=
  d.lines.zipIdx.filterMap fun (l, i) => l.defines?.map (·, ⟨start + i⟩)

/-- The names of the function, when the first line gets position `start`. -/
def names (start : Nat) : Names where
  values := d.params.zipIdx.map (fun (name, i) => (name, ⟨i⟩)) ++ d.definedAt start
  labels := d.labels.zipIdx.map fun (l, i) => (l, ⟨i⟩)

/-- Adds the lines of one block, looking up their names. -/
def addLines (names : Names) (b : BlockId) (f : Func) (lines : List Line) :
    Except Error Func :=
  lines.foldlM (fun f l => do return f.append b l.defines? (← names.instr f l)) f

/-- Fails with `fault` of the first repeated name. -/
def distinct (all : List String) (fault : String → Fault) : Except Error Unit :=
  match firstRepeated? [] all with
  | some x => .error (.malformed d.name (fault x))
  | none => .ok ()

/-- The function that a definition stands for. -/
def resolve : Except Error Func := do
  d.distinct d.params .valueDefinedTwice
  d.distinct d.labels .labelDefinedTwice
  let f ← collectConstants d.skeleton (d.lines.flatMap Line.literals)
  d.distinct (d.params ++ d.lines.filterMap Line.defines?) .valueDefinedTwice
  let names := d.names f.nodes.size
  let f ← d.sections.zipIdx.foldlM (fun f (s, i) => addLines names ⟨i⟩ f s.lines) f
  f.verify
  return f

end Definition

end LoopBounds.Listing

namespace LoopBounds.Func

/-- The functions of a program text, or the first thing wrong with it. -/
def parse (text : String) : Except Error (List Func) :=
  match Listing.read? text with
  | none => .error (.notAProgram (Listing.mistake text))
  | some defs => defs.mapM Listing.Definition.resolve

end LoopBounds.Func
