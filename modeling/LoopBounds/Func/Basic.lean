import LoopBounds.Instr

/-!
# Functions and how they are built

A function is a table of nodes and a table of blocks. Nodes are only ever added, so a
position keeps its meaning; blocks list the positions of their nodes and carry the
edges of the flow graph in both directions.

A position that names nothing reads as the vacant node or the vacant block, which have
no operands and no edges.

A constant is found through the pool, and a name is known to be in use through the set of
names. Both are kept beside the table of nodes and change with it.
-/

namespace LoopBounds

inductive ResultType where
  | i32
  | i1
  | void
  deriving DecidableEq, Repr

def ResultType.text : ResultType → String
  | .i32 => "i32"
  | .i1 => "i1"
  | .void => "void"

/-- An instruction with its name and the block it belongs to. Constants and parameters
belong to the entry. -/
structure Node where
  name : String
  block : BlockId
  instr : Instr
  deriving DecidableEq, Repr

def Node.vacant : Node := ⟨"", BlockId.entry, .ret none⟩

/-- The node with one more source, if it is a phi. -/
def Node.addSource (n : Node) (value : InstrId) (source : BlockId) : Node :=
  match n.instr with
  | .phi sources => { n with instr := .phi (sources ++ [(value, source)]) }
  | _ => n

theorem Node.name_addSource (n : Node) (value : InstrId) (source : BlockId) :
    (n.addSource value source).name = n.name := by
  unfold addSource
  split <;> rfl

/-- A block: its label, the edges into and out of it, and its instructions in the order
phis, ordinary instructions, terminator. -/
structure Block where
  label : String
  preds : List BlockId := []
  succs : List BlockId := []
  phis : List InstrId := []
  body : List InstrId := []
  terminator : Option InstrId := none
  deriving DecidableEq, Repr

namespace Block

def vacant : Block := { label := "" }

/-- All instructions of the block in execution order. -/
def instrs (b : Block) : List InstrId := b.phis ++ b.body ++ b.terminator.toList

end Block

/-- A function in static single assignment form. -/
structure Func where
  name : String
  returns : ResultType
  params : List InstrId
  blocks : Array Block
  nodes : Array Node
  /-- The number last tried for a generated name. -/
  temporaries : Nat
  /-- The position of each constant that is there. -/
  pool : List (Int32 × InstrId)
  /-- The names in use, each once. -/
  names : List String
  pooled : ∀ v x, pool.lookup v = some x → nodes[x.index]?.map Node.instr = some (.constant v)
  named : ∀ n ∈ nodes, n.name ∈ names
  deriving DecidableEq, Repr

namespace Func

def empty (name : String) (returns : ResultType) : Func where
  name := name
  returns := returns
  params := []
  blocks := #[{ label := BlockId.entryLabel }]
  nodes := #[]
  temporaries := 0
  pool := []
  names := []
  pooled := nofun
  named := nofun

variable (f : Func)

def node (x : InstrId) : Node := f.nodes[x.index]?.getD Node.vacant

def instr (x : InstrId) : Instr := (f.node x).instr

def home (x : InstrId) : BlockId := (f.node x).block

def nameOf (x : InstrId) : String := (f.node x).name

def constant? (x : InstrId) : Option Int32 := (f.instr x).constant?

def block (b : BlockId) : Block := f.blocks[b.index]?.getD Block.vacant

def terminator? (b : BlockId) : Option InstrId := (f.block b).terminator

def nextId : InstrId := ⟨f.nodes.size⟩

def nextBlock : BlockId := ⟨f.blocks.size⟩

def instrIds : List InstrId := (List.range f.nodes.size).map InstrId.mk

def blockIds : List BlockId := (List.range f.blocks.size).map BlockId.mk

/-- The first node with a given property. -/
def findNode? (p : Node → Bool) : Option InstrId := (f.nodes.findIdx? p).map InstrId.mk

/-- The node that holds the constant `v`. -/
def findConstant? (v : Int32) : Option InstrId := f.pool.lookup v

def findNamed? (name : String) : Option InstrId := f.findNode? fun n => n.name = name

def findBlock? (label : String) : Option BlockId :=
  (f.blocks.findIdx? fun b => b.label = label).map BlockId.mk

def usesName (name : String) : Bool := name ∈ f.names

/-- The name that number `k` generates. -/
def temporaryName (k : Nat) : String := "t" ++ toString k

/-- The first number after those already tried whose name is free. If `n` names are in use,
one of the next `n + 1` numbers is free. -/
def freshTemporary : Nat :=
  let next := f.temporaries + 1
  ((List.range (f.names.length + 1)).map (next + ·)).find?
    (fun k => !f.usesName (temporaryName k)) |>.getD next

/-- Adds a node, whose name is in use from now on. -/
def pushNode (n : Node) : Func :=
  { f with
    nodes := f.nodes.push n
    names := f.names.insert n.name
    pooled := fun v x hx => by
      have hx := f.pooled v x hx
      rw [Array.getElem?_push, if_neg]
      · exact hx
      · rintro heq
        simp [heq] at hx
    named := fun m hm => by
      rw [List.mem_insert_iff]
      exact (Array.mem_push.mp hm).symm.imp (congrArg Node.name) (f.named m) }

/-- Adds a node under the given name, or under a generated one. -/
def addNode (b : BlockId) (name : Option String) (i : Instr) : Func :=
  match name with
  | some name => f.pushNode ⟨name, b, i⟩
  | none =>
      let k := f.freshTemporary
      { f.pushNode ⟨temporaryName k, b, i⟩ with temporaries := k }

def modifyBlock (b : BlockId) (g : Block → Block) : Func :=
  { f with blocks := f.blocks.modify b.index g }

/-- Adds a parameter after those already there. -/
def addParam (name : String) : Func :=
  { f.addNode .entry (some name) (.param f.params.length) with
    params := f.params ++ [f.nextId] }

/-- The name of a constant says its value. -/
def constantName (v : Int32) : String := "c" ++ toString v.toInt

/-- Adds the node of a constant to the pool as well. -/
def pushConstant (v : Int32) : Func :=
  let g := f.addNode .entry (some (constantName v)) (.constant v)
  { g with
    pool := (v, f.nextId) :: g.pool
    pooled := fun w x hx => by
      rw [List.lookup_cons] at hx
      split at hx
      · rename_i hw
        cases hx
        simp [g, addNode, pushNode, nextId, beq_iff_eq.mp hw]
      · exact g.pooled w x hx }

/-- The node of a constant, which is added when there is none yet. Constants are listed in no
block. -/
def addConstant (v : Int32) : InstrId × Func :=
  match f.findConstant? v with
  | some x => (x, f)
  | none => (f.nextId, f.pushConstant v)

def addBlock (label : String) : Func :=
  { f with blocks := f.blocks.push { label := label } }

def renameBlock (b : BlockId) (label : String) : Func :=
  f.modifyBlock b fun bb => { bb with label := label }

def addPhi (b : BlockId) (name : Option String) (sources : List (InstrId × BlockId)) :
    Func :=
  (f.addNode b name (.phi sources)).modifyBlock b
    fun bb => { bb with phis := bb.phis ++ [f.nextId] }

/-- Adds one more source to a phi; anything else is left as it is. -/
def addPhiSource (x value : InstrId) (source : BlockId) : Func :=
  { f with
    nodes := f.nodes.modify x.index (·.addSource value source)
    pooled := fun v y hy => by
      have hy := f.pooled v y hy
      rw [Array.getElem?_modify]
      split
      · obtain ⟨n, hn, hv⟩ := Option.map_eq_some_iff.mp hy
        simp [hn, Node.addSource, hv]
      · exact hy
    named := fun m hm => by
      obtain ⟨i, hi, rfl⟩ := Array.mem_iff_getElem.mp hm
      rw [Array.getElem_modify]
      split
      · rw [Node.name_addSource]
        exact f.named _ (Array.getElem_mem _)
      · exact f.named _ (Array.getElem_mem _) }

/-- Adds an instruction at the end of the ordinary instructions of a block. -/
def addInstr (b : BlockId) (name : Option String) (i : Instr) : Func :=
  (f.addNode b name i).modifyBlock b fun bb => { bb with body := bb.body ++ [f.nextId] }

/-- Adds an edge of the flow graph, once. -/
def link (source target : BlockId) : Func :=
  if target ∈ (f.block source).succs then f
  else
    (f.modifyBlock source fun bb => { bb with succs := bb.succs ++ [target] }).modifyBlock
      target fun bb => { bb with preds := bb.preds ++ [source] }

/-- Ends a block with a terminator, under a generated name, and links the blocks it
leads to. -/
def setTerminator (b : BlockId) (i : Instr) : Func :=
  i.targets.foldl (fun g t => g.link b t)
    ((f.addNode b none i).modifyBlock b fun bb => { bb with terminator := some f.nextId })

/-- Adds an instruction where its kind belongs in the block. -/
def append (b : BlockId) (name : Option String) (i : Instr) : Func :=
  match i with
  | .phi sources => f.addPhi b name sources
  | i => if i.isTerminator then f.setTerminator b i else f.addInstr b name i

end Func

end LoopBounds
