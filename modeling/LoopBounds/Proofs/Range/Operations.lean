import LoopBounds.Proofs.Func.Tables
import LoopBounds.Proofs.Listing.Hoisted

/-!
# Sequences of operations

A function is made by any sequence of operations, code for bounds included. That code consists
of constants and of ordinary instructions, so it is built as well, and the tables agree after
each operation. A name that is not given is generated, and no earlier node has it; only a constant,
which is named by its value, may find that some node was given its name.
-/

namespace LoopBounds

open Emit Listing

namespace Emit.Rule

variable {f : Func} {p : BlockId} {context x : InstrId} {I : Func → Prop}

theorem keeps_generateBounds (hrule : Rule p I fun _ _ => True) (a : Analysis) (hI : I f) :
    I (a.generateBounds f context x p).2 := by
  rcases a.generateBounds_func f context x p with heq | ⟨q, -, heq⟩
  · rwa [heq]
  · rw [heq]
    exact (Descriptor.yields_emitBounds hrule (fun _ _ _ _ _ _ => trivial)
      (fun _ _ _ _ => trivial) hI).keeps

theorem keeps_generateTaken (hrule : Rule p I fun _ _ => True) (a : Analysis) (hI : I f) :
    I (a.generateTaken f context p).2 := by
  rcases a.generateTaken_func f context p with heq | ⟨test, inBody, -, -, heq⟩
  · rwa [heq]
  · rw [heq]
    exact (Descriptor.keeps_emit hrule (fun _ _ _ _ _ _ => trivial) (fun _ _ _ _ => trivial)
      .upper f hI).keeps

theorem keeps_hoistBounds (hf : f.Coherent)
    (hrule : ∀ p, p.index < f.blocks.size → Rule p I fun _ _ => True) (hI : I f) :
    I f.hoistBounds.1 := by
  rw [Func.hoistBounds_eq]
  refine (Analysis.ofFunc f).foldl_hoistStep_keeps (fun g l hg => ?_) _ hI
  apply (Analysis.ofFunc f).hoistLoop_keeps hg
  · intro p context hp _ t _ g' _ hg' _ _ _
    exact (hrule p (Analysis.index_lt_of_preheader hf hp)).keeps_generateBounds _ hg'
  · intro p context hp _ g' hg' _ _
    exact (hrule p (Analysis.index_lt_of_preheader hf hp)).keeps_generateTaken _ hg'

end Emit.Rule

namespace Func

/-- One operation on a function. -/
inductive Operation where
  | addParam (name : String)
  | addConstant (v : Int32)
  | addBlock (label : String)
  | renameBlock (b : BlockId) (label : String)
  | addPhi (b : BlockId) (name : Option String) (sources : List (InstrId × BlockId))
  | addPhiSource (x value : InstrId) (source : BlockId)
  | addInstr (b : BlockId) (name : Option String) (i : Instr)
  | setTerminator (b : BlockId) (i : Instr)
  | generateBounds (a : Analysis) (context x : InstrId) (target : BlockId)
  | generateTaken (a : Analysis) (context : InstrId) (target : BlockId)
  | hoistBounds

namespace Operation

/-- The function after the operation. -/
def apply (f : Func) : Operation → Func
  | addParam name => f.addParam name
  | addConstant v => (f.addConstant v).2
  | addBlock label => f.addBlock label
  | renameBlock b label => f.renameBlock b label
  | addPhi b name sources => f.addPhi b name sources
  | addPhiSource x value source => f.addPhiSource x value source
  | addInstr b name i => f.addInstr b name i
  | setTerminator b i => f.setTerminator b i
  | generateBounds a context x target => (a.generateBounds f context x target).2
  | generateTaken a context target => (a.generateTaken f context target).2
  | hoistBounds => f.hoistBounds.1

/-- Blocks are there when they are used, only phis get sources, only ordinary instructions are
appended, and a block gets one terminator. -/
def Allowed (f : Func) : Operation → Prop
  | addParam _ | addConstant _ | addBlock _ | hoistBounds => True
  | renameBlock b _ | addPhi b _ _ => b.index < f.blocks.size
  | addPhiSource x _ _ => (f.instr x).isPhi = true
  | addInstr b _ i => b.index < f.blocks.size ∧ i.isPhi = false ∧ i.isTerminator = false ∧
      i.isLeaf = false
  | setTerminator b i => b.index < f.blocks.size ∧ f.terminator? b = none ∧
      i.isTerminator = true ∧ ∀ t ∈ i.targets, t.index < f.blocks.size
  | generateBounds _ _ _ target | generateTaken _ _ target => target.index < f.blocks.size

instance (f : Func) : (op : Operation) → Decidable (op.Allowed f)
  | addParam _ | addConstant _ | addBlock _ | hoistBounds => inferInstanceAs (Decidable True)
  | renameBlock b _ | addPhi b _ _ => inferInstanceAs (Decidable (b.index < f.blocks.size))
  | addPhiSource x _ _ => inferInstanceAs (Decidable ((f.instr x).isPhi = true))
  | addInstr b _ i => inferInstanceAs (Decidable (b.index < f.blocks.size ∧ i.isPhi = false ∧
      i.isTerminator = false ∧ i.isLeaf = false))
  | setTerminator b i => inferInstanceAs (Decidable (b.index < f.blocks.size ∧
      f.terminator? b = none ∧ i.isTerminator = true ∧ ∀ t ∈ i.targets, t.index < f.blocks.size))
  | generateBounds _ _ _ target | generateTaken _ _ target =>
      inferInstanceAs (Decidable (target.index < f.blocks.size))

/-- The names that the operation is given for the nodes that it adds. -/
def given : Operation → List String
  | addParam name => [name]
  | addPhi _ name _ | addInstr _ name _ => name.toList
  | _ => []

end Operation

/-- A name that was not given is a temporary one, or that of a constant. -/
def NamesFrom (given : List String) (g : Func) : Prop :=
  ∀ x, x.index < g.nodes.size → g.nameOf x ∉ given →
    (∃ k, g.nameOf x = temporaryName k) ∨ ∃ v, g.constant? x = some v ∧ g.nameOf x = constantName v

/-- From position `n` on, nodes have names that no earlier node has, unless a constant has one
of the given names. Constants are named by their values. -/
structure FreshFrom (given : List String) (n : Nat) (g : Func) : Prop where
  origin : NamesFrom given g
  fresh : ∀ x y, n ≤ x.index → x.index < g.nodes.size → y.index < x.index →
    g.nameOf x = g.nameOf y → (g.constant? x).isSome ∧ g.nameOf x ∈ given
  constant : ∀ x v, n ≤ x.index → x.index < g.nodes.size → g.constant? x = some v →
    g.nameOf x = constantName v

variable {f g : Func} {b p : BlockId} {i : Instr} {op : Operation} {n : Nat} {given : List String}

section Names

section Push

variable {name : String} (hnodes : g.nodes = f.nodes.push ⟨name, b, i⟩)
include hnodes

theorem node_of_push_of_lt {x : InstrId} (hx : x.index < f.nodes.size) : g.node x = f.node x := by
  rw [node_of_push hnodes, if_neg]
  rintro rfl
  exact lt_irrefl _ hx

theorem cases_of_push {x : InstrId} (hx : x.index < g.nodes.size) :
    x.index < f.nodes.size ∨ x = f.nextId ∧ g.node x = ⟨name, b, i⟩ := by
  rw [hnodes, Array.size_push] at hx
  rw [or_iff_not_imp_left]
  intro hx'
  have heq := eq_nextId hx' hx
  exact ⟨heq, by rw [node_of_push hnodes, if_pos heq]⟩

theorem NamesFrom.push (h : NamesFrom given f)
    (hname : name ∈ given ∨
      name = i.constant?.elim (temporaryName f.freshTemporary) constantName) :
    NamesFrom given g := by
  intro x hx hgiven
  rcases cases_of_push hnodes hx with hx | ⟨-, hnode⟩
  · have hnode := node_of_push_of_lt hnodes hx
    simp only [nameOf, constant?, instr, hnode] at hgiven ⊢
    exact h x hx hgiven
  · simp only [nameOf, constant?, instr, hnode] at hgiven ⊢
    have hname := hname.resolve_left hgiven
    cases hconst : i.constant? with
    | none => exact .inl ⟨_, by rw [hname, hconst]; rfl⟩
    | some v => exact .inr ⟨v, rfl, by rw [hname, hconst]; rfl⟩

/-- A temporary name is free. The name of a constant that is not there yet is free, too, unless
a node was given it. -/
theorem FreshFrom.push (h : FreshFrom given n f)
    (habsent : ∀ v x, i.constant? = some v → f.constant? x ≠ some v)
    (hname : name = i.constant?.elim (temporaryName f.freshTemporary) constantName) :
    FreshFrom given n g := by
  refine ⟨h.origin.push hnodes (.inr hname), ?_, ?_⟩
  · intro x y hn hx hlt heq
    rcases cases_of_push hnodes hx with hx | ⟨rfl, hnode⟩
    · have hy := node_of_push_of_lt hnodes (hlt.trans hx)
      have hx' := node_of_push_of_lt hnodes hx
      simp only [nameOf, constant?, instr, hx', hy] at heq ⊢
      exact h.fresh x y hn hx hlt heq
    · have hy := node_of_push_of_lt hnodes hlt
      simp only [nameOf, constant?, instr, hnode, hy] at heq ⊢
      cases hconst : i.constant? with
      | none =>
        rw [hname, hconst] at heq
        exact absurd heq.symm (nameOf_ne_freshTemporary hlt)
      | some v =>
        refine ⟨rfl, by_contra fun hgiven => ?_⟩
        rw [heq] at hgiven
        rw [hname, hconst] at heq
        rcases h.origin y hlt hgiven with ⟨k, hk⟩ | ⟨w, hw, hwname⟩
        · exact constantName_ne_temporaryName v k (heq.trans hk)
        · obtain rfl := constantName_injective (heq.trans hwname)
          exact habsent v y hconst hw
  · intro x v hn hx hconst
    rcases cases_of_push hnodes hx with hx | ⟨-, hnode⟩
    · have hnode := node_of_push_of_lt hnodes hx
      simp only [nameOf, constant?, instr, hnode] at hconst ⊢
      exact h.constant x v hn hx hconst
    · simp only [nameOf, constant?, instr, hnode] at hconst ⊢
      rw [hname, hconst]
      rfl

end Push

theorem NamesFrom.append (h : NamesFrom given f) (more : List String) :
    NamesFrom (given ++ more) f :=
  fun x hx hgiven => h x hx fun hmem => hgiven (List.mem_append_left more hmem)

theorem NamesFrom.freshFrom (h : NamesFrom given f) : FreshFrom given f.nodes.size f :=
  ⟨h, fun _ _ hn hx => absurd hx (Nat.not_lt.mpr hn),
    fun _ _ hn hx => absurd hx (Nat.not_lt.mpr hn)⟩

theorem FreshFrom.addConstant (h : FreshFrom given n f) (hf : f.ConstantsPooled) (v : Int32) :
    FreshFrom given n (f.addConstant v).2 := by
  unfold Func.addConstant
  split
  · exact h
  · rename_i hfind
    refine h.push (nodes_pushConstant f v) ?_ rfl
    rintro w x hw hx
    obtain rfl : v = w := Option.some.inj hw
    rw [hf v x (Instr.constant?_eq_some_iff.mp hx)] at hfind
    cases hfind

theorem FreshFrom.push_temporary (h : FreshFrom given n f)
    (hnodes : g.nodes = f.nodes.push ⟨temporaryName f.freshTemporary, b, i⟩)
    (hi : i.constant? = none) : FreshFrom given n g := by
  refine h.push hnodes ?_ (by rw [hi]; rfl)
  rintro v x hv -
  rw [hi] at hv
  cases hv

theorem NamesFrom.addPhiSource (h : NamesFrom given f) (x value : InstrId) (source : BlockId) :
    NamesFrom given (f.addPhiSource x value source) := by
  intro y hy hgiven
  replace hy : y.index < f.nodes.size := by simpa [Func.addPhiSource] using hy
  rcases node_addPhiSource f x value source y with hnode | ⟨sources, hphi, hnode⟩
  · simp only [nameOf, constant?, instr, hnode] at hgiven ⊢
    exact h y hy hgiven
  · rw [nameOf, hnode] at hgiven
    rw [nameOf, constant?, instr, hnode]
    refine .inl <| (h y hy hgiven).resolve_right ?_
    rintro ⟨v, hv, -⟩
    rw [constant?, hphi] at hv
    cases hv

theorem NamesFrom.push_named (h : NamesFrom given f) (name : Option String)
    (hnodes : g.nodes = f.nodes.push ⟨name.getD (temporaryName f.freshTemporary), b, i⟩)
    (hi : i.constant? = none) : NamesFrom (given ++ name.toList) g := by
  apply (h.append name.toList).push hnodes
  cases name with
  | none => exact .inr (by rw [hi]; rfl)
  | some name => exact .inl (List.mem_append_right given (List.mem_singleton_self name))

end Names

section Code

/-- The functions that have been built on from `f`, where the names generated since then are
fresh. -/
structure BuiltOn (given : List String) (f g : Func) : Prop where
  built : g.Built
  blocks : g.blocks.size = f.blocks.size
  fresh : FreshFrom given f.nodes.size g

theorem rule_builtOn (hp : p.index < f.blocks.size) :
    Rule p (BuiltOn given f) fun _ _ => True where
  constant g v hg := by
    have hext := extends_addConstant g v
    have hpool : g.ConstantsPooled := fun w x => (hg.built.consistent.constant w x).mpr
    exact ⟨⟨hg.built.addConstant v, hext.blocks.trans hg.blocks, hg.fresh.addConstant hpool v⟩,
      hext, fun _ _ => trivial⟩
  append g i hg hi _ := by
    have hext := extends_addInstr g p none hi
    obtain ⟨hphi, hterm, hleaf⟩ := hi.kind
    have hbuilt := hg.built.addInstr p none i (hg.blocks ▸ hp) hphi hterm hleaf
    have hconst := Instr.constant?_of_isLeaf hleaf
    exact ⟨⟨hbuilt, hext.blocks.trans hg.blocks,
      hg.fresh.push_temporary (nodes_addNode g p none i) hconst⟩, hext, fun _ _ => trivial⟩
  mono _ _ _ _ _ _ := trivial

theorem Built.builtOn (hf : f.Built) (hfrom : NamesFrom given f) : BuiltOn given f f :=
  ⟨hf, rfl, hfrom.freshFrom⟩

theorem namesFrom_names (f : Func) : NamesFrom f.names f :=
  fun _ hx hgiven => absurd (of_decide_eq_true (usesName_nameOf hx)) hgiven

end Code

section Step

theorem Built.apply (hf : f.Built) (hop : op.Allowed f) : (op.apply f).Built := by
  have hon := hf.builtOn f.namesFrom_names
  cases op with
  | addParam name => exact hf.addParam name
  | addConstant v => exact hf.addConstant v
  | addBlock label => exact hf.addBlock label
  | renameBlock b label => exact hf.renameBlock b label hop
  | addPhi b name sources => exact hf.addPhi b name sources hop
  | addPhiSource x value source => exact hf.addPhiSource x value source hop
  | addInstr b name i => exact hf.addInstr b name i hop.1 hop.2.1 hop.2.2.1 hop.2.2.2
  | setTerminator b i => exact hf.setTerminator b i hop.1 hop.2.1 hop.2.2.1 hop.2.2.2
  | generateBounds a context x target => exact ((rule_builtOn hop).keeps_generateBounds a hon).built
  | generateTaken a context target => exact ((rule_builtOn hop).keeps_generateTaken a hon).built
  | hoistBounds => exact (Rule.keeps_hoistBounds hf.coherent (fun _ => rule_builtOn) hon).built

/-- Every name that an operation generates differs from the names that are there, unless a constant
finds its name given to some node. -/
theorem Built.freshFrom_apply (hf : f.Built) (hfrom : NamesFrom given f) (hop : op.Allowed f)
    (hname : op.given = []) : FreshFrom given f.nodes.size (op.apply f) := by
  have hon := hf.builtOn hfrom
  have hstart := hfrom.freshFrom
  have hsame {g : Func} (hfrom : NamesFrom given g) (hsize : g.nodes.size = f.nodes.size) :
      FreshFrom given f.nodes.size g := hsize ▸ hfrom.freshFrom
  cases op with
  | addParam name => cases hname
  | addConstant v =>
    exact hstart.addConstant (fun w x => (hf.consistent.constant w x).mpr) v
  | addBlock | renameBlock => exact hsame hfrom rfl
  | addPhiSource x value source =>
    exact hsame (hfrom.addPhiSource x value source) (by simp [Operation.apply, Func.addPhiSource])
  | addPhi b name sources =>
    obtain rfl : name = none := Option.toList_eq_nil_iff.mp hname
    exact hstart.push_temporary (nodes_addNode f b none (.phi sources)) rfl
  | addInstr b name i =>
    obtain rfl : name = none := Option.toList_eq_nil_iff.mp hname
    have hconst := Instr.constant?_of_isLeaf hop.2.2.2
    exact hstart.push_temporary (nodes_addNode f b none i) hconst
  | setTerminator b i =>
    have hnodes : (f.setTerminator b i).nodes =
        f.nodes.push ⟨temporaryName f.freshTemporary, b, i⟩ := by
      rw [Func.setTerminator, nodes_foldl_link]
      exact nodes_addNode f b none i
    have hleaf : i.isLeaf = false := Instr.not_isLeaf_of_isTerminator hop.2.2.1
    exact hstart.push_temporary hnodes (Instr.constant?_of_isLeaf hleaf)
  | generateBounds a context x target => exact ((rule_builtOn hop).keeps_generateBounds a hon).fresh
  | generateTaken a context target => exact ((rule_builtOn hop).keeps_generateTaken a hon).fresh
  | hoistBounds => exact (Rule.keeps_hoistBounds hf.coherent (fun _ => rule_builtOn) hon).fresh

theorem Built.namesFrom_apply (hf : f.Built) (hfrom : NamesFrom given f) (hop : op.Allowed f) :
    NamesFrom (given ++ op.given) (op.apply f) := by
  cases op with
  | addParam name =>
    exact hfrom.push_named (some name) (nodes_addNode f .entry (some name) _) rfl
  | addPhi b name sources =>
    exact hfrom.push_named name (nodes_addNode f b name (.phi sources)) rfl
  | addInstr b name i =>
    exact hfrom.push_named name (nodes_addNode f b name i) (Instr.constant?_of_isLeaf hop.2.2.2)
  | _ => exact (hf.freshFrom_apply hfrom hop rfl).origin.append []

end Step

section Run

variable {ops : List Operation}

/-- The function after a sequence of operations. -/
def applyAll (f : Func) (ops : List Operation) : Func := ops.foldl Operation.apply f

/-- Each operation is allowed when it is its turn. -/
def AllAllowed (f : Func) : List Operation → Prop
  | [] => True
  | op :: ops => op.Allowed f ∧ (op.apply f).AllAllowed ops

instance decidableAllAllowed (f : Func) : (ops : List Operation) → Decidable (f.AllAllowed ops)
  | [] => inferInstanceAs (Decidable True)
  | op :: ops =>
      have := decidableAllAllowed (op.apply f) ops
      inferInstanceAs (Decidable (op.Allowed f ∧ (op.apply f).AllAllowed ops))

theorem Built.applyAll (hf : f.Built) (hfrom : NamesFrom given f) (h : f.AllAllowed ops) :
    (f.applyAll ops).Built ∧ NamesFrom (given ++ ops.flatMap Operation.given) (f.applyAll ops) := by
  induction ops generalizing f given with
  | nil => exact ⟨hf, hfrom.append []⟩
  | cons op ops ih =>
    rw [List.flatMap_cons, ← List.append_assoc]
    exact ih (hf.apply h.1) (hf.namesFrom_apply hfrom h.1) h.2

/-- After any sequence of operations the tables agree, and the names that the next operation
generates are fresh, but for a constant whose name was given to some node. -/
theorem consistent_applyAll (name : String) (returns : ResultType)
    (h : (Func.empty name returns).AllAllowed ops) :
    ((Func.empty name returns).applyAll ops).Consistent ∧
      ∀ op : Operation, op.Allowed ((Func.empty name returns).applyAll ops) → op.given = [] →
        FreshFrom (ops.flatMap Operation.given) ((Func.empty name returns).applyAll ops).nodes.size
          (op.apply ((Func.empty name returns).applyAll ops)) := by
  have hempty : NamesFrom [] (Func.empty name returns) := fun _ hx => absurd hx (Nat.not_lt_zero _)
  obtain ⟨hbuilt, hfrom⟩ := (Built.empty name returns).applyAll hempty h
  exact ⟨hbuilt.consistent, fun _ hop hname => hbuilt.freshFrom_apply hfrom hop hname⟩

/-- A constant gets the name of its value even where a parameter has that name. -/
theorem exists_clash_applyAll : ¬ ∀ (ops : List Operation) (op : Operation) (x y : InstrId),
    (Func.empty "f" .void).AllAllowed ops → op.Allowed ((Func.empty "f" .void).applyAll ops) →
    op.given = [] → ((Func.empty "f" .void).applyAll ops).nodes.size ≤ x.index →
    x.index < (op.apply ((Func.empty "f" .void).applyAll ops)).nodes.size → y.index < x.index →
    (op.apply ((Func.empty "f" .void).applyAll ops)).nameOf x ≠
      (op.apply ((Func.empty "f" .void).applyAll ops)).nameOf y := by
  intro h
  exact h [.addParam "c0"] (.addConstant 0) ⟨1⟩ ⟨0⟩ (by decide) trivial rfl (by decide +kernel)
    (by decide +kernel) (by decide) (by decide +kernel)

/-- A loop that counts up to the parameter; one branch has equal targets, and the bounds of the
counter are computed in front of the loop. -/
def countingOperations : List Operation :=
  [.addParam "t1", .addConstant 0, .addBlock "", .addBlock "body", .addBlock "exit",
    .setTerminator .entry (.branch ⟨0⟩ ⟨1⟩ ⟨1⟩), .renameBlock ⟨1⟩ "header",
    .addPhi ⟨1⟩ (some "i") [(⟨1⟩, .entry)], .addInstr ⟨1⟩ none (.compare .lt ⟨3⟩ ⟨0⟩),
    .setTerminator ⟨1⟩ (.branch ⟨4⟩ ⟨2⟩ ⟨3⟩), .addConstant 1,
    .addInstr ⟨2⟩ (some "next") (.arith .add ⟨3⟩ ⟨6⟩), .addPhiSource ⟨3⟩ ⟨7⟩ ⟨2⟩,
    .setTerminator ⟨2⟩ (.jump ⟨1⟩), .setTerminator ⟨3⟩ (.ret (some ⟨3⟩)), .hoistBounds]

/-- The tables of the counting loop agree, and code has been hoisted. -/
theorem counting_consistent : (Func.empty "counting" .i32).AllAllowed countingOperations ∧
    ((Func.empty "counting" .i32).applyAll countingOperations).Consistent ∧
    ((Func.empty "counting" .i32).applyAll countingOperations).nodes.size = 17 := by
  have hallowed : (Func.empty "counting" .i32).AllAllowed countingOperations := by decide +kernel
  exact ⟨hallowed, (consistent_applyAll "counting" .i32 hallowed).1, by decide +kernel⟩

end Run

end Func

end LoopBounds
