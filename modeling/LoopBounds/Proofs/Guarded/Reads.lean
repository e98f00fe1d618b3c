import LoopBounds.Proofs.Flow.LoopForest
import LoopBounds.Proofs.Func.Growth

/-!
# Guarded reads

The tables of a function are read here so that a missing entry stops the run. A guarded run
gives its result only if everything that it looked up was there and every check that it made
held. Each guarded function follows one of the program, and is shown to give what that one
gives.
-/

namespace LoopBounds

/-- Why a guarded run stops. -/
inductive Crash where
  | noNode (x : InstrId)
  | noBlock (b : BlockId)
  | noLoop (l : LoopId)
  /-- A table has no entry under a key. -/
  | noKey
  /-- There is no first element. -/
  | noElement
  /-- A text is cut within a character or behind its end. -/
  | slice
  /-- A case that the program takes to be impossible. -/
  | unreachable
  /-- A check that the program makes of itself fails. -/
  | assertion
  | overflow
  /-- A recursion goes deeper than its bound. -/
  | depth
  deriving DecidableEq, Repr

abbrev Guarded := Except Crash

namespace Guarded

section Steps

variable {α β : Type} {crash : Crash}

/-- What must be there. -/
def found (crash : Crash) : Option α → Guarded α
  | some a => pure a
  | none => throw crash

@[simp] theorem found_some (a : α) : found crash (some a) = pure a := rfl

/-- What must hold. -/
def check (crash : Crash) (p : Prop) [Decidable p] : Guarded Unit :=
  if p then pure () else throw crash

theorem check_eq {p : Prop} [Decidable p] (h : p) : check crash p = pure () := if_pos h

/-- A guarded run that may find nothing. -/
abbrev Attempt := OptionT Guarded

def given (o : Option α) : Attempt α := OptionT.mk (pure o)

@[simp] theorem run_given (o : Option α) : (given o).run = pure o := rfl

@[simp] theorem given_some (a : α) : given (some a) = pure a := rfl

theorem failure_eq : (failure : Attempt α) = given none := rfl

theorem given_bind_of {o : Option α} {next : α → Attempt β} {next' : α → Option β}
    (h : ∀ a, o = some a → next a = given (next' a)) :
    given o >>= next = given (o >>= next') := by
  cases o with
  | none => rfl
  | some a => exact h a rfl

@[simp] theorem given_orElse (o o' : Option α) : (given o <|> given o') = given (o <|> o') := by
  cases o <;> rfl

@[simp] theorem liftM_pure_attempt (a : α) : (liftM (pure a : Guarded α) : Attempt α) = pure a :=
  rfl

/-- What an attempt finds, which may be nothing. -/
def tried (a : Attempt α) : Attempt (Option α) := OptionT.lift a.run

@[simp] theorem tried_given (o : Option α) : tried (given o) = pure o := rfl

end Steps

section Lists

variable {m : Type → Type} [Monad m] [LawfulMonad m] {α β : Type} {l : List α}

theorem mapM_eq {g : α → m β} {k : α → β} (h : ∀ a ∈ l, g a = pure (k a)) :
    l.mapM g = pure (l.map k) := by
  induction l with
  | nil => rfl
  | cons a l ih =>
    obtain ⟨ha, hl⟩ := List.forall_mem_cons.mp h
    simp [ha, ih hl]

theorem forM_eq {g : α → m PUnit} (h : ∀ a ∈ l, g a = pure ⟨⟩) : forM l g = pure ⟨⟩ := by
  induction l with
  | nil => rfl
  | cons a l ih =>
    obtain ⟨ha, hl⟩ := List.forall_mem_cons.mp h
    simp [ha, ih hl]

theorem filterM_eq {p : α → m Bool} {q : α → Bool} (h : ∀ a ∈ l, p a = pure (q a)) :
    l.filterM p = pure (l.filter q) := by
  have hloop (acc : List α) : l.filterAuxM p acc = pure ((l.filter q).reverse ++ acc) := by
    induction l generalizing acc with
    | nil => rfl
    | cons a l ih =>
      obtain ⟨ha, hl⟩ := List.forall_mem_cons.mp h
      cases hq : q a <;> simp [List.filterAuxM, ha, hq, ih hl]
  simp [List.filterM, hloop]

theorem filterMapM_eq {g : α → m (Option β)} {k : α → Option β} (h : ∀ a ∈ l, g a = pure (k a)) :
    l.filterMapM g = pure (l.filterMap k) := by
  have hloop (acc : List β) : List.filterMapM.loop g l acc =
      pure (acc.reverse ++ l.filterMap k) := by
    induction l generalizing acc with
    | nil => simp [List.filterMapM.loop]
    | cons a l ih =>
      obtain ⟨ha, hl⟩ := List.forall_mem_cons.mp h
      cases hk : k a <;> simp [List.filterMapM.loop, ha, hk, ih hl]
  simp [List.filterMapM, hloop]

theorem flatMapM_eq {g : α → m (List β)} {k : α → List β} (h : ∀ a ∈ l, g a = pure (k a)) :
    l.flatMapM g = pure (l.flatMap k) := by
  have hloop (acc : List (List β)) : List.flatMapM.loop g l acc =
      pure (acc.reverse.flatten ++ l.flatMap k) := by
    induction l generalizing acc with
    | nil => simp [List.flatMapM.loop]
    | cons a l ih =>
      obtain ⟨ha, hl⟩ := List.forall_mem_cons.mp h
      simp [List.flatMapM.loop, ha, ih hl]
  simp [List.flatMapM, hloop]

theorem allM_eq {p : α → m Bool} {q : α → Bool} (h : ∀ a ∈ l, p a = pure (q a)) :
    l.allM p = pure (l.all q) := by
  induction l with
  | nil => rfl
  | cons a l ih =>
    obtain ⟨ha, hl⟩ := List.forall_mem_cons.mp h
    cases hq : q a <;> simp [List.allM, ha, hq, ih hl]

theorem anyM_eq {p : α → m Bool} {q : α → Bool} (h : ∀ a ∈ l, p a = pure (q a)) :
    l.anyM p = pure (l.any q) := by
  induction l with
  | nil => rfl
  | cons a l ih =>
    obtain ⟨ha, hl⟩ := List.forall_mem_cons.mp h
    cases hq : q a <;> simp [List.anyM, ha, hq, ih hl]

theorem findSomeM?_eq {g : α → m (Option β)} {k : α → Option β} (h : ∀ a ∈ l, g a = pure (k a)) :
    l.findSomeM? g = pure (l.findSome? k) := by
  induction l with
  | nil => rfl
  | cons a l ih =>
    obtain ⟨ha, hl⟩ := List.forall_mem_cons.mp h
    cases hk : k a <;> simp [List.findSomeM?, ha, hk, ih hl]

theorem foldlM_eq {I : β → Prop} {g : β → α → m β} {k : β → α → β} {b : β}
    (h : ∀ b, I b → ∀ a ∈ l, g b a = pure (k b a) ∧ I (k b a)) (hb : I b) :
    l.foldlM g b = pure (l.foldl k b) := by
  induction l generalizing b with
  | nil => rfl
  | cons a l ih =>
    obtain ⟨hstep, hkeep⟩ := h b hb a List.mem_cons_self
    rw [List.foldlM_cons, hstep, pure_bind]
    exact ih (fun b hb a ha => h b hb a (List.mem_cons_of_mem _ ha)) hkeep

end Lists

section Tables

variable (f : Func) (forest : LoopForest)

def node (x : InstrId) : Guarded Node := found (.noNode x) f.nodes[x.index]?

def instr (x : InstrId) : Guarded Instr := do return (← node f x).instr

def home (x : InstrId) : Guarded BlockId := do return (← node f x).block

def nameOf (x : InstrId) : Guarded String := do return (← node f x).name

def constant? (x : InstrId) : Guarded (Option Int32) := do return (← instr f x).constant?

def block (b : BlockId) : Guarded Block := found (.noBlock b) f.blocks[b.index]?

def terminator? (b : BlockId) : Guarded (Option InstrId) := do return (← block f b).terminator

def loop (l : LoopId) : Guarded Loop := found (.noLoop l) forest.loops[l.index]?

variable {f forest} {x : InstrId} {b : BlockId} {l : LoopId}

theorem node_eq (hx : x.index < f.nodes.size) : node f x = pure (f.node x) := by
  simp [node, Func.node, hx]

theorem instr_eq (hx : x.index < f.nodes.size) : instr f x = pure (f.instr x) := by
  simp [instr, node_eq hx, Func.instr]

theorem home_eq (hx : x.index < f.nodes.size) : home f x = pure (f.home x) := by
  simp [home, node_eq hx, Func.home]

theorem nameOf_eq (hx : x.index < f.nodes.size) : nameOf f x = pure (f.nameOf x) := by
  simp [nameOf, node_eq hx, Func.nameOf]

theorem constant?_eq (hx : x.index < f.nodes.size) : constant? f x = pure (f.constant? x) := by
  simp [constant?, instr_eq hx, Func.constant?]

theorem block_eq (hb : b.index < f.blocks.size) : block f b = pure (f.block b) := by
  simp [block, Func.block, hb]

theorem terminator?_eq (hb : b.index < f.blocks.size) :
    terminator? f b = pure (f.terminator? b) := by
  simp [terminator?, block_eq hb, Func.terminator?]

theorem loop_eq (hl : l ∈ forest.ids) : loop forest l = pure (forest.get l) := by
  simp [loop, LoopForest.get, LoopForest.mem_ids.mp hl]

end Tables

end Guarded

end LoopBounds
