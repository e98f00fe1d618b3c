import LoopBounds.Proofs.Guarded.Classify
import LoopBounds.Proofs.Range.Termination

/-!
# Guarded queries about ranges

A query looks up the blocks of the context and of the value, the loops around them, and the
terminator of the header. What is asked for is then worked out by a recursion that must end. The
loops found and all that is stored for them stay in the tables while the function grows, so that
the queries may be asked of any later function.
-/

namespace LoopBounds

namespace Analysis

/-- The blocks that the loops name, the keys of what is stored for the loops, and all that it
fetches are in the tables of the function. -/
structure Within (a : Analysis) (f : Func) : Prop where
  finished : a.forest.Finished
  filled : f.Filled
  header : ∀ l ∈ a.forest.ids, (a.forest.get l).header.index < f.blocks.size
  latch : ∀ l ∈ a.forest.ids, ∀ b ∈ (a.forest.get l).latches, b.index < f.blocks.size
  preheader : ∀ l ∈ a.forest.ids, ∀ b ∈ (a.forest.get l).preheader, b.index < f.blocks.size
  stored : ∀ l x d, a.stored? l x = some d → x.index < f.nodes.size
  fetched : ∀ l x d, a.stored? l x = some d → d.FetchesOnly (·.index < f.nodes.size)
  linearFree : ∀ l, ∀ t ∈ a.tripCount? f l, t.LinearFree

variable {a : Analysis} {f g : Func} {b : BlockId} {context x : InstrId} {l : LoopId}
variable {d : Descriptor}

theorem within_ofFunc (hw : f.Writable) (hf : f.Linked) : (ofFunc f).Within f where
  finished := hf.flow.finished
  filled := hw.filled
  header _ hl := (Guarded.grounded hf hw.filled hl).header
  latch _ hl b hb :=
    (Guarded.grounded hf hw.filled hl).blocks b ((hf.flow.natural hl).latch_mem b hb)
  preheader _ _ _ hp := index_lt_of_preheader hf.toCoherent hp
  stored _ _ _ h := index_lt_of_stored? hf hw.filled h
  fetched _ _ _ h y hy := Func.index_lt_of_named hw (hw.fetchesOnly_named h y hy)
  linearFree _ _ h := (hw.isTripCount_of_tripCount? hf h).linearFree

theorem Within.mono (ha : a.Within f) (hfg : f.Extends g) : a.Within g where
  finished := ha.finished
  filled := hfg.filled ha.filled
  header l hl := hfg.blocks ▸ ha.header l hl
  latch l hl b hb := hfg.blocks ▸ ha.latch l hl b hb
  preheader l hl b hb := hfg.blocks ▸ ha.preheader l hl b hb
  stored l x d h := (ha.stored l x d h).trans_le hfg.size
  fetched l x d h y hy := (ha.fetched l x d h y hy).trans_le hfg.size
  linearFree l := by
    have htrip : a.tripCount? g l = a.tripCount? f l := by
      rw [tripCount?, Func.terminator?, hfg.terminator, ← Func.terminator?, ← tripCount?]
    exact htrip ▸ ha.linearFree l

theorem Within.index_lt_of_terminator? (ha : a.Within f) (h : f.terminator? b = some x) :
    x.index < f.nodes.size :=
  ha.filled b x (List.mem_append_right _ (Option.mem_toList.mpr h))

theorem Within.fetched_of_tripCount? (ha : a.Within f) (h : a.tripCount? f l = some d) :
    d.FetchesOnly (·.index < f.nodes.size) := by
  obtain ⟨control, -, h⟩ := Option.bind_eq_some_iff.mp h
  exact ha.fetched l control d h

theorem Within.fetched_of_lookup (ha : a.Within f) (hx : x.index < f.nodes.size)
    (h : a.lookup f l x = some d) : d.FetchesOnly (·.index < f.nodes.size) := by
  unfold lookup at h
  split at h
  · rename_i e he
    exact Option.some.inj h ▸ ha.fetched l x e he
  · split_ifs at h
    obtain rfl := Option.some.inj h
    unfold Func.fetch
    cases f.constant? x with
    | none => exact Descriptor.fetchesOnly_fetch.mpr hx
    | some c => exact Descriptor.fetchesOnly_constant c

end Analysis

namespace Guarded

section Queries

variable (a : Analysis) (f : Func)

def contextLoop? (context : InstrId) : Attempt (LoopId × Bool) := do
  let b ← home f context
  let l ← given (a.forest.innermost? b)
  return (l, (← loop a.forest l).header ≠ b)

/-- The value is constant, a parameter or computed outside the loop. -/
def definedOutside (l : LoopId) (x : InstrId) : Guarded Bool := do
  let constant := (← constant? f x).isSome
  return constant || x ∈ f.params || !(← contains a.forest l (← home f x))

def lookupStored (l : LoopId) (x : InstrId) : Attempt Descriptor := do
  match a.stored? l x with
  | some d => return d
  | none => if ← definedOutside a f l x then fetch f x else failure

def storedTrip (l : LoopId) : Attempt Descriptor := do
  let control ← OptionT.mk (terminator? f (← loop a.forest l).header)
  given (a.stored? l control)

/-- What is asked for is worked out by a recursion that goes on with the trip count wherever a
linear sequence stands. -/
def query? (context x : InstrId) : Attempt Query := do
  let (l, inBody) ← contextLoop? a f context
  let d ← lookupStored a f l x
  let trip ← tried (storedTrip a f l)
  check .depth (∀ t ∈ trip, t.LinearFree)
  return ⟨d, trip, inBody⟩

def range? (context x : InstrId) : Attempt ValueRange := do
  return (← query? a f context x).range

def tests? (context x : InstrId) : Attempt GuardTests := do
  given (← query? a f context x).tests?

def takenTest? (context : InstrId) : Attempt (Descriptor × Bool) := do
  let (l, inBody) ← contextLoop? a f context
  return (← given (← storedTrip a f l).taken?, inBody)

def bodyContext? (l : LoopId) : Attempt InstrId := do
  let loop ← loop a.forest l
  OptionT.mk ((loop.latches.filter (· ≠ loop.header)).findSomeM? (terminator? f))

def isLoopValue (l : LoopId) (x : InstrId) (d : Descriptor) : Guarded Bool := do
  let inside ← contains a.forest l (← home f x)
  let constant := (← constant? f x).isSome
  return d.tripKind?.isNone && inside && !constant && x ∉ f.params

/-- Nothing is stored under a position without a node, which the search by position would
pass over. -/
def loopValues (l : LoopId) : Guarded (List (InstrId × Descriptor)) := do
  forM (a.classesOf l) fun row => discard (node f row.1)
  f.instrIds.filterMapM fun x => do
    match a.stored? l x with
    | some d => return if ← isLoopValue a f l x d then some (x, d) else none
    | none => return none

variable {a f} {context x : InstrId} {l : LoopId} (ha : a.Within f)

include ha

theorem contextLoop?_eq (hc : context.index < f.nodes.size) :
    contextLoop? a f context = given (a.contextLoop? f context) := by
  simp only [contextLoop?, home_eq hc, liftM_pure_attempt, pure_bind, Analysis.contextLoop?]
  cases hm : a.forest.innermost? (f.home context) with
  | none => rfl
  | some l => simp [loop_eq (ha.finished.mapped _ l hm)]

theorem mem_ids_of_contextLoop? {inBody : Bool} (h : a.contextLoop? f context = some (l, inBody)) :
    l ∈ a.forest.ids := LoopForest.mem_ids.mpr (Analysis.contextLoop?_eq_some ha.finished h).1

theorem lookupStored_eq (hx : x.index < f.nodes.size) :
    lookupStored a f l x = given (a.lookup f l x) := by
  unfold lookupStored Analysis.lookup
  cases a.stored? l x with
  | some d => rfl
  | none =>
    simp only [definedOutside, constant?_eq hx, home_eq hx, contains_eq ha.finished.toClimbable,
      fetch_eq hx, pure_bind, liftM_pure_attempt, Bool.or_eq_true, decide_eq_true_eq]
    split_ifs <;> rfl

theorem storedTrip_eq (hl : l ∈ a.forest.ids) :
    storedTrip a f l = given (a.tripCount? f l) := by
  simp only [storedTrip, loop_eq hl, liftM_pure_attempt, pure_bind, terminator?_eq (ha.header l hl)]
  exact given_bind_of fun control _ => rfl

theorem query?_eq (hc : context.index < f.nodes.size) (hx : x.index < f.nodes.size) :
    query? a f context x = given (a.query? f context x) := by
  simp only [query?, contextLoop?_eq ha hc]
  refine given_bind_of fun t ht => ?_
  have hl := mem_ids_of_contextLoop? ha ht
  simp only [lookupStored_eq ha hx, storedTrip_eq ha hl, tried_given, pure_bind,
    check_eq (ha.linearFree t.1), liftM_pure_attempt]
  exact given_bind_of fun d _ => rfl

theorem range?_eq (hc : context.index < f.nodes.size) (hx : x.index < f.nodes.size) :
    range? a f context x = given (a.range? f context x) := by
  simp only [range?, query?_eq ha hc hx, Analysis.range?]
  cases a.query? f context x <;> rfl

theorem tests?_eq (hc : context.index < f.nodes.size) (hx : x.index < f.nodes.size) :
    tests? a f context x = given (a.tests? f context x) := by
  simp only [tests?, query?_eq ha hc hx]
  exact given_bind_of fun q _ => rfl

theorem takenTest?_eq (hc : context.index < f.nodes.size) :
    takenTest? a f context = given (a.takenTest? f context) := by
  simp only [takenTest?, contextLoop?_eq ha hc]
  refine given_bind_of fun t ht => ?_
  simp only [storedTrip_eq ha (mem_ids_of_contextLoop? ha ht)]
  exact given_bind_of fun d _ => given_bind_of fun test _ => rfl

theorem bodyContext?_eq (hl : l ∈ a.forest.ids) :
    bodyContext? a f l = given (a.bodyContext? f l) := by
  simp only [bodyContext?, loop_eq hl, liftM_pure_attempt, pure_bind]
  rw [findSomeM?_eq fun b hb => terminator?_eq (ha.latch l hl b (List.mem_of_mem_filter hb))]
  rfl

theorem isLoopValue_eq (hx : x.index < f.nodes.size) (d : Descriptor) :
    isLoopValue a f l x d = pure (a.isLoopValue f l x d) := by
  simp [isLoopValue, home_eq hx, contains_eq ha.finished.toClimbable, constant?_eq hx,
    Analysis.isLoopValue]

theorem loopValues_eq : loopValues a f l = pure (a.loopValues f l) := by
  have hkeys : forM (a.classesOf l) (fun row => discard (node f row.1)) =
      (pure () : Guarded Unit) := by
    refine forM_eq fun row hrow => ?_
    have hsome : (a.stored? l row.1).isSome = true :=
      List.lookup_isSome_iff.mpr ⟨row, hrow, beq_self_eq_true row.1⟩
    obtain ⟨d, hd⟩ := Option.isSome_iff_exists.mp hsome
    rw [node_eq (ha.stored l row.1 d hd)]
    rfl
  have hrows : f.instrIds.filterMapM (fun x => do
      match a.stored? l x with
      | some d => return if ← isLoopValue a f l x d then some (x, d) else none
      | none => return none) = (pure (a.loopValues f l) : Guarded _) := by
    refine filterMapM_eq fun x hx => ?_
    cases h : a.stored? l x with
    | none => rfl
    | some d => simp [isLoopValue_eq ha (ha.stored l x d h)]
  simp only [loopValues, hkeys, hrows, pure_bind]

end Queries

end Guarded

end LoopBounds
