import LoopBounds.Proofs.Guarded.Range

/-!
# Guarded code for bounds

Code is written only to a block that is there, and only phis and terminators may not be written
as ordinary instructions. What is written is named in a note, so it must be there afterwards.
Each loop finds the function as the loops before have left it, which has all that the analysis
speaks of.
-/

namespace LoopBounds.Guarded

open Descriptor (emitLinear tripSide?)
open Emit (outcome outcome_bind)

/-- A guarded piece of code under construction. -/
abbrev Write := OptionT (StateT Func Guarded)

def pushInstr (f : Func) (b : BlockId) (name : Option String) (i : Instr) :
    Guarded (InstrId × Func) := do
  check .assertion (i.isPhi = false ∧ i.isTerminator = false)
  let _ ← block f b
  return (f.nextId, f.addInstr b name i)

theorem pushInstr_eq {f : Func} {b : BlockId} {name : Option String} {i : Instr}
    (hb : b.index < f.blocks.size) (hi : i.isPhi = false ∧ i.isTerminator = false) :
    pushInstr f b name i = pure (f.nextId, f.addInstr b name i) := by
  simp only [pushInstr, check_eq hi, block_eq hb, pure_bind]

namespace Write

def constant (v : Int32) : Write InstrId := OptionT.lift (modifyGet (Func.addConstant · v))

def append (b : BlockId) (i : Instr) : Write InstrId :=
  OptionT.lift fun f => pushInstr f b none i

def arith (b : BlockId) (op : ArithOp) (x y : InstrId) : Write InstrId :=
  append b (.arith op x y)

end Write

section Code

variable (inBody : Bool) (target : BlockId)

/-- The code for one end of the bounds of a trip count, given that for the count. -/
def writeIterations (kind : TripKind) (count : Write InstrId) : Side → Write InstrId
  | .lower => Write.constant 0
  | .upper =>
      if inBody then do
        let n ← count
        let one ← Write.constant 1
        Write.arith target .sub n one
      else if kind.needsTaken then failure
      else count

def writeWith (writeLinear : Descriptor → Side → Write InstrId → Write InstrId) :
    Descriptor → Side → Write InstrId
  | .constant v, _ => Write.constant v
  | .fetch x, _ => pure x
  | .unary op b, s =>
      match op with
      | .neg => do
          let y ← writeWith writeLinear b s.flip
          Write.append target (.neg y)
      | _ => failure
  | .binary op a b, s =>
      match op with
      | .add => do
          let x ← writeWith writeLinear a s
          let y ← writeWith writeLinear b s
          Write.arith target .add x y
      | .sub => do
          let x ← writeWith writeLinear a s
          let y ← writeWith writeLinear b s.flip
          Write.arith target .sub x y
      | .neg => do
          let y ← writeWith writeLinear b s.flip
          Write.append target (.neg y)
      | .mul | .div => failure
      | op => do
          let x ← writeWith writeLinear a s
          let y ← writeWith writeLinear b s
          match op.comparison? with
          | some cmp => Write.append target (.compare cmp x y)
          | none => failure
  | .linear stride start, s => writeLinear stride s (writeWith writeLinear start s)
  | .periodic .., _ | .wrapAround .., _ => failure
  | .tripCount kind count, s | .guardedCount kind count _, s =>
      writeIterations inBody target kind (writeWith writeLinear count .upper) s

def writeLinear (writeTrip : Side → Write InstrId) (stride : Descriptor) (s : Side)
    (writeStart : Write InstrId) : Write InstrId :=
  match tripSide? stride s with
  | some ts => do
      let i ← writeTrip ts
      let x ← writeStart
      if ts = s then Write.arith target .add i x else Write.arith target .sub x i
  | none => failure

def writeCount (t : Descriptor) : ℕ → Side → Write InstrId
  | 0, _ => failure
  | n + 1, s => writeWith inBody target (writeLinear target (writeCount t n)) t s

def writeTrip (trip : Option Descriptor) (s : Side) : Write InstrId :=
  match trip with
  | some t => writeCount inBody target t 2 s
  | none => failure

def write (trip : Option Descriptor) (d : Descriptor) (s : Side) : Write InstrId :=
  writeWith inBody target (writeLinear target (writeTrip inBody target trip)) d s

def writeBounds (q : Query) : Write BoundCode := do
  let lower ←
    if q.descriptor.isInvariant then pure none
    else some <$> write q.inBody target q.trip q.descriptor .lower
  return ⟨lower, ← write q.inBody target q.trip q.descriptor .upper⟩

/-- On every function with block `target` the guarded code does what `e` does. -/
def Mirrors {α : Type} (target : BlockId) (guarded : Write α) (e : Emit α) : Prop :=
  ∀ f : Func, target.index < f.blocks.size →
    guarded.run.run f = pure (outcome e f) ∧ target.index < (outcome e f).2.blocks.size

section Mirrors

variable {inBody target} {α β : Type} {guarded : Write α} {e : Emit α} {g : Write InstrId}
variable {code : Emit InstrId}

theorem mirrors_pure (x : α) : Mirrors target (pure x) (pure x) := fun _ ht => ⟨rfl, ht⟩

theorem mirrors_failure : Mirrors (α := α) target failure failure := fun _ ht => ⟨rfl, ht⟩

theorem mirrors_constant (v : Int32) : Mirrors target (Write.constant v) (Emit.constant v) :=
  fun f ht => ⟨rfl, (Func.extends_addConstant f v).blocks ▸ ht⟩

theorem mirrors_append {i : Instr} (hi : i.IsCode) :
    Mirrors target (Write.append target i) (Emit.append target i) := fun f ht => by
  refine ⟨?_, (Func.extends_addInstr f target none hi).blocks ▸ ht⟩
  change pushInstr f target none i >>= _ = _
  rw [pushInstr_eq ht ⟨hi.kind.1, hi.kind.2.1⟩]
  rfl

theorem mirrors_arith {op : ArithOp} (hop : op = .add ∨ op = .sub) (x y : InstrId) :
    Mirrors target (Write.arith target op x y) (Emit.arith target op x y) :=
  mirrors_append (i := .arith op x y) hop

theorem Mirrors.bind {next : α → Write β} {next' : α → Emit β} (he : Mirrors target guarded e)
    (hnext : ∀ x, Mirrors target (next x) (next' x)) :
    Mirrors target (guarded >>= next) (e >>= next') := by
  intro f ht
  obtain ⟨hrun, hlt⟩ := he f ht
  have hbind : (guarded >>= next).run.run f = guarded.run.run f >>= fun t =>
      t.1.elim (pure (none, t.2)) fun x => (next x).run.run t.2 := by
    simp only [OptionT.run_bind, Option.elimM, StateT.run_bind]
    refine bind_congr fun t => ?_
    cases t.1 <;> rfl
  rw [hbind, hrun, pure_bind, outcome_bind]
  cases h : outcome e f with
  | mk o f' =>
    rw [h] at hlt
    cases o with
    | none => exact ⟨rfl, hlt⟩
    | some x => exact hnext x f' hlt

theorem mirrors_writeIterations {kind : TripKind} (hcount : Mirrors target g code) (s : Side) :
    Mirrors target (writeIterations inBody target kind g s) (match s with
      | .lower => Emit.constant 0
      | .upper =>
          if inBody then do
            let n ← code
            let one ← Emit.constant 1
            Emit.arith target .sub n one
          else if kind.needsTaken then failure
          else code) := by
  cases s with
  | lower => exact mirrors_constant 0
  | upper =>
    unfold writeIterations
    split_ifs
    · exact hcount.bind fun n => (mirrors_constant 1).bind fun one => mirrors_arith (.inr rfl) n one
    · exact mirrors_failure
    · exact hcount

theorem mirrors_writeWith {linear : Descriptor → Side → Write InstrId → Write InstrId}
    {linearCode : Descriptor → Side → Emit InstrId → Emit InstrId}
    (hlinear : ∀ stride s g code, Mirrors target g code →
      Mirrors target (linear stride s g) (linearCode stride s code)) (d : Descriptor) (s : Side) :
    Mirrors target (writeWith inBody target linear d s)
      (d.emitWith inBody target linearCode s) := by
  induction d generalizing s with
  | constant v => exact mirrors_constant v
  | fetch x => exact mirrors_pure x
  | unary op b ih =>
    cases op with
    | neg => exact (ih s.flip).bind fun y => mirrors_append (i := .neg y) trivial
    | _ => exact mirrors_failure
  | binary op a b iha ihb =>
    have hcompare (cmp : Comparison) : Mirrors target (do
          let x ← writeWith inBody target linear a s
          let y ← writeWith inBody target linear b s
          Write.append target (.compare cmp x y)) (do
          let x ← a.emitWith inBody target linearCode s
          let y ← b.emitWith inBody target linearCode s
          Emit.append target (.compare cmp x y)) :=
      (iha s).bind fun x => (ihb s).bind fun y => mirrors_append (i := .compare cmp x y) trivial
    cases op with
    | add => exact (iha s).bind fun x => (ihb s).bind fun y => mirrors_arith (.inl rfl) x y
    | sub => exact (iha s).bind fun x => (ihb s.flip).bind fun y => mirrors_arith (.inr rfl) x y
    | neg => exact (ihb s.flip).bind fun y => mirrors_append (i := .neg y) trivial
    | mul | div => exact mirrors_failure
    | lt => exact hcompare .lt
    | le => exact hcompare .le
    | gt => exact hcompare .gt
    | ge => exact hcompare .ge
  | linear stride start _ ih => exact hlinear stride s _ _ (ih s)
  | periodic | wrapAround => exact mirrors_failure
  | tripCount kind count ih => exact mirrors_writeIterations (ih .upper) s
  | guardedCount kind count taken ih => exact mirrors_writeIterations (ih .upper) s

theorem mirrors_writeLinear {tripGuarded : Side → Write InstrId} {tripCode : Side → Emit InstrId}
    (htrip : ∀ s, Mirrors target (tripGuarded s) (tripCode s)) (stride : Descriptor) (s : Side)
    (hstart : Mirrors target g code) : Mirrors target (writeLinear target tripGuarded stride s g)
      (emitLinear target tripCode stride s code) := by
  unfold writeLinear emitLinear
  cases tripSide? stride s with
  | none => exact mirrors_failure
  | some ts =>
    refine (htrip ts).bind fun i => hstart.bind fun x => ?_
    split_ifs
    · exact mirrors_arith (.inl rfl) i x
    · exact mirrors_arith (.inr rfl) x i

theorem mirrors_writeCount (t : Descriptor) (n : ℕ) (s : Side) :
    Mirrors target (writeCount inBody target t n s) (t.emitCount inBody target n s) := by
  induction n generalizing s with
  | zero => exact mirrors_failure
  | succ n ih => exact mirrors_writeWith (fun stride s _ _ => mirrors_writeLinear ih stride s) t s

theorem mirrors_write (trip : Option Descriptor) (d : Descriptor) (s : Side) :
    Mirrors target (write inBody target trip d s) (d.emit trip inBody target s) := by
  refine mirrors_writeWith (fun stride s _ _ => mirrors_writeLinear (fun ts => ?_) stride s) d s
  cases trip with
  | none => exact mirrors_failure
  | some t => exact mirrors_writeCount t 2 ts

theorem mirrors_writeBounds (q : Query) :
    Mirrors target (writeBounds target q) (q.emitBounds target) := by
  have hrest (lower : Option InstrId) : Mirrors target
      (do return (⟨lower, ← write q.inBody target q.trip q.descriptor .upper⟩ : BoundCode))
      (do return (⟨lower, ← q.descriptor.emit q.trip q.inBody target .upper⟩ : BoundCode)) :=
    (mirrors_write _ _ _).bind fun upper => mirrors_pure _
  unfold writeBounds Query.emitBounds
  split_ifs
  · exact hrest none
  · simp only [map_eq_pure_bind, bind_assoc]
    exact (mirrors_write _ _ _).bind fun x => hrest (some x)

end Mirrors

end Code

section Hoisting

variable (a : Analysis)

def generateBounds (f : Func) (context x : InstrId) (target : BlockId) :
    Guarded (Option BoundCode × Func) := do
  match ← (query? a f context x).run with
  | some q => if q.tests?.isSome then (writeBounds target q).run.run f else return (none, f)
  | none => return (none, f)

def generateTaken (f : Func) (context : InstrId) (target : BlockId) :
    Guarded (Option InstrId × Func) := do
  match ← (takenTest? a f context).run with
  | some (taken, inBody) =>
      if taken.canEmit none inBody .upper then (write inBody target none taken .upper).run.run f
      else return (none, f)
  | none => return (none, f)

/-- The lower bound in a note. -/
def lowerNote (f : Func) : Option InstrId → Guarded String
  | some y => do return "%" ++ (← nameOf f y)
  | none => return "-"

/-- The note on the bounds of `x` that have been written. -/
def boundsNote (f : Func) (x : InstrId) (target : BlockId) (code : BoundCode) :
    Guarded String := do
  return "%" ++ (← nameOf f x) ++ " hoisted to " ++ (← block f target).label ++ ": ["
    ++ (← lowerNote f code.lower) ++ ", %" ++ (← nameOf f code.upper) ++ "]"

/-- The note on the taken test `x` that has been written. -/
def takenNote (f : Func) (l : LoopId) (x : InstrId) : Guarded String := do
  return l.text ++ " taken test %" ++ (← nameOf f x)

def hoistValue (context : InstrId) (target : BlockId) (h : Analysis.Hoisted) (x : InstrId) :
    Guarded Analysis.Hoisted := do
  match ← (tests? a h.func context x).run with
  | none => return h
  | some tests =>
      if tests.needsFinite then return h
      else
        match ← generateBounds a h.func context x target with
        | (some code, f) => do
            discard (boundsNote f x target code)
            return ⟨f, true, h.needsTaken || tests.needsTaken⟩
        | (none, f) => return { h with func := f }

def hoistTaken (f : Func) (l : LoopId) (context : InstrId) (target : BlockId) : Guarded Func := do
  match ← generateTaken a f context target with
  | (some x, f) => do
      discard (takenNote f l x)
      return f
  | (none, f) => return f

def hoistLoop (f : Func) (l : LoopId) : Guarded (Func × Bool) := do
  match (← loop a.forest l).preheader, ← (bodyContext? a f l).run with
  | some target, some context => do
      let values ← loopValues a f l
      let h ← (values.map Prod.fst).foldlM (hoistValue a context target) ⟨f, false, false⟩
      let f ← if h.needsTaken then hoistTaken a h.func l context target else pure h.func
      return (f, h.changed)
  | _, _ => return (f, false)

def hoistBounds (f : Func) : Guarded (Func × Bool) := do
  let a ← analysis f
  (← outerToInner a.forest).foldlM
    (fun s l => do
      let (f, here) ← hoistLoop a s.1 l
      return (f, s.2 || here))
    (f, false)

variable {a} {f g : Func} {context x : InstrId} {target : BlockId} {l : LoopId}

section Present

theorem rule_present (f : Func) (target : BlockId) :
    Emit.Rule target f.Extends fun g y => y.index < g.nodes.size where
  constant g v hg := by
    have hext := Func.extends_addConstant g v
    refine ⟨hg.trans hext, hext, fun x hx => ?_⟩
    obtain rfl := Option.some.inj hx
    exact Func.index_lt_addConstant g v
  append g i hg hi _ := by
    have hext := Func.extends_addInstr g target none hi
    refine ⟨hg.trans hext, hext, fun x hx => ?_⟩
    obtain rfl := Option.some.inj hx
    exact Func.nextId_lt_addInstr g target none i
  mono _ _ _ _ hext hy := hy.trans_le hext.size

theorem fetchesOnly_extends {d : Descriptor} (hd : d.FetchesOnly (·.index < f.nodes.size)) :
    d.FetchesOnly fun y => ∀ g, f.Extends g → y.index < g.nodes.size :=
  fun y hy _ hg => (hd y hy).trans_le hg.size

theorem present_generateBounds (ha : a.Within f) (hx : x.index < f.nodes.size) {code : BoundCode}
    (h : a.generateBounds f context x target = (some code, g)) :
    (∀ y ∈ code.lower, y.index < g.nodes.size) ∧ code.upper.index < g.nodes.size := by
  unfold Analysis.generateBounds at h
  split at h
  · rename_i q hq
    split_ifs at h
    · obtain ⟨m, inBody, d, -, hd, rfl⟩ := Analysis.query?_eq_some hq
      have hresult := (Descriptor.yields_emitBounds (q := ⟨d, a.tripCount? f m, inBody⟩)
        (rule_present f target) (fun t ht => fetchesOnly_extends (ha.fetched_of_tripCount? ht))
        (fetchesOnly_extends (ha.fetched_of_lookup hx hd)) (Func.extends_refl f)).result
      rw [outcome, h] at hresult
      exact hresult code rfl
    · cases h
  · cases h

theorem present_generateTaken (ha : a.Within f)
    (h : a.generateTaken f context target = (some x, g)) : x.index < g.nodes.size := by
  unfold Analysis.generateTaken at h
  split at h
  · rename_i test inBody htest
    split_ifs at h
    · obtain ⟨m, kind, count, -, htrip⟩ := Analysis.takenTest?_eq_some htest
      have hfetched := (Descriptor.fetchesOnly_guardedCount.mp (ha.fetched_of_tripCount? htrip)).2
      have hkeeps : Emit.Keeps f.Extends (fun g y => y.index < g.nodes.size)
          (test.emit none inBody target .upper) :=
        Descriptor.keeps_emit (rule_present f target) (fun _ ht => by cases ht)
          (fetchesOnly_extends hfetched) .upper
      have hresult := (hkeeps f (Func.extends_refl f)).result
      rw [outcome, h] at hresult
      exact hresult x rfl
    · cases h
  · cases h

theorem boundsNote_ok {code : BoundCode} (hx : x.index < f.nodes.size)
    (ht : target.index < f.blocks.size) (hlower : ∀ y ∈ code.lower, y.index < f.nodes.size)
    (hupper : code.upper.index < f.nodes.size) : ∃ s, boundsNote f x target code = pure s := by
  have hnote : ∃ s, lowerNote f code.lower = pure s := by
    cases h : code.lower with
    | none => exact ⟨_, rfl⟩
    | some y => exact ⟨_, by rw [lowerNote, nameOf_eq (hlower y h), pure_bind]⟩
  obtain ⟨s, hs⟩ := hnote
  simp only [boundsNote, nameOf_eq hx, block_eq ht, hs, nameOf_eq hupper, pure_bind]
  exact ⟨_, rfl⟩

end Present

variable (ha : a.Within f) (hc : context.index < f.nodes.size)
variable (ht : target.index < f.blocks.size)

include ha hc ht

theorem generateBounds_eq (hx : x.index < f.nodes.size) :
    generateBounds a f context x target = pure (a.generateBounds f context x target) := by
  simp only [generateBounds, query?_eq ha hc hx, run_given, pure_bind, Analysis.generateBounds]
  cases a.query? f context x with
  | none => rfl
  | some q =>
    dsimp only
    split_ifs
    · exact (mirrors_writeBounds q f ht).1
    · rfl

theorem hoistTaken_eq : hoistTaken a f l context target =
    pure (a.generateTaken f context target).2 := by
  have hgenerate : generateTaken a f context target = pure (a.generateTaken f context target) := by
    simp only [generateTaken, takenTest?_eq ha hc, run_given, pure_bind, Analysis.generateTaken]
    cases a.takenTest? f context with
    | none => rfl
    | some t =>
      dsimp only
      split_ifs
      · exact (mirrors_write none t.1 .upper f ht).1
      · rfl
  simp only [hoistTaken, hgenerate, pure_bind]
  cases h : a.generateTaken f context target with
  | mk o g =>
    cases o with
    | none => rfl
    | some x =>
      simp only [takenNote, nameOf_eq (present_generateTaken ha h), pure_bind]
      rfl

omit ha hc ht in
theorem hoistValue_eq {h : Analysis.Hoisted} (ha : a.Within h.func)
    (hc : context.index < h.func.nodes.size) (ht : target.index < h.func.blocks.size)
    (hx : x.index < h.func.nodes.size) :
    hoistValue a context target h x = pure (a.hoistValue context target h x) := by
  simp only [hoistValue, tests?_eq ha hc hx, run_given, pure_bind, generateBounds_eq ha hc ht hx,
    Analysis.hoistValue]
  cases a.tests? h.func context x with
  | none => rfl
  | some tests =>
    dsimp only
    split_ifs
    · rfl
    · have hext := a.extends_generateBounds h.func context x target
      cases hgen : a.generateBounds h.func context x target with
      | mk o g =>
        cases o with
        | none => rfl
        | some code =>
          rw [hgen] at hext
          obtain ⟨hlower, hupper⟩ := present_generateBounds ha hx hgen
          obtain ⟨s, hs⟩ := boundsNote_ok (hx.trans_le hext.size) (hext.blocks ▸ ht) hlower hupper
          simp only [hs]
          rfl

omit hc ht in
theorem hoistLoop_eq (hl : l ∈ a.forest.ids) : hoistLoop a f l = pure (a.hoistLoop f l) := by
  simp only [hoistLoop, loop_eq hl, bodyContext?_eq ha hl, run_given, pure_bind,
    loopValues_eq ha, Analysis.hoistLoop]
  cases hp : (a.forest.get l).preheader with
  | none => rfl
  | some target =>
    cases hb : a.bodyContext? f l with
    | none => rfl
    | some context =>
      obtain ⟨b, -, -, hterm⟩ := Analysis.bodyContext?_eq_some hb
      have hc := ha.index_lt_of_terminator? hterm
      have ht := ha.preheader l hl target hp
      have hvalue {h : Analysis.Hoisted} (hext : f.Extends h.func) {x : InstrId}
          (hx : x ∈ (a.loopValues f l).map Prod.fst) :
          hoistValue a context target h x = pure (a.hoistValue context target h x) ∧
            f.Extends (a.hoistValue context target h x).func := by
        obtain ⟨t, ht', rfl⟩ := List.mem_map.mp hx
        have hx := (Analysis.mem_loopValues.mp ht').1
        exact ⟨hoistValue_eq (ha.mono hext) (hc.trans_le hext.size) (hext.blocks ▸ ht)
          (hx.trans_le hext.size), hext.trans (a.extends_hoistValue context target h t.1)⟩
      have hfold := foldlM_eq (I := fun h : Analysis.Hoisted => f.Extends h.func)
        (fun h hext x hx => hvalue hext hx) (b := ⟨f, false, false⟩) (Func.extends_refl f)
      have hext : f.Extends (((a.loopValues f l).map Prod.fst).foldl (a.hoistValue context target)
          ⟨f, false, false⟩).func :=
        List.foldlRecOn (motive := fun h : Analysis.Hoisted => f.Extends h.func) _ _
          (Func.extends_refl f)
          fun h hext x hx => (hvalue hext hx).2
      simp only [hfold, pure_bind]
      have htaken := hoistTaken_eq (l := l) (ha.mono hext) (hc.trans_le hext.size)
        (hext.blocks ▸ ht)
      split_ifs
      · simp only [htaken, pure_bind]
      · rfl

omit a ha hc ht in
theorem hoistBounds_eq (hw : f.Writable) (hf : f.Linked) :
    hoistBounds f = pure f.hoistBounds := by
  have hstart := Analysis.within_ofFunc hw hf
  simp only [hoistBounds, analysis_eq hf hw.filled, outerToInner_eq hstart.finished, pure_bind]
  refine foldlM_eq (I := fun s => f.Extends s.1) (fun s hs l hl => ?_) (Func.extends_refl f)
  have hl : l ∈ (Analysis.ofFunc f).forest.ids := hstart.finished.mem_outerToInner.mp hl
  refine ⟨?_, hs.trans ((Analysis.ofFunc f).extends_hoistLoop s.1 l)⟩
  simp only [hoistLoop_eq (hstart.mono hs) hl, pure_bind]

end Hoisting

end LoopBounds.Guarded
