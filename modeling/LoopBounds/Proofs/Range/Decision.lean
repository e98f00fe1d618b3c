import LoopBounds.Proofs.Classify.Soundness
import LoopBounds.Proofs.Func.Appended
import LoopBounds.Proofs.Range.Emission

/-!
# Whether there is code is decided beforehand

The check and the writing of code follow the descriptor in the same way. The check answers
yes just when the code, run on any function, comes to a result. So code that passed its check
is written in full, and where the check answers no, nothing has been written yet.
-/

namespace LoopBounds

namespace Emit

variable {α β : Type} {p q : Bool}

/-- Run on any function, the code has a result just when `p` says so. -/
def Decides (p : Bool) (e : Emit α) : Prop := ∀ g, (outcome e g).1.isSome = p

theorem decides_pure (x : α) : Decides true (pure x) := fun _ => rfl

theorem decides_failure : Decides false (failure : Emit α) := fun _ => rfl

theorem decides_constant (v : Int32) : Decides true (Emit.constant v) := fun _ => rfl

theorem decides_append (b : BlockId) (i : Instr) : Decides true (Emit.append b i) := fun _ => rfl

theorem Decides.bind {e : Emit α} {k : α → Emit β} (he : Decides p e)
    (hk : ∀ x, Decides q (k x)) : Decides (p && q) (e >>= k) := by
  intro g
  have hp := he g
  rw [outcome_bind]
  cases h : outcome e g with
  | mk o g' =>
    rw [h] at hp
    cases o with
    | none => simp [← hp]
    | some x => simpa [← hp] using hk x g'

theorem Decides.append₁ {e : Emit InstrId} {b : BlockId} {k : InstrId → Instr}
    (he : Decides p e) : Decides p (do Emit.append b (k (← e))) := by
  simpa using he.bind fun x => decides_append b (k x)

theorem Decides.append₂ {e₁ e₂ : Emit InstrId} {b : BlockId} {k : InstrId → InstrId → Instr}
    (h₁ : Decides p e₁) (h₂ : Decides q e₂) :
    Decides (p && q) (do
      let x ← e₁
      let y ← e₂
      Emit.append b (k x y)) :=
  h₁.bind fun x => h₂.append₁ (k := k x)

theorem Decides.iff {e : Emit α} (h : Decides p e) (g : Func) :
    p = true ↔ ∃ x g', outcome e g = (some x, g') := by
  rw [← h g, Option.isSome_iff_exists]
  exact ⟨fun ⟨x, hx⟩ => ⟨x, _, Prod.ext hx rfl⟩, fun ⟨x, _, hx⟩ => ⟨x, congrArg Prod.fst hx⟩⟩

end Emit

namespace Descriptor

open Emit

variable {target : BlockId} {inBody ok : Bool} {trip : Option Descriptor}

theorem decides_emitIterations {count : Emit InstrId} {kind : TripKind} (hcount : Decides ok count)
    (s : Side) :
    Decides (match s with
      | .lower => true
      | .upper => (inBody || !kind.needsTaken) && ok)
    (match s with
      | .lower => Emit.constant 0
      | .upper =>
          if inBody then do
            let n ← count
            let one ← Emit.constant 1
            Emit.arith target .sub n one
          else if kind.needsTaken then failure
          else count) := by
  cases s with
  | lower => exact decides_constant 0
  | upper =>
    cases inBody with
    | true =>
      rw [Bool.true_or, Bool.true_and, ← Bool.and_true ok]
      exact hcount.append₂ (decides_constant 1) (k := .arith .sub)
    | false =>
      cases hkind : kind.needsTaken with
      | true => exact decides_failure
      | false => simpa using hcount

theorem decides_emitWith {linearOk : Descriptor → Side → Bool → Bool}
    {linearCode : Descriptor → Side → Emit InstrId → Emit InstrId}
    (hlinear : ∀ stride s ok e, Decides ok e →
      Decides (linearOk stride s ok) (linearCode stride s e)) (d : Descriptor) (s : Side) :
    Decides (d.canEmitWith inBody linearOk s) (d.emitWith inBody target linearCode s) := by
  induction d generalizing s with
  | constant v => exact decides_constant v
  | fetch x => exact decides_pure x
  | unary op b ih =>
    cases op with
    | neg => exact (ih s.flip).append₁
    | _ => exact decides_failure
  | binary op a b iha ihb =>
    cases op with
    | add | lt | le | gt | ge => exact (iha s).append₂ (ihb s)
    | sub => exact (iha s).append₂ (ihb s.flip)
    | neg => exact (ihb s.flip).append₁
    | mul | div => exact decides_failure
  | linear stride start _ ih => exact hlinear stride s _ _ (ih s)
  | periodic | wrapAround => exact decides_failure
  | tripCount kind count ih => exact decides_emitIterations (ih .upper) s
  | guardedCount kind count taken ih => exact decides_emitIterations (ih .upper) s

theorem decides_emitLinear {tripOk : Side → Bool} {tripCode : Side → Emit InstrId}
    (htrip : ∀ s, Decides (tripOk s) (tripCode s)) (stride : Descriptor) (s : Side)
    {e : Emit InstrId} (he : Decides ok e) :
    Decides (canEmitLinear tripOk stride s ok) (emitLinear target tripCode stride s e) := by
  unfold emitLinear canEmitLinear
  cases tripSide? stride s with
  | none => exact decides_failure
  | some side =>
    dsimp only
    split_ifs
    · exact (htrip side).append₂ he
    · exact (htrip side).append₂ he (k := fun i x => .arith .sub x i)

theorem decides_emitCount (t : Descriptor) (n : ℕ) (s : Side) :
    Decides (t.canEmitCount inBody n s) (t.emitCount inBody target n s) := by
  induction n generalizing s with
  | zero => exact decides_failure
  | succ n ih => exact decides_emitWith (fun stride s _ _ => decides_emitLinear ih stride s) t s

/-- The check and the code agree on every descriptor. -/
theorem decides_emit (trip : Option Descriptor) (d : Descriptor) (s : Side) :
    Decides (d.canEmit trip inBody s) (d.emit trip inBody target s) := by
  refine decides_emitWith (fun stride s _ _ => decides_emitLinear (fun ts => ?_) stride s) d s
  cases trip with
  | none => exact decides_failure
  | some t => exact decides_emitCount t 2 ts

end Descriptor

open Emit

theorem Query.tests?_eq_some_iff {q : Query} {tests : GuardTests} : q.tests? = some tests ↔
    ∃ trip, q.trip = some trip ∧ (q.needsTaken = true → canEmitTaken trip q.inBody = true) ∧
      q.canEmitBounds = true ∧ tests = ⟨q.needsFinite, q.needsTaken⟩ := by
  unfold tests?
  cases q.trip with
  | none => simp
  | some trip =>
    have hsome : (some ⟨q.needsFinite, q.needsTaken⟩ = some tests) ↔
        tests = ⟨q.needsFinite, q.needsTaken⟩ := Option.some_inj.trans eq_comm
    cases hcan : canEmitTaken trip q.inBody <;> cases hbounds : q.canEmitBounds <;>
      cases hneeds : q.needsTaken <;> simp_all

theorem Query.decides_emitBounds (q : Query) (target : BlockId) :
    Decides q.canEmitBounds (q.emitBounds target) := by
  have hemit (s : Side) : Decides (q.descriptor.canEmit q.trip q.inBody s)
      (q.descriptor.emit q.trip q.inBody target s) := Descriptor.decides_emit q.trip q.descriptor s
  have hrest (lower : Option InstrId) : Decides (q.descriptor.canEmit q.trip q.inBody .upper) (do
      return (⟨lower, ← q.descriptor.emit q.trip q.inBody target .upper⟩ : BoundCode)) := by
    simpa using (hemit .upper).bind fun y => decides_pure (⟨lower, y⟩ : BoundCode)
  unfold Query.emitBounds Query.canEmitBounds
  split_ifs with hi
  · rw [hi, Bool.true_or, Bool.true_and]
    exact hrest none
  · rw [Bool.eq_false_of_not_eq_true hi, Bool.false_or, map_eq_pure_bind, bind_assoc]
    exact (hemit .lower).bind fun x => hrest (some x)

namespace Analysis

variable (a : Analysis) (f : Func) (context x : InstrId) (target : BlockId)

/-- There is code for the bounds just when the check says so, and without a result the
function is as it was. -/
theorem generateBounds_isSome :
    (a.generateBounds f context x target).1.isSome = (a.tests? f context x).isSome := by
  unfold generateBounds tests?
  cases a.query? f context x with
  | none => rfl
  | some q =>
    dsimp only [Option.bind_some]
    split_ifs with htests
    · have hcan : q.canEmitBounds = true := by
        obtain ⟨tests, h⟩ := Option.isSome_iff_exists.mp htests
        obtain ⟨-, -, -, hcan, -⟩ := Query.tests?_eq_some_iff.mp h
        exact hcan
      rw [htests]
      exact (q.decides_emitBounds target f).trans hcan
    · rw [Bool.eq_false_of_not_eq_true htests]
      rfl

theorem generateBounds_of_none (h : (a.generateBounds f context x target).1 = none) :
    (a.generateBounds f context x target).2 = f := by
  have hnone := a.generateBounds_isSome f context x target
  rw [h, Option.isSome_none] at hnone
  unfold generateBounds
  unfold tests? at hnone
  cases hq : a.query? f context x with
  | none => rfl
  | some q =>
    rw [hq, Option.bind_some] at hnone
    simp [← hnone]

theorem generateTaken_of_none (h : (a.generateTaken f context target).1 = none) :
    (a.generateTaken f context target).2 = f := by
  unfold generateTaken at h ⊢
  split at h
  · rename_i test inBody _
    split_ifs at h ⊢ with hcan
    · have hsome : (outcome (test.emit none inBody target .upper) f).1.isSome =
          test.canEmit none inBody .upper := test.decides_emit none .upper f
      rw [hcan, outcome, h] at hsome
      cases hsome
    · rfl
  · rfl

end Analysis

theorem Emit.rule_appends {f : Func} {p : BlockId} {P : BlockId → Prop}
    (hp : p.index < f.blocks.size) (hP : P p) :
    Rule p (f.Appends P) fun g y => y.index < g.nodes.size where
  constant g v hg := by
    refine ⟨hg.addConstant v, Func.extends_addConstant g v, fun x hx => ?_⟩
    obtain rfl := Option.some.inj hx
    exact Func.index_lt_addConstant g v
  append g i hg hi hops := by
    refine ⟨hg.addInstr hp hP hi hops, Func.extends_addInstr g p none hi, fun x hx => ?_⟩
    obtain rfl := Option.some.inj hx
    exact Func.nextId_lt_addInstr g p none i
  mono _ _ _ _ hext hy := hy.trans_le hext.size

/-- Code for bounds appends to its block only, and its result is a node where all that is
fetched are nodes. -/
theorem Descriptor.appends_emit {d : Descriptor} {trip : Option Descriptor} {inBody : Bool}
    {s : Side} {target : BlockId} {P : BlockId → Prop} {f g : Func} {x : InstrId}
    (htarget : target.index < f.blocks.size) (hP : P target)
    (hd : d.FetchesOnly (·.index < f.nodes.size))
    (ht : ∀ t ∈ trip, t.FetchesOnly (·.index < f.nodes.size))
    (h : outcome (d.emit trip inBody target s) f = (some x, g)) :
    f.Appends P g ∧ x.index < g.nodes.size := by
  have hnode {e : Descriptor} (he : e.FetchesOnly (·.index < f.nodes.size)) :
      e.FetchesOnly fun y => ∀ g, f.Appends P g → y.index < g.nodes.size :=
    fun y hy g hg => (he y hy).trans_le hg.size
  have hyields : Yields (f.Appends P) (d.emit trip inBody target s) f
      fun g y => y.index < g.nodes.size :=
    keeps_emit (rule_appends htarget hP) (fun t heq => hnode (ht t heq)) (hnode hd) s f
      (Func.appends_refl f P)
  obtain ⟨hkeeps, -, hresult⟩ := hyields
  rw [h] at hkeeps hresult
  exact ⟨hkeeps, hresult x rfl⟩

end LoopBounds
