import LoopBounds.Proofs.Func.Valid
import LoopBounds.Proofs.Flow.NaturalLoop

/-!
# Running a function

A state of a run says where control is, the blocks it came through, what is still to be
executed of the current block, and the values computed last. One step executes one
instruction. Words wrap around; a division by zero stops the run. The phis of a block are
executed together when control enters it.
-/

namespace LoopBounds

/-- The result of an operation on words, unless it divides by zero. -/
def ArithOp.result? (op : ArithOp) (x y : Int32) : Option Int32 :=
  match op with
  | .add => some (x + y)
  | .sub => some (x - y)
  | .mul => some (x * y)
  | .div => if y = 0 then none else some (x / y)
  | .rem => if y = 0 then none else some (x % y)
  | .shl => some (x <<< y)

/-- The values computed last. -/
abbrev Env := InstrId → Int32

namespace Instr

/-- The value that an instruction computes. -/
def value? (env : Env) : Instr → Option Int32
  | .arith op x y => op.result? (env x) (env y)
  | .neg x => some (-env x)
  | .compare op x y => some (if op.holds (env x).toInt (env y).toInt then 1 else 0)
  | _ => none

/-- The block in which control goes on. -/
def next? (env : Env) : Instr → Option BlockId
  | .jump t => some t
  | .branch c t e => some (if env c ≠ 0 then t else e)
  | _ => none

/-- The value a phi takes when control comes from block `b`. -/
def incoming (env : Env) (b : BlockId) : Instr → Int32
  | .phi sources => ((sources.find? (·.2 = b)).map fun s => env s.1).getD 0
  | _ => 0

end Instr

structure State where
  here : BlockId
  /-- The blocks run through before, the latest first. -/
  past : List BlockId
  /-- What is still to be executed in the current block. -/
  rest : List InstrId
  env : Env

namespace State

/-- All blocks run through, the current one included. -/
def trail (s : State) : List BlockId := s.here :: s.past

end State

namespace Func

variable (f : Func)

/-- The values before the first step. -/
def initialEnv (args : Nat → Int32) (x : InstrId) : Int32 :=
  match f.instr x with
  | .constant v => v
  | .param i => args i
  | _ => 0

def initial (args : Nat → Int32) : State where
  here := .entry
  past := []
  rest := (f.block .entry).ordinary
  env := f.initialEnv args

/-- The state in which control comes to block `c`. -/
def enter (s : State) (c : BlockId) : State where
  here := c
  past := s.here :: s.past
  rest := (f.block c).ordinary
  env x := if x ∈ (f.block c).phis then (f.instr x).incoming s.env s.here else s.env x

/-- The next state, unless the run ends here. -/
def step? (s : State) : Option State :=
  match s.rest with
  | [] => none
  | x :: rest =>
      if (f.instr x).isTerminator then ((f.instr x).next? s.env).map (f.enter s)
      else ((f.instr x).value? s.env).map fun v =>
        { s with rest := rest, env := Function.update s.env x v }

/-- The instructions that get a value in the step from `s` to `s'`. -/
def executed (s s' : State) : List InstrId :=
  match s.rest with
  | [] => []
  | x :: _ => if (f.instr x).isTerminator then (f.block s'.here).phis else [x]

/-- The states of the runs of a function in which every state that is left is allowed. -/
inductive Run (args : Nat → Int32) (allowed : State → Prop) : State → Prop
  | start : Run args allowed (f.initial args)
  | step {s s'} : Run args allowed s → allowed s → f.step? s = some s' → Run args allowed s'

/-- The state after a number of steps, if every state that is left is allowed. -/
def after (args : Nat → Int32) (allowed : State → Prop) [DecidablePred allowed] : ℕ → Option State
  | 0 => some (f.initial args)
  | n + 1 => (after args allowed n).bind fun s => if allowed s then f.step? s else none

theorem run_of_after {f : Func} {args : Nat → Int32} {allowed : State → Prop}
    [DecidablePred allowed] {n : ℕ} {s : State} (h : f.after args allowed n = some s) :
    f.Run args allowed s := by
  induction n generalizing s with
  | zero => exact Option.some.inj h ▸ .start
  | succ n ih =>
    obtain ⟨s₀, hs₀, h⟩ := Option.bind_eq_some_iff.mp h
    split_ifs at h with hallowed
    exact .step (ih hs₀) hallowed h

theorem exists_step_of_after (f : Func) (args : Nat → Int32) (allowed : State → Prop)
    [DecidablePred allowed] (n : ℕ) (found : State → State → Bool)
    (h : ((f.after args allowed n).bind fun s =>
      (f.after args allowed (n + 1)).map (found s)) = some true) :
    ∃ s s', f.Run args allowed s ∧ f.step? s = some s' ∧ found s s' = true := by
  obtain ⟨s, hs, h⟩ := Option.bind_eq_some_iff.mp h
  obtain ⟨s', hs', h⟩ := Option.map_eq_some_iff.mp h
  rw [after, hs, Option.bind_some] at hs'
  split_ifs at hs' with hallowed
  exact ⟨s, s', run_of_after hs, hs', h⟩

theorem step_cases {f : Func} {s s' : State} (h : f.step? s = some s') :
    (∃ x rest v, s.rest = x :: rest ∧ (f.instr x).isTerminator = false ∧
      (f.instr x).value? s.env = some v ∧ f.executed s s' = [x] ∧
      s' = { s with rest := rest, env := Function.update s.env x v }) ∨
    (∃ x rest c, s.rest = x :: rest ∧ (f.instr x).isTerminator = true ∧
      (f.instr x).next? s.env = some c ∧ f.executed s s' = (f.block c).phis ∧
      s' = f.enter s c) := by
  unfold step? at h
  split at h
  · cases h
  · rename_i x rest hrest
    split at h
    · rename_i hx
      obtain ⟨c, hc, rfl⟩ := Option.map_eq_some_iff.mp h
      exact .inr ⟨x, rest, c, hrest, hx, hc, by simp [executed, hrest, hx, enter], rfl⟩
    · rename_i hx
      obtain ⟨v, hv, rfl⟩ := Option.map_eq_some_iff.mp h
      rw [Bool.not_eq_true] at hx
      exact .inl ⟨x, rest, v, hrest, hx, hv, by simp [executed, hrest, hx], rfl⟩

end Func

namespace Instr

theorem mem_targets_of_next? {i : Instr} {env : Env} {c : BlockId} (h : i.next? env = some c) :
    c ∈ i.targets := by
  cases i with
  | jump t => simpa [next?, targets, eq_comm] using h
  | branch x t e =>
    simp only [next?, Option.some.injEq] at h
    subst h
    simp only [targets]
    split <;> simp
  | _ => cases h

end Instr

namespace Func

variable {f : Func} (hf : f.Valid)

/-- What holds of every state of a run: the blocks form a trail, what is left is the end
of the current block, and constants have their values. -/
structure Placed (f : Func) (s : State) : Prop where
  trail : f.flow.Trail s.trail
  rest : ∃ done, (f.block s.here).ordinary = done ++ s.rest
  constant : ∀ x v, f.instr x = .constant v → s.env x = v

namespace Placed

variable {s s' : State} (hs : f.Placed s)

include hs

theorem reachable : f.flow.Reachable s.here := ⟨s.past, hs.trail⟩

theorem instrs_eq : ∃ done, (f.block s.here).instrs = done ++ s.rest := by
  obtain ⟨done, h⟩ := hs.rest
  refine ⟨(f.block s.here).phis ++ done, ?_⟩
  rw [Block.instrs, List.append_assoc, ← Block.ordinary, h, List.append_assoc]

include hf

theorem rest_of_isTerminator {x : InstrId} {rest : List InstrId} (hrest : s.rest = x :: rest)
    (hx : (f.instr x).isTerminator = true) :
    rest = [] ∧ (f.block s.here).terminator = some x := by
  obtain ⟨done, h⟩ := hs.rest
  have hmem : x ∉ (f.block s.here).body := fun hmem => by
    simp [(hf.body _ x hmem).2.1] at hx
  rw [hrest, Block.ordinary] at h
  rcases List.append_eq_append_iff.mp h with ⟨u, -, h⟩ | ⟨u, hbody, h⟩
  · cases ht : (f.block s.here).terminator with
    | none => simp [ht] at h
    | some y =>
      rw [ht] at h
      cases u with
      | nil =>
        obtain ⟨rfl, hnil⟩ := List.cons.inj h
        exact ⟨hnil.symm, rfl⟩
      | cons z u => simp at h
  · cases u with
    | nil =>
      rw [List.nil_append] at h
      cases ht : (f.block s.here).terminator with
      | none => simp [ht] at h
      | some y =>
        rw [ht] at h
        obtain ⟨rfl, hnil⟩ := List.cons.inj h
        exact ⟨hnil, rfl⟩
    | cons z u =>
      obtain ⟨rfl, -⟩ := List.cons.inj h
      exact absurd (hbody ▸ List.mem_append_right _ List.mem_cons_self) hmem

theorem mem_body_of_not_isTerminator {x : InstrId} {rest : List InstrId}
    (hrest : s.rest = x :: rest) (hx : (f.instr x).isTerminator = false) :
    x ∈ (f.block s.here).body := by
  obtain ⟨done, h⟩ := hs.rest
  have hmem : x ∈ (f.block s.here).ordinary := by
    rw [h, hrest]
    exact List.mem_append_right _ List.mem_cons_self
  rcases List.mem_append.mp hmem with hmem | hmem
  · exact hmem
  · have := hf.terminator s.here x (by simpa using hmem)
    rw [hx] at this
    cases this

theorem edge {x c : _} {rest : List InstrId} (hrest : s.rest = x :: rest)
    (hx : (f.instr x).isTerminator = true) (hc : (f.instr x).next? s.env = some c) :
    c ∈ f.flow.succs s.here :=
  hf.target s.here x c (hs.rest_of_isTerminator hf hrest hx).2 (Instr.mem_targets_of_next? hc)

theorem step (h : f.step? s = some s') : f.Placed s' := by
  rcases step_cases h with ⟨x, rest, v, hrest, hx, -, -, rfl⟩ | ⟨x, rest, c, hrest, hx, hc, -, rfl⟩
  · obtain ⟨done, hdone⟩ := hs.rest
    have hmem := hs.mem_body_of_not_isTerminator hf hrest hx
    refine ⟨hs.trail, ⟨done ++ [x], by simpa [hrest] using hdone⟩, ?_⟩
    intro y w hy
    have hne : y ≠ x := fun heq => by
      have := (hf.body _ x hmem).2.2
      rw [← heq, hy] at this
      cases this
    simpa [Function.update_of_ne hne] using hs.constant y w hy
  · refine ⟨hs.trail.step (hs.edge hf hrest hx hc), ⟨[], rfl⟩, ?_⟩
    intro y w hy
    have hne : y ∉ (f.block c).phis := fun hmem => by
      obtain ⟨sources, h⟩ := hf.phi c y hmem
      rw [hy] at h
      cases h
    simpa [enter, hne] using hs.constant y w hy

end Placed

end Func

end LoopBounds
