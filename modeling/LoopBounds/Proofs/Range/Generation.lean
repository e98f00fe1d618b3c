import LoopBounds.Proofs.Range.Decision

/-!
# Checking and writing code in one recursion

One recursion over a descriptor serves for the check and for the writing of code: it is given a
function to write to, or none. Wherever a linear sequence stands it goes on with the trip count,
in the trip count itself as well, so it may never come back. When it does, `canEmit` and `emit`
give what it comes back with; when it does not, the answer of `canEmit` is no.
-/

namespace LoopBounds

/-- From some depth of recursion on, the result is `r`. -/
def Settles {α : Type} (F : ℕ → Option α) (r : α) : Prop := ∃ N, ∀ n ≥ N, F n = some r

/-- A recursion that writes to a function or, without one, only checks. It may find that there is
no code, and it may be cut off before it has come to a result. -/
abbrev Generation := OptionT (StateT (Option Func) Option)

namespace Generation

variable {α β : Type}

/-- What the recursion comes to; there is nothing if it is cut off. -/
def result (c : Generation α) (g : Option Func) : Option (Option α × Option Func) := c.run.run g

def cutOff : Generation α := OptionT.mk fun _ => none

def constant (v : Int32) : Generation (Option InstrId) :=
  modifyGet fun g => (g.map fun f => (f.addConstant v).1, g.map fun f => (f.addConstant v).2)

def fetch (x : InstrId) : Generation (Option InstrId) :=
  modifyGet fun g => (g.map fun _ => x, g)

/-- Appends an instruction, if there is a function to append it to and all operands are there. -/
def append (b : BlockId) (i : Option Instr) : Generation (Option InstrId) :=
  modifyGet fun g =>
    match g, i with
    | some f, some i => (some f.nextId, some (f.addInstr b none i))
    | _, _ => (none, g)

def append₁ (b : BlockId) (i : InstrId → Instr) (x : Option InstrId) :
    Generation (Option InstrId) := append b (x.map i)

def append₂ (b : BlockId) (i : InstrId → InstrId → Instr) (x y : Option InstrId) :
    Generation (Option InstrId) := append b (x.bind fun x => y.map (i x))

@[simp] theorem result_cutOff (g : Option Func) : result (cutOff : Generation α) g = none := rfl

@[simp] theorem result_failure (g : Option Func) :
    result (failure : Generation α) g = some (none, g) := rfl

theorem result_bind (c : Generation α) (k : α → Generation β) (g : Option Func) :
    result (c >>= k) g = (result c g).bind fun r =>
      match r with
      | (some x, g') => result (k x) g'
      | (none, g') => some (none, g') := by
  simp only [result, OptionT.run_bind, Option.elimM, StateT.run_bind]
  refine Option.bind_congr fun r _ => ?_
  rcases r with ⟨_ | x, g'⟩ <;> rfl

/-- Whatever is written to, `c` comes to a result. -/
def Returns (c : Generation α) : Prop := ∀ g, (result c g).isSome

/-- Where `c` comes to a result, `c'` comes to the same. -/
def Refines (c c' : Generation α) : Prop := ∀ g r, result c g = some r → result c' g = some r

theorem Refines.refl (c : Generation α) : Refines c c := fun _ _ => id

theorem Refines.bind {c c' : Generation α} {k k' : α → Generation β} (hc : Refines c c')
    (hk : ∀ x, Refines (k x) (k' x)) : Refines (c >>= k) (c' >>= k') := by
  intro g r h
  rw [result_bind] at h ⊢
  obtain ⟨⟨o, g'⟩, hr, h⟩ := Option.bind_eq_some_iff.mp h
  rw [hc g _ hr, Option.bind_some]
  cases o with
  | none => exact h
  | some x => exact hk x g' r h

theorem Returns.bind {c : Generation α} {k : α → Generation β} (hc : Returns c)
    (hk : ∀ x, Returns (k x)) : Returns (c >>= k) := by
  intro g
  obtain ⟨⟨o, g'⟩, hr⟩ := Option.isSome_iff_exists.mp (hc g)
  rw [result_bind, hr, Option.bind_some]
  cases o with
  | none => rfl
  | some x => exact hk x g'

theorem returns_append (b : BlockId) (i : Option Instr) : Returns (append b i) := fun _ => rfl

/-- The check answers `ok` and the writing does what `e` does; or the answer is no and neither
comes to a result. -/
structure Realizes (c : Generation (Option InstrId)) (ok : Bool) (e : Emit InstrId) : Prop where
  decides : Emit.Decides ok e
  result :
    (result c none = some (if ok then some none else none, none) ∧ ∀ f, result c (some f) =
      some ((Emit.outcome e f).1.map some, some (Emit.outcome e f).2)) ∨
    ok = false ∧ ∀ g, result c g = none

section Realizes

open Emit

variable {c c₁ c₂ : Generation (Option InstrId)} {ok ok₁ ok₂ : Bool} {e e₁ e₂ : Emit InstrId}
variable {b : BlockId} {i : InstrId → Instr} {j : InstrId → InstrId → Instr}

theorem realizes_constant (v : Int32) : Realizes (constant v) true (Emit.constant v) :=
  ⟨decides_constant v, .inl ⟨rfl, fun _ => rfl⟩⟩

theorem realizes_fetch (x : InstrId) : Realizes (fetch x) true (pure x) :=
  ⟨decides_pure x, .inl ⟨rfl, fun _ => rfl⟩⟩

theorem realizes_failure : Realizes failure false failure :=
  ⟨decides_failure, .inl ⟨rfl, fun _ => rfl⟩⟩

theorem realizes_cutOff : Realizes cutOff false failure :=
  ⟨decides_failure, .inr ⟨rfl, fun _ => rfl⟩⟩

theorem Realizes.bind {k : Option InstrId → Generation (Option InstrId)}
    {k' : InstrId → Emit InstrId} (hc : Realizes c ok₁ e) (hdecides : ∀ x, Decides ok₂ (k' x))
    (hk : (Generation.result (k none) none = some (if ok₂ then some none else none, none) ∧
        ∀ x f, Generation.result (k (some x)) (some f) =
          some ((outcome (k' x) f).1.map some, some (outcome (k' x) f).2)) ∨
      ok₂ = false ∧ Generation.result (k none) none = none ∧
        ∀ x f, Generation.result (k (some x)) (some f) = none) :
    Realizes (c >>= k) (ok₁ && ok₂) (e >>= k') := by
  refine ⟨hc.decides.bind hdecides, ?_⟩
  rcases hc.result with ⟨hcheck, hwrite⟩ | ⟨rfl, hnever⟩
  · cases ok₁ with
    | false =>
      -- the second part is not reached
      refine .inl ⟨?_, fun f => ?_⟩
      · rw [result_bind, hcheck]
        rfl
      · have hnone : (outcome e f).1 = none := by simpa using hc.decides f
        rw [result_bind, hwrite, outcome_bind]
        cases h : outcome e f with
        | mk o g =>
          rw [h] at hnone
          obtain rfl : o = none := hnone
          rfl
    | true =>
      have hsome (f : Func) : ∃ x g, outcome e f = (some x, g) := by
        obtain ⟨x, hx⟩ := Option.isSome_iff_exists.mp (hc.decides f)
        exact ⟨x, _, Prod.ext hx rfl⟩
      rcases hk with ⟨hcheck', hwrite'⟩ | ⟨rfl, hcheck', hwrite'⟩
      · refine .inl ⟨?_, fun f => ?_⟩
        · rw [result_bind, hcheck, Bool.true_and]
          exact hcheck'
        · obtain ⟨x, g, h⟩ := hsome f
          rw [result_bind, hwrite, outcome_bind, h]
          exact hwrite' x g
      · refine .inr ⟨rfl, fun g => ?_⟩
        cases g with
        | none =>
          rw [result_bind, hcheck]
          exact hcheck'
        | some f =>
          obtain ⟨x, g, h⟩ := hsome f
          rw [result_bind, hwrite, h]
          exact hwrite' x g
  · exact .inr ⟨Bool.false_and _, fun g => by rw [result_bind, hnever]; rfl⟩

theorem Realizes.append₁ (hc : Realizes c ok e) :
    Realizes (do append₁ b i (← c)) ok (do Emit.append b (i (← e))) := by
  have h := hc.bind (k := Generation.append₁ b i) (fun x => decides_append b (i x))
    (.inl ⟨rfl, fun _ _ => rfl⟩)
  rwa [Bool.and_true] at h

theorem Realizes.append₂ (h₁ : Realizes c₁ ok₁ e₁) (h₂ : Realizes c₂ ok₂ e₂) :
    Realizes (do
      let x ← c₁
      let y ← c₂
      Generation.append₂ b j x y) (ok₁ && ok₂) (do
      let x ← e₁
      let y ← e₂
      Emit.append b (j x y)) := by
  have hdecides (x : InstrId) : Decides ok₂ (do Emit.append b (j x (← e₂))) :=
    h₂.decides.append₁
  refine h₁.bind hdecides ?_
  rcases h₂.result with ⟨hcheck, hwrite⟩ | ⟨rfl, hnever⟩
  · refine .inl ⟨?_, fun x f => ?_⟩
    · rw [result_bind, hcheck]
      cases ok₂ <;> rfl
    · rw [result_bind, hwrite, outcome_bind]
      rcases outcome e₂ f with ⟨_ | y, g⟩ <;> rfl
  · have hnone (x : Option InstrId) (g : Option Func) :
        Generation.result (c₂ >>= Generation.append₂ b j x) g = none := by
      rw [result_bind, hnever]
      rfl
    exact .inr ⟨rfl, hnone none none, fun x f => hnone (some x) (some f)⟩

end Realizes

end Generation

namespace Descriptor

open Generation

section Recursion

variable (inBody : Bool) (target : BlockId)

/-- The code for the highest iteration number, given that for the count. -/
def generateIterations (kind : TripKind) (count : Generation (Option InstrId)) :
    Side → Generation (Option InstrId)
  | .lower => Generation.constant 0
  | .upper =>
      if inBody then do
        let n ← count
        let one ← Generation.constant 1
        append₂ target (.arith .sub) n one
      else if kind.needsTaken then failure
      else count

/-- The code for one end of the bounds, given that for a linear sequence. -/
def generateWith (linearCode : Descriptor → Side → Generation (Option InstrId) →
    Generation (Option InstrId)) : Descriptor → Side → Generation (Option InstrId)
  | constant v, _ => Generation.constant v
  | fetch x, _ => Generation.fetch x
  | unary op b, s =>
      match op with
      | .neg => do append₁ target .neg (← generateWith linearCode b s.flip)
      | _ => failure
  | binary op a b, s =>
      match op with
      | .add => do
          let x ← generateWith linearCode a s
          let y ← generateWith linearCode b s
          append₂ target (.arith .add) x y
      | .sub => do
          let x ← generateWith linearCode a s
          let y ← generateWith linearCode b s.flip
          append₂ target (.arith .sub) x y
      | .neg => do append₁ target .neg (← generateWith linearCode b s.flip)
      | .mul | .div => failure
      | op => do
          let x ← generateWith linearCode a s
          let y ← generateWith linearCode b s
          match op.comparison? with
          | some cmp => append₂ target (.compare cmp) x y
          | none => failure
  | linear stride start, s => linearCode stride s (generateWith linearCode start s)
  | periodic .., _ | wrapAround .., _ => failure
  | tripCount kind count, s | guardedCount kind count _, s =>
      generateIterations inBody target kind (generateWith linearCode count .upper) s

/-- The code for one end of a linear sequence: first the trip count, then the start. -/
def generateLinear (tripCode : Side → Generation (Option InstrId)) (stride : Descriptor) (s : Side)
    (startCode : Generation (Option InstrId)) : Generation (Option InstrId) :=
  match tripSide? stride s with
  | some ts => do
      let i ← tripCode ts
      let x ← startCode
      if ts = s then append₂ target (.arith .add) i x
      else append₂ target (fun i x => .arith .sub x i) i x
  | none => failure

/-- The code for one end of the bounds of a trip count. Where linear sequences stand in it, the
recursion goes on with the trip count, and it is cut off when there are `n` of it inside each
other. -/
def generateCount (t : Descriptor) : ℕ → Side → Generation (Option InstrId)
  | 0, _ => cutOff
  | n + 1, s => generateWith inBody target (generateLinear target (generateCount t n)) t s

def generateTrip (trip : Option Descriptor) (n : ℕ) (s : Side) : Generation (Option InstrId) :=
  match trip with
  | some t => generateCount inBody target t n s
  | none => failure

/-- The code for one end of the bounds, with at most `n` trip counts inside each other. -/
def generateUpTo (trip : Option Descriptor) (n : ℕ) (d : Descriptor) (s : Side) :
    Generation (Option InstrId) :=
  generateWith inBody target (generateLinear target (generateTrip inBody target trip n)) d s

end Recursion

variable {inBody : Bool} {target : BlockId} {trip : Option Descriptor} {d t : Descriptor} {s : Side}
variable {n : ℕ}

section Realizes

open Emit

variable {ok : Bool} {c : Generation (Option InstrId)} {e : Emit InstrId}

theorem realizes_generateIterations {kind : TripKind} (hc : Realizes c ok e) (s : Side) :
    Realizes (generateIterations inBody target kind c s)
      (match s with
      | .lower => true
      | .upper => (inBody || !kind.needsTaken) && ok)
      (match s with
      | .lower => Emit.constant 0
      | .upper =>
          if inBody then do
            let n ← e
            let one ← Emit.constant 1
            Emit.arith target .sub n one
          else if kind.needsTaken then failure
          else e) := by
  cases s with
  | lower => exact realizes_constant 0
  | upper =>
    cases inBody with
    | true =>
      rw [Bool.true_or, Bool.true_and, ← Bool.and_true ok]
      exact hc.append₂ (realizes_constant 1) (j := .arith .sub)
    | false =>
      cases hkind : kind.needsTaken with
      | true => simpa [generateIterations, hkind] using realizes_failure
      | false => simpa [generateIterations, hkind] using hc

theorem realizes_generateLinear {tripCode : Side → Generation (Option InstrId)}
    {tripOk : Side → Bool} {tripEmit : Side → Emit InstrId}
    (htrip : ∀ s, Realizes (tripCode s) (tripOk s) (tripEmit s)) (stride : Descriptor) (s : Side)
    (hc : Realizes c ok e) : Realizes (generateLinear target tripCode stride s c)
      (canEmitLinear tripOk stride s ok) (emitLinear target tripEmit stride s e) := by
  unfold generateLinear canEmitLinear emitLinear
  cases tripSide? stride s with
  | none => exact realizes_failure
  | some ts =>
    dsimp only
    split_ifs
    · exact (htrip ts).append₂ hc
    · exact (htrip ts).append₂ hc (j := fun i x => .arith .sub x i)

theorem realizes_generateWith
    {linearGen : Descriptor → Side → Generation (Option InstrId) → Generation (Option InstrId)}
    {linearOk : Descriptor → Side → Bool → Bool}
    {linearCode : Descriptor → Side → Emit InstrId → Emit InstrId}
    (hlinear : ∀ stride s c ok e, Realizes c ok e →
      Realizes (linearGen stride s c) (linearOk stride s ok) (linearCode stride s e))
    (d : Descriptor) (s : Side) : Realizes (generateWith inBody target linearGen d s)
      (d.canEmitWith inBody linearOk s) (d.emitWith inBody target linearCode s) := by
  induction d generalizing s with
  | constant v => exact realizes_constant v
  | fetch x => exact realizes_fetch x
  | unary op b ih =>
    cases op with
    | neg => exact (ih s.flip).append₁
    | _ => exact realizes_failure
  | binary op a b iha ihb =>
    cases op with
    | add | lt | le | gt | ge => exact (iha s).append₂ (ihb s)
    | sub => exact (iha s).append₂ (ihb s.flip)
    | neg => exact (ihb s.flip).append₁
    | mul | div => exact realizes_failure
  | linear stride start _ ih => exact hlinear stride s _ _ _ (ih s)
  | periodic | wrapAround => exact realizes_failure
  | tripCount kind count ih => exact realizes_generateIterations (ih .upper) s
  | guardedCount kind count taken ih => exact realizes_generateIterations (ih .upper) s

theorem realizes_generateCount (t : Descriptor) (n : ℕ) (s : Side) :
    Realizes (generateCount inBody target t n s) (t.canEmitCount inBody n s)
      (t.emitCount inBody target n s) := by
  induction n generalizing s with
  | zero => exact realizes_cutOff
  | succ n ih =>
    exact realizes_generateWith (fun stride s _ _ _ => realizes_generateLinear ih stride s) t s

/-- With two trip counts inside each other, the recursion does what the check and the code do. -/
theorem realizes_generateUpTo (trip : Option Descriptor) (d : Descriptor) (s : Side) :
    Realizes (generateUpTo inBody target trip 2 d s) (d.canEmit trip inBody s)
      (d.emit trip inBody target s) := by
  refine realizes_generateWith
    (fun stride s _ _ _ => realizes_generateLinear (fun ts => ?_) stride s) d s
  cases trip with
  | none => exact realizes_failure
  | some t => exact realizes_generateCount t 2 ts

end Realizes

section Depth

variable {c c' : Generation (Option InstrId)}

theorem refines_generateIterations {kind : TripKind} (hc : Refines c c') (s : Side) :
    Refines (generateIterations inBody target kind c s)
      (generateIterations inBody target kind c' s) := by
  unfold generateIterations
  cases s with
  | lower => exact .refl _
  | upper =>
    dsimp only
    split_ifs
    · exact hc.bind fun _ => .refl _
    · exact .refl _
    · exact hc

theorem refines_generateLinear {tripCode tripCode' : Side → Generation (Option InstrId)}
    (htrip : ∀ s, Refines (tripCode s) (tripCode' s)) (stride : Descriptor) (s : Side)
    (hc : Refines c c') : Refines (generateLinear target tripCode stride s c)
      (generateLinear target tripCode' stride s c') := by
  unfold generateLinear
  cases tripSide? stride s with
  | none => exact .refl _
  | some ts => exact (htrip ts).bind fun _ => hc.bind fun _ => .refl _

theorem refines_generateWith
    {linear linear' : Descriptor → Side → Generation (Option InstrId) → Generation (Option InstrId)}
    (h : ∀ stride s c c', Refines c c' → Refines (linear stride s c) (linear' stride s c'))
    (d : Descriptor) (s : Side) : Refines (generateWith inBody target linear d s)
      (generateWith inBody target linear' d s) := by
  induction d generalizing s with
  | constant | fetch | periodic | wrapAround => exact .refl _
  | unary op b ih =>
    cases op with
    | neg => exact (ih s.flip).bind fun _ => .refl _
    | _ => exact .refl _
  | binary op a b iha ihb =>
    cases op with
    | add | lt | le | gt | ge => exact (iha s).bind fun _ => (ihb s).bind fun _ => .refl _
    | sub => exact (iha s).bind fun _ => (ihb s.flip).bind fun _ => .refl _
    | neg => exact (ihb s.flip).bind fun _ => .refl _
    | mul | div => exact .refl _
  | linear stride start _ ih => exact h stride s _ _ (ih s)
  | tripCount kind count ih => exact refines_generateIterations (ih .upper) s
  | guardedCount kind count taken ih => exact refines_generateIterations (ih .upper) s

theorem refines_generateCount (t : Descriptor) (n : ℕ) (s : Side) :
    Refines (generateCount inBody target t n s) (generateCount inBody target t (n + 1) s) := by
  induction n generalizing s with
  | zero => exact fun _ _ h => by cases h
  | succ n ih =>
    exact refines_generateWith (fun stride s _ _ => refines_generateLinear ih stride s) t s

/-- The check comes to a result. -/
def Ends (c : Generation (Option InstrId)) : Prop := (result c none).isSome

/-- Nothing is added by going deeper if no further recursion comes to a result. -/
theorem eq_of_ends {ok ok' : Bool} {e e' : Emit InstrId} (h : Refines c c')
    (hc : Realizes c ok e) (hc' : Realizes c' ok' e') (hends : Ends c' → Ends c) : c' = c := by
  have hresult (g : Option Func) : result c' g = result c g := by
    cases hr : result c g with
    | some r => exact h g r hr
    | none =>
      have hnot : ¬ Ends c := by
        rcases hc.result with ⟨hcheck, hwrite⟩ | ⟨-, hnever⟩
        · cases g with
          | none => exact absurd (hr.symm.trans hcheck) nofun
          | some f => exact absurd (hr.symm.trans (hwrite f)) nofun
        · simp [Ends, hnever]
      rcases hc'.result with ⟨hcheck, -⟩ | ⟨-, hnever⟩
      · exact absurd (hends (by simp [Ends, hcheck])) hnot
      · exact hnever g
  exact funext hresult

/-- A trip count has two ends, so two of it inside each other are enough: each further one makes
another end come to a result, or changes nothing. -/
theorem generateCount_eq (t : Descriptor) (hn : 2 ≤ n) :
    generateCount inBody target t n = generateCount inBody target t 2 := by
  have hnext (m : ℕ) (h : generateCount inBody target t (m + 1) = generateCount inBody target t m) :
      generateCount inBody target t (m + 2) = generateCount inBody target t (m + 1) :=
    funext fun s =>
      congrArg (fun code => generateWith inBody target (generateLinear target code) t s) h
  have hstep (m : ℕ) : generateCount inBody target t (m + 1) = generateCount inBody target t m ∨
      ∃ s, Ends (generateCount inBody target t (m + 1) s) ∧
        ¬ Ends (generateCount inBody target t m s) := by
    by_contra! hne
    refine hne.1 (funext fun s => ?_)
    exact eq_of_ends (refines_generateCount t m s) (realizes_generateCount t m s)
      (realizes_generateCount t (m + 1) s) (hne.2 s)
  have hmono (m : ℕ) (s : Side) (h : Ends (generateCount inBody target t m s)) :
      Ends (generateCount inBody target t (m + 1) s) := by
    obtain ⟨r, hr⟩ := Option.isSome_iff_exists.mp h
    exact Option.isSome_iff_exists.mpr ⟨r, refines_generateCount t m s none r hr⟩
  have hthree : generateCount inBody target t 3 = generateCount inBody target t 2 := by
    by_contra hne
    have h₂ := hstep 2
    have h₁ := hstep 1
    have h₀ := hstep 0
    obtain ⟨s₂, hs₂, hn₂⟩ := h₂.resolve_left hne
    obtain ⟨s₁, hs₁, hn₁⟩ := h₁.resolve_left fun h => hne (hnext 1 h)
    obtain ⟨s₀, hs₀, hn₀⟩ := h₀.resolve_left fun h => hne (hnext 1 (hnext 0 h))
    -- three different ends
    have h₁₀ : s₁ ≠ s₀ := fun h => hn₁ (h ▸ hs₀)
    have h₂₁ : s₂ ≠ s₁ := fun h => hn₂ (h ▸ hs₁)
    have h₂₀ : s₂ ≠ s₀ := fun h => hn₂ (h ▸ hmono 1 s₀ hs₀)
    cases s₀ <;> cases s₁ <;> cases s₂ <;> contradiction
  induction n, hn using Nat.le_induction with
  | base => rfl
  | succ n hn ih =>
    refine Eq.trans (funext fun s => ?_) hthree
    exact congrArg (fun code => generateWith inBody target (generateLinear target code) t s) ih

theorem generateUpTo_eq (trip : Option Descriptor) (hn : 2 ≤ n) (d : Descriptor) (s : Side) :
    generateUpTo inBody target trip n d s = generateUpTo inBody target trip 2 d s := by
  have htrip : generateTrip inBody target trip n = generateTrip inBody target trip 2 := by
    cases trip with
    | none => rfl
    | some t => exact generateCount_eq t hn
  rw [generateUpTo, htrip, generateUpTo]

end Depth

/-- The recursion comes back from the descriptor, with an answer and the function as it is then. -/
def GeneratesTo (trip : Option Descriptor) (inBody : Bool) (target : BlockId) (d : Descriptor)
    (s : Side) (g : Option Func) (r : Option (Option InstrId)) (g' : Option Func) : Prop :=
  Settles (fun n => result (generateUpTo inBody target trip n d s) g) (r, g')

theorem generatesTo_iff {g g' : Option Func} {r : Option (Option InstrId)} :
    GeneratesTo trip inBody target d s g r g' ↔
      result (generateUpTo inBody target trip 2 d s) g = some (r, g') := by
  constructor
  · rintro ⟨N, hN⟩
    rw [← generateUpTo_eq trip (Nat.le_max_right N 2)]
    exact hN _ (Nat.le_max_left N 2)
  · intro h
    exact ⟨2, fun n hn => (congrArg (result · g) (generateUpTo_eq trip hn d s)).trans h⟩

/-- The recursion comes back from the check with yes just when `canEmit` says so. -/
theorem exists_generatesTo_none_iff :
    (∃ r g, GeneratesTo trip inBody target d s none (some r) g) ↔
      d.canEmit trip inBody s = true := by
  simp only [generatesTo_iff]
  have hreal : Realizes (generateUpTo inBody target trip 2 d s) (d.canEmit trip inBody s)
      (d.emit trip inBody target s) := realizes_generateUpTo trip d s
  rcases hreal.result with ⟨hcheck, -⟩ | ⟨hno, hnever⟩
  · rw [hcheck]
    cases d.canEmit trip inBody s <;> simp
  · simp [hno, hnever]

/-- With a function, it comes back with yes just when `emit` has a result, which it gives. -/
theorem generatesTo_some_iff {f : Func} {r : Option InstrId} {g : Option Func} :
    GeneratesTo trip inBody target d s (some f) (some r) g ↔
      ∃ x f', r = some x ∧ g = some f' ∧
        Emit.outcome (d.emit trip inBody target s) f = (some x, f') := by
  have hreal : Realizes (generateUpTo inBody target trip 2 d s) (d.canEmit trip inBody s)
      (d.emit trip inBody target s) := realizes_generateUpTo trip d s
  rw [generatesTo_iff]
  rcases hreal.result with ⟨-, hwrite⟩ | ⟨hno, hnever⟩
  · rw [hwrite, Option.some_inj, Prod.mk.injEq]
    rcases Emit.outcome (d.emit trip inBody target s) f with ⟨_ | x, f'⟩
    · simp
    · simp [eq_comm]
  · have hnone := hreal.decides f
    rw [hno, Option.isSome_eq_false_iff, Option.isNone_iff_eq_none] at hnone
    rw [hnever]
    refine iff_of_false nofun ?_
    rintro ⟨x, f', -, -, h⟩
    rw [h] at hnone
    cases hnone

end Descriptor

open Descriptor

/-- The recursion comes back from the check with yes just when it comes back from writing with a
node, whatever the descriptors, the block and the function, and `canEmit` and `emit` tell when and
with which. So there is code for bounds just when the check says so, and without a result nothing
has been written. -/
theorem checks_decide_generation :
    (∀ (d : Descriptor) (trip : Option Descriptor) (inBody : Bool) (s : Side) (target : BlockId)
      (f : Func),
      ((∃ r g, GeneratesTo trip inBody .entry d s none (some r) g) ↔
        ∃ r g, GeneratesTo trip inBody target d s (some f) (some r) g) ∧
      ((∃ r g, GeneratesTo trip inBody .entry d s none (some r) g) ↔
        d.canEmit trip inBody s = true) ∧
      (d.canEmit trip inBody s = true ↔
        ∃ x g, Emit.outcome (d.emit trip inBody target s) f = (some x, g)) ∧
      ∀ r g, GeneratesTo trip inBody target d s (some f) (some r) g →
        ∃ x f', r = some x ∧ g = some f' ∧
          Emit.outcome (d.emit trip inBody target s) f = (some x, f') ∧
          (target.index < f.blocks.size → d.FetchesOnly (·.index < f.nodes.size) →
            (∀ t ∈ trip, t.FetchesOnly (·.index < f.nodes.size)) → x.index < f'.nodes.size)) ∧
    ∀ (a : Analysis) (f : Func) (context x : InstrId) (target : BlockId),
      ((∃ code, (a.generateBounds f context x target).1 = some code) ↔
        ∃ tests, a.tests? f context x = some tests) ∧
      ((a.generateBounds f context x target).1 = none →
        (a.generateBounds f context x target).2 = f) ∧
      ((a.generateTaken f context target).1 = none → (a.generateTaken f context target).2 = f) := by
  refine ⟨fun d trip inBody s target f => ?_, fun a f context x target => ⟨?_, ?_, ?_⟩⟩
  · have hcheck : (∃ r g, GeneratesTo trip inBody .entry d s none (some r) g) ↔
        d.canEmit trip inBody s = true := exists_generatesTo_none_iff
    have hdecides : d.canEmit trip inBody s = true ↔
        ∃ x g, Emit.outcome (d.emit trip inBody target s) f = (some x, g) :=
      (d.decides_emit trip s).iff f
    refine ⟨hcheck.trans (hdecides.trans ?_), hcheck, hdecides, fun r g h => ?_⟩
    · simp only [generatesTo_some_iff]
      exact ⟨fun ⟨x, g, h⟩ => ⟨some x, some g, x, g, rfl, rfl, h⟩,
        fun ⟨_, _, x, g, _, _, h⟩ => ⟨x, g, h⟩⟩
    · obtain ⟨x, f', hr, hg, h⟩ := generatesTo_some_iff.mp h
      exact ⟨x, f', hr, hg, h, fun htarget hd ht =>
        (d.appends_emit (P := fun _ => True) htarget trivial hd ht h).2⟩
  · rw [← Option.isSome_iff_exists, ← Option.isSome_iff_exists, a.generateBounds_isSome]
  · exact a.generateBounds_of_none f context x target
  · exact a.generateTaken_of_none f context target

-- a sequence that goes down may stand in a trip count, of which the other end is needed then
example : (linear (.constant 1) (.fetch ⟨0⟩)).canEmit
    (some (tripCount ⟨false, false⟩ (linear (.constant (-1)) (.fetch ⟨1⟩)))) false .upper = true :=
  rfl

/-- There is no code for four times the counter, whose stride is not one, and the function is
as it was. -/
theorem scaled_generateBounds :
    (Analysis.ofFunc scaled).tests? scaled ⟨10⟩ ⟨8⟩ = none ∧
      (Analysis.ofFunc scaled).generateBounds scaled ⟨10⟩ ⟨8⟩ ⟨0⟩ = (none, scaled) := by
  have htests : (Analysis.ofFunc scaled).tests? scaled ⟨10⟩ ⟨8⟩ = none := by decide +kernel
  obtain ⟨hiff, hunchanged, -⟩ :=
    checks_decide_generation.2 (Analysis.ofFunc scaled) scaled ⟨10⟩ ⟨8⟩ ⟨0⟩
  have hnone : ((Analysis.ofFunc scaled).generateBounds scaled ⟨10⟩ ⟨8⟩ ⟨0⟩).1 = none := by
    rw [Option.eq_none_iff_forall_ne_some]
    intro code hcode
    obtain ⟨tests, hsome⟩ := hiff.mp ⟨code, hcode⟩
    rw [htests] at hsome
    cases hsome
  exact ⟨htests, Prod.ext hnone (hunchanged hnone)⟩

end LoopBounds
