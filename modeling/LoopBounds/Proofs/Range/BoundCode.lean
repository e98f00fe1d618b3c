import LoopBounds.Proofs.Range.Hoisting
import LoopBounds.Proofs.Range.Overflow
import LoopBounds.Proofs.Run.Execution

/-!
# What code for bounds computes

The code for a term computes the word of the term, and the code for a linear sequence the word
that the sequence has in its first or last iteration. As nothing is multiplied or divided,
wrapping around at every instruction comes to the same as doing so at the end. So the code
computes the word of an integer, and this integer bounds the sequence in the integers, whatever
wraps around on the way.
-/

namespace LoopBounds

open Descriptor Emit

/-- The integer `b` bounds `v` on this side. -/
def Side.Bounds (s : Side) (b v : ℤ) : Prop :=
  match s with
  | .lower => b ≤ v
  | .upper => v ≤ b

namespace Emit

variable {α : Type} {target : BlockId} {g : Func} {i : Instr} {e e₁ e₂ : Emit InstrId}
variable {w w₁ w₂ : Env → Int32} {n : ℕ}

/-- Once the code that `e` writes has been executed, its result is `w` of the values then. -/
def Computes (w : Env → Int32) (e : Emit InstrId) : Prop :=
  ∀ g, Yields (fun _ => True) e g fun g' x => ∀ h env, g'.Extends h →
    h.Settled g.nodes.size g'.nodes.size env → env x = w env

theorem computes_failure : Computes w failure := fun _ => yields_failure trivial

theorem computes_pure (x : InstrId) : Computes (fun env => env x) (pure x) := fun _ =>
  yields_pure trivial fun _ _ _ _ => rfl

theorem computes_constant (v : Int32) : Computes (fun _ => v) (Emit.constant v) := by
  refine fun g => ⟨trivial, Func.extends_addConstant g v, fun x hx h env hext hs => ?_⟩
  obtain rfl := Option.some.inj hx
  have hinstr := hext.instr (Func.index_lt_addConstant g v)
  exact hs.constant _ v (hinstr.trans (Func.instr_addConstant g v))

theorem yields_append (hn : n ≤ g.nodes.size) (hi : i.IsCode)
    (hw : ∀ h env, (g.addInstr target none i).Extends h →
      h.Settled n (g.nodes.size + 1) env → i.value? env = some (w env)) :
    Yields (fun _ => True) (Emit.append target i) g fun g' x => ∀ h env, g'.Extends h →
      h.Settled n g'.nodes.size env → env x = w env := by
  refine ⟨trivial, Func.extends_addInstr g target none hi, fun x hx h env hext hs => ?_⟩
  obtain rfl := Option.some.inj hx
  rw [outcome_append, Func.nodes_size_addInstr] at hs
  have hlt := Func.nextId_lt_addInstr g target none i
  have hinstr : h.instr g.nextId = i := (hext.instr hlt).trans Func.instr_addNode_nextId
  have hvalue := hs.code g.nextId hn (Nat.lt_succ_self _) (hinstr ▸ hi)
  rw [hinstr, hw h env hext hs] at hvalue
  exact (Option.some.inj hvalue).symm

theorem Computes.append₁ {k : InstrId → Instr} {r : Int32 → Int32} (he : Computes w e)
    (hk : ∀ x, (k x).IsCode ∧ ∀ env, (k x).value? env = some (r (env x))) :
    Computes (fun env => r (w env)) (do Emit.append target (k (← e))) := by
  intro g
  refine (he g).bind fun x g₁ hg₁ _ hx => yields_append hg₁.size (hk x).1 fun h env hext hs => ?_
  have hadd := Func.extends_addInstr g₁ target none (hk x).1
  rw [(hk x).2 env, hx h env (hadd.trans hext) (hs.mono le_rfl (Nat.le_succ _))]

theorem Computes.append₂ {k : InstrId → InstrId → Instr} {r : Int32 → Int32 → Int32}
    (h₁ : Computes w₁ e₁) (h₂ : Computes w₂ e₂)
    (hk : ∀ x y, (k x y).IsCode ∧ ∀ env, (k x y).value? env = some (r (env x) (env y))) :
    Computes (fun env => r (w₁ env) (w₂ env)) (do
      let x ← e₁
      let y ← e₂
      Emit.append target (k x y)) := by
  intro g
  refine (h₁ g).bind fun x g₁ hg₁ _ hx => (h₂ g₁).bind fun y g₂ hg₂ _ hy => ?_
  refine yields_append (hg₁.size.trans hg₂.size) (hk x y).1 fun h env hext hs => ?_
  have hadd := Func.extends_addInstr g₂ target none (hk x y).1
  have hsize := Nat.le_succ g₂.nodes.size
  rw [(hk x y).2 env,
    hx h env (hg₂.trans (hadd.trans hext)) (hs.mono le_rfl (hg₂.size.trans hsize)),
    hy h env (hadd.trans hext) (hs.mono hg₁.size hsize)]

end Emit

namespace Descriptor

variable {R : Type} [Arithmetic R] {d t count stride start : Descriptor} {trip : Option Descriptor}
variable {inBody : Bool} {s : Side} {target : BlockId} {kind : TripKind}

section Value

/-- The number of the first or the last iteration. -/
def lastIteration (inBody : Bool) (count : R) : Side → R
  | .lower => 0
  | .upper => if inBody then count - 1 else count

/-- What the code for one end of the bounds computes, if the number of iterations is `count`. -/
def endValue (ρ : InstrId → R) (inBody : Bool) (s : Side) (d count : Descriptor) : R :=
  match d with
  | linear stride start =>
      match tripSide? stride s with
      | some side =>
          if side = s then lastIteration inBody (value ρ count) side + value ρ start
          else value ρ start - lastIteration inBody (value ρ count) side
      | none => 0
  | d => value ρ d

theorem IsTerm.endValue (hd : d.IsTerm) (ρ : InstrId → R) :
    d.endValue ρ inBody s count = d.value ρ := by
  cases hd <;> rfl

theorem value_congr {ρ ρ' : InstrId → R} (h : d.FetchesOnly fun y => ρ y = ρ' y) :
    d.value ρ = d.value ρ' := by
  induction d with
  | fetch x => exact fetchesOnly_fetch.mp h
  | unary op b ih =>
    have hb := ih (fetchesOnly_unary.mp h)
    cases op <;> simp only [value, hb]
  | binary op a b iha ihb =>
    obtain ⟨ha, hb⟩ := fetchesOnly_binary.mp h
    cases op <;> simp only [value, iha ha, ihb hb]
  | _ => rfl

theorem endValue_congr {ρ ρ' : InstrId → R}
    (h : ∀ y ∈ d.fetched ++ count.fetched, ρ y = ρ' y) :
    d.endValue ρ inBody s count = d.endValue ρ' inBody s count := by
  obtain ⟨hd, hcount⟩ := List.forall_mem_append.mp h
  have hcount : count.value ρ = count.value ρ' := value_congr hcount
  cases d with
  | linear stride start =>
    have hstart := value_congr (fetchesOnly_linear.mp hd).2
    simp only [Descriptor.endValue, hcount, hstart]
  | _ => exact value_congr hd

end Value

section Computes

variable {linearCode : Descriptor → Side → Emit InstrId → Emit InstrId}

theorem computes_arith_add {w₁ w₂ : Env → Int32} {e₁ e₂ : Emit InstrId} (h₁ : Computes w₁ e₁)
    (h₂ : Computes w₂ e₂) : Computes (fun env => w₁ env + w₂ env) (do
      let x ← e₁
      let y ← e₂
      Emit.arith target .add x y) :=
  h₁.append₂ h₂ (k := .arith .add) fun _ _ => ⟨.inl rfl, fun _ => rfl⟩

theorem computes_arith_sub {w₁ w₂ : Env → Int32} {e₁ e₂ : Emit InstrId} (h₁ : Computes w₁ e₁)
    (h₂ : Computes w₂ e₂) : Computes (fun env => w₁ env - w₂ env) (do
      let x ← e₁
      let y ← e₂
      Emit.arith target .sub x y) :=
  h₁.append₂ h₂ (k := .arith .sub) fun _ _ => ⟨.inr rfl, fun _ => rfl⟩

theorem IsTerm.computes_emitWith (hd : d.IsTerm) (s : Side) :
    Computes (fun env => d.value env) (d.emitWith inBody target linearCode s) := by
  induction hd generalizing s with
  | constant v =>
    have hword : (fun env : Env => value env (Descriptor.constant v)) = fun _ => v :=
      funext fun _ => Int32.cast_toInt v
    exact hword ▸ computes_constant v
  | fetch x => exact computes_pure x
  | neg _ ih => exact (ih s.flip).append₁ fun _ => ⟨trivial, fun _ => rfl⟩
  | binary hop _ _ iha ihb =>
    simp only [List.mem_cons, List.not_mem_nil, or_false] at hop
    rcases hop with rfl | rfl | rfl | rfl
    · exact computes_arith_add (iha s) (ihb s)
    · exact computes_arith_sub (iha s) (ihb s.flip)
    · exact computes_failure
    · exact computes_failure

theorem computes_emitTrip (hcount : t.count? = some count) (hterm : count.IsTerm) (s : Side) :
    Computes (fun env => lastIteration inBody (count.value env) s)
      (emitTrip (some t) inBody target s) := by
  have hupper : Computes (fun env => count.value env) (count.emitWith inBody target
      (emitLinear target (t.emitCount inBody target 1)) .upper) := hterm.computes_emitWith .upper
  have htrip (kind : TripKind) : Computes (fun env => lastIteration inBody (count.value env) s)
      ((tripCount kind count).emitWith inBody target
        (emitLinear target (t.emitCount inBody target 1)) s) := by
    cases s with
    | lower => exact computes_constant 0
    | upper =>
      unfold emitWith lastIteration
      dsimp only
      cases inBody with
      | true => exact computes_arith_sub hupper (computes_constant 1)
      | false =>
        cases kind.needsTaken with
        | true => exact computes_failure
        | false => exact hupper
  cases t with
  | tripCount kind count' | guardedCount kind count' =>
    obtain rfl := Option.some.inj hcount
    exact htrip kind
  | _ => cases hcount

theorem computes_emitLinear {e : Emit InstrId} (hcount : t.count? = some count)
    (hterm : count.IsTerm) (he : Computes (fun env => start.value env) e) (s : Side) :
    Computes (fun env => (linear stride start).endValue env inBody s count)
      (emitLinear target (emitTrip (some t) inBody target) stride s e) := by
  cases hside : tripSide? stride s with
  | none =>
    simp only [emitLinear, hside]
    exact computes_failure
  | some side =>
    have hi : Computes (fun env => lastIteration inBody (count.value env) side)
        (emitTrip (some t) inBody target side) := computes_emitTrip hcount hterm side
    simp only [emitLinear, Descriptor.endValue, hside]
    split_ifs
    · exact computes_arith_add hi he
    · exact hi.append₂ he (k := fun i x => .arith .sub x i) (r := fun i x => x - i)
        fun _ _ => ⟨.inr rfl, fun _ => rfl⟩

theorem computes_emit (hd : d.IsTerm ∨ ∃ stride start, start.IsTerm ∧ d = linear stride start)
    (hcount : t.count? = some count) (hterm : count.IsTerm) (s : Side) :
    Computes (fun env => d.endValue env inBody s count) (d.emit (some t) inBody target s) := by
  rcases hd with hd | ⟨stride, start, hstart, rfl⟩
  · simp only [hd.endValue]
    exact hd.computes_emitWith s
  · exact computes_emitLinear hcount hterm (hstart.computes_emitWith s) s

end Computes

section Exact

variable {ρ : InstrId → ℤ} {ω : InstrId → Int32}

/-- There is no code for quotients. -/
theorem IsTerm.isDivisionFree_of_canEmitWith {linearOk : Descriptor → Side → Bool → Bool}
    (hd : d.IsTerm) (h : d.canEmitWith inBody linearOk s = true) : d.isDivisionFree = true := by
  induction hd generalizing s with
  | constant _ | fetch _ => rfl
  | neg _ ih => exact ih h
  | @binary op a b hop _ _ iha ihb =>
    simp only [List.mem_cons, List.not_mem_nil, or_false] at hop
    rcases hop with rfl | rfl | rfl | rfl
    · obtain ⟨ha, hb⟩ := Bool.and_eq_true_iff.mp h
      simp [isDivisionFree, iha ha, ihb hb]
    · obtain ⟨ha, hb⟩ := Bool.and_eq_true_iff.mp h
      simp [isDivisionFree, iha ha, ihb hb]
    · cases h
    · cases h

theorem canEmitTrip_upper (hkind : t.tripKind? = some kind) (hcount : t.count? = some count)
    (h : canEmitTrip (some t) inBody .upper = true) :
    (inBody = false → kind.needsTaken = false) ∧
      ∃ linearOk, count.canEmitWith inBody linearOk .upper = true := by
  have hboth : ((inBody || !kind.needsTaken) && count.canEmitWith inBody
      (canEmitLinear (t.canEmitCount inBody 1)) .upper) = true := by
    cases t with
    | tripCount kind' count' | guardedCount kind' count' =>
      obtain rfl := Option.some.inj hkind
      obtain rfl := Option.some.inj hcount
      exact h
    | _ => cases hcount
  obtain ⟨hin, hcode⟩ := Bool.and_eq_true_iff.mp hboth
  exact ⟨fun hheader => by simpa [hheader] using hin, _, hcode⟩

theorem canEmit_linear {trip : Option Descriptor}
    (h : (linear stride start).canEmit trip inBody s = true) :
    ∃ side, tripSide? stride s = some side ∧ canEmitTrip trip inBody side = true ∧
      start.canEmit trip inBody s = true := by
  unfold canEmit canEmitWith canEmitLinear at h
  cases hside : tripSide? stride s with
  | none => simp [hside] at h
  | some side =>
    rw [hside] at h
    exact ⟨side, rfl, Bool.and_eq_true_iff.mp h⟩

/-- Wrapping around at the end of the code comes to the same as doing so at every instruction. -/
theorem cast_endValue (hcast : ∀ y, (ρ y : Int32) = ω y)
    (hd : d.IsTerm ∨ ∃ stride start, start.IsTerm ∧ d = linear stride start)
    (hkind : t.tripKind? = some kind) (hcount : t.count? = some count) (hterm : count.IsTerm)
    (h : d.canEmit (some t) inBody s = true) :
    ((d.endValue ρ inBody s count : ℤ) : Int32) = d.endValue ω inBody s count := by
  rcases hd with hd | ⟨stride, start, hstart, rfl⟩
  · rw [hd.endValue, hd.endValue, hd.cast_value hcast (hd.isDivisionFree_of_canEmitWith h)]
  · obtain ⟨side, hside, htrip, hcode⟩ := canEmit_linear h
    have hx := hstart.cast_value hcast (hstart.isDivisionFree_of_canEmitWith hcode)
    have hi : ((lastIteration inBody (count.value ρ) side : ℤ) : Int32) =
        lastIteration inBody (count.value ω) side := by
      cases side with
      | lower => exact Int.cast_zero
      | upper =>
        obtain ⟨-, _, hcan⟩ := canEmitTrip_upper hkind hcount htrip
        have hfree := hterm.isDivisionFree_of_canEmitWith hcan
        rw [lastIteration, lastIteration, ← hterm.cast_value hcast hfree]
        cases inBody with
        | true => rw [if_pos rfl, if_pos rfl, Int.cast_sub, Int.cast_one]
        | false => rfl
    simp only [Descriptor.endValue, hside]
    split_ifs
    · rw [Int.cast_add, hi, hx]
    · rw [Int.cast_sub, hi, hx]

theorem le_lastIteration {n : ℕ} (hkind : t.tripKind? = some kind) (hcount : t.count? = some count)
    (hn : Counted kind inBody n (count.value ρ)) (h : canEmitTrip (some t) inBody .upper = true) :
    (n : ℤ) ≤ lastIteration inBody (count.value ρ) .upper := by
  rw [lastIteration]
  cases inBody with
  | true =>
    rw [if_pos rfl]
    exact Int.le_sub_one_of_lt (hn.body rfl)
  | false => exact hn.header rfl ((canEmitTrip_upper hkind hcount h).1 rfl)

/-- The end of a sequence that goes up by one is on the same side as that of the iterations,
and that of one that goes down by one on the other. -/
theorem endValue_linear {side : Side} (hstride : stride.IsTerm)
    (h : tripSide? stride s = some side) (inBody : Bool) (start count : Descriptor) :
    stride.value ρ = 1 ∧ side = s ∧ (linear stride start).endValue ρ inBody s count =
        lastIteration inBody (count.value ρ) side + start.value ρ ∨
      stride.value ρ = -1 ∧ side = s.flip ∧ (linear stride start).endValue ρ inBody s count =
        start.value ρ - lastIteration inBody (count.value ρ) side := by
  have hside := h
  unfold tripSide? at hside
  split_ifs at hside with hup hdown
  · obtain rfl := Option.some.inj hside
    refine .inl ⟨(hstride.value_of_always? ρ hup).trans ofWord_one, rfl, ?_⟩
    simp only [Descriptor.endValue, h, if_true]
  · obtain rfl := Option.some.inj hside
    refine .inr ⟨(hstride.value_of_always? ρ hdown).trans ofWord_neg_one, rfl, ?_⟩
    have hne : s.flip ≠ s := by cases s <;> decide
    simp only [Descriptor.endValue, h, if_neg hne]

/-- The value bounds what the descriptor gives to the iterations that the trip count allows. -/
theorem endValue_bounds {n : ℕ}
    (hd : d.IsTerm ∨ ∃ stride start, (stride.IsTerm ∧ start.IsTerm) ∧ d = linear stride start)
    (hkind : t.tripKind? = some kind) (hcount : t.count? = some count)
    (h : d.canEmit (some t) inBody s = true) (hn : Counted kind inBody n (count.value ρ)) :
    s.Bounds (d.endValue ρ inBody s count) (d.valueAt ρ n) := by
  rcases hd with hd | ⟨stride, start, ⟨hstride, -⟩, rfl⟩
  · have hvalue : d.valueAt ρ n = d.value ρ := by cases hd <;> rfl
    rw [hd.endValue, hvalue]
    cases s <;> exact le_rfl
  · obtain ⟨side, hside, htrip, -⟩ := canEmit_linear h
    have hlast : canEmitTrip (some t) inBody .upper = true →
        (n : ℤ) ≤ lastIteration inBody (count.value ρ) .upper := le_lastIteration hkind hcount hn
    have hvalue : (linear stride start).valueAt ρ n = stride.value ρ * n + start.value ρ := rfl
    have hzero : lastIteration inBody (count.value ρ) .lower = 0 := rfl
    rw [hvalue]
    rcases endValue_linear (ρ := ρ) hstride hside inBody start count with
      ⟨hup, rfl, hend⟩ | ⟨hdown, rfl, hend⟩
    · rw [hup, hend]
      cases side with
      | lower =>
        simp only [Side.Bounds]
        omega
      | upper =>
        have := hlast htrip
        simp only [Side.Bounds]
        omega
    · rw [hdown, hend]
      cases s with
      | lower =>
        have := hlast htrip
        simp only [Side.Bounds, Side.flip]
        omega
      | upper =>
        simp only [Side.Bounds, Side.flip]
        omega

end Exact

end Descriptor

end LoopBounds
