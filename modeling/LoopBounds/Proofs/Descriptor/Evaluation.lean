import LoopBounds.Proofs.Descriptor.Defined
import LoopBounds.Proofs.Descriptor.Transfer
import LoopBounds.Proofs.Range.Canonical

/-!
# Simplification preserves the value

An invariant is evaluated operation by operation. It has no value where it divides by zero or
where an operand is missing; a comparison is one or zero. Whatever an operation evaluates to,
its simplified form evaluates to as well, over the integers and over words that wrap around,
and what is taken for a constant evaluates to this constant.
-/

namespace LoopBounds

variable {R : Type} [Arithmetic R] [DecidableEq R] [LT R] [LE R] [DecidableLT R] [DecidableLE R]

/-- The value of an operation on the values of its operands, of which the left one may be
missing. -/
def Operation.result? : Operation → Option R → R → Option R
  | .neg, _, y => some (-y)
  | _, none, _ => none
  | .add, some x, y => some (x + y)
  | .sub, some x, y => some (x - y)
  | .mul, some x, y => some (x * y)
  | .div, some x, y => if y = 0 then none else some (Arithmetic.quot x y)
  | .lt, some x, y => some (if x < y then 1 else 0)
  | .le, some x, y => some (if x ≤ y then 1 else 0)
  | .gt, some x, y => some (if y < x then 1 else 0)
  | .ge, some x, y => some (if y ≤ x then 1 else 0)

namespace Descriptor

/-- The value of an invariant, where `ρ` reads the fetched values. -/
def eval? (ρ : InstrId → R) : Descriptor → Option R
  | constant v => some (ofWord R v)
  | fetch x => some (ρ x)
  | unary op b => (b.eval? ρ).bind (op.result? none)
  | binary op a b => (b.eval? ρ).bind (op.result? (a.eval? ρ))
  | _ => none

def evalExact? (env : InstrId → Int32) (d : Descriptor) : Option ℤ :=
  d.eval? fun x => (env x).toInt

/-- The value over words, where arithmetic wraps around. -/
def evalWord? (env : InstrId → Int32) (d : Descriptor) : Option Int32 := d.eval? env

variable {ρ : InstrId → R} {a b d : Descriptor} {r t : R} {op : Operation} {c : Int32}

theorem eval?_operation (op : Operation) (a : Option Descriptor) (b : Descriptor) :
    (operation op a b).eval? ρ = (b.eval? ρ).bind (op.result? (a.bind (eval? ρ))) := by
  cases a <;> rfl

/-- A term evaluates to its value if it divides by zero nowhere. -/
theorem IsTerm.eval?_eq_some_iff (h : d.IsTerm) : d.eval? ρ = some r ↔ d.Evaluates ρ r := by
  induction h generalizing r with
  | constant v => simp [eval?, Evaluates, Defined, value]
  | fetch x => simp [eval?, Evaluates, Defined, value]
  | neg _ ih =>
    simp [eval?, ih, Evaluates, Defined, value, Operation.result?, Option.bind_eq_some_iff]
  | @binary op a b hop _ _ iha ihb =>
    have hparts : (Descriptor.binary op a b).eval? ρ = some r ↔ Defined ρ a ∧ Defined ρ b ∧
        op.result? (some (value ρ a)) (value ρ b) = some r := by
      simp only [eval?, Option.bind_eq_some_iff, ihb, Evaluates]
      constructor
      · rintro ⟨y, ⟨hb, rfl⟩, h⟩
        cases ha : a.eval? ρ with
        | none =>
          rw [ha] at h
          simp only [List.mem_cons, List.not_mem_nil, or_false] at hop
          rcases hop with rfl | rfl | rfl | rfl <;> cases h
        | some x =>
          obtain ⟨hda, rfl⟩ := iha.mp ha
          exact ⟨hda, hb, ha ▸ h⟩
      · rintro ⟨ha, hb, h⟩
        exact ⟨_, ⟨hb, rfl⟩, by rwa [iha.mpr ⟨ha, rfl⟩]⟩
    rw [hparts]
    simp only [List.mem_cons, List.not_mem_nil, or_false] at hop
    rcases hop with rfl | rfl | rfl | rfl
    all_goals
      simp only [Operation.result?, Evaluates, Defined, value]
      grind

section Constants

/-- The descriptor has the single bound `u`, and where this is known, it is the value. -/
structure BoundedBy (ρ : InstrId → R) (d : Descriptor) (u : Affine) : Prop where
  countBounds_eq : d.countBounds none true = .exactly u
  eval?_eq : ∀ r, u.read? ρ = some r → d.eval? ρ = some r

theorem boundedBy_unknown (hd : d.countBounds none true = .unknown) :
    d.BoundedBy ρ .unknown := ⟨hd, nofun⟩

theorem boundedBy_constant (v : Int32) : (constant v).BoundedBy ρ (.constant v) :=
  ⟨rfl, fun r hr => by rwa [Affine.read?_constant] at hr⟩

theorem boundedBy_fetch (x : InstrId) : (fetch x).BoundedBy ρ (.ofInstr x 1 0) := by
  refine ⟨fetchBounds_none true x, ?_⟩
  intro r hr
  simpa [Affine.read?_ofInstr, eval?] using hr

variable {v w : Affine}

theorem BoundedBy.neg (hb : b.BoundedBy ρ w) :
    (unary .neg b).BoundedBy ρ ((Affine.constant 0).sub w) := by
  constructor
  · rw [countBounds, boundsWith, ← countBounds, hb.countBounds_eq]
    rfl
  · intro r hr
    obtain ⟨x, y, hx, hy, rfl⟩ := Affine.read?_sub hr
    rw [Affine.read?_constant, ofWord_zero, Option.some.injEq] at hx
    simp [eval?, hb.eval?_eq y hy, Operation.result?, ← hx]

theorem BoundedBy.exists_binary (ha : a.BoundedBy ρ v) (hb : b.BoundedBy ρ w) (op : Operation) :
    ∃ u, (binary op a b).BoundedBy ρ u := by
  have hboth {f : R → R → R} {r : R} (hr : Affine.Both ρ f v w r) :
      ∃ x y, a.eval? ρ = some x ∧ b.eval? ρ = some y ∧ r = f x y := by
    obtain ⟨x, y, hx, hy, heq⟩ := hr
    exact ⟨x, y, ha.eval?_eq x hx, hb.eval?_eq y hy, heq⟩
  have hva := ha.countBounds_eq
  have hwb := hb.countBounds_eq
  rw [countBounds] at hva hwb
  cases op with
  | add =>
    refine ⟨v.add w, by rw [countBounds, boundsWith, hva, hwb]; rfl, ?_⟩
    intro r hr
    obtain ⟨x, y, hx, hy, rfl⟩ := hboth (Affine.read?_add hr)
    simp [eval?, hx, hy, Operation.result?]
  | sub =>
    refine ⟨v.sub w, by rw [countBounds, boundsWith, hva, hwb]; rfl, ?_⟩
    intro r hr
    obtain ⟨x, y, hx, hy, rfl⟩ := hboth (Affine.read?_sub hr)
    simp [eval?, hx, hy, Operation.result?]
  | neg => exact ⟨_, hb.neg.countBounds_eq, hb.neg.eval?_eq⟩
  | mul =>
    obtain ⟨u, hu, hread⟩ := Interval.exists_mul_exactly ρ v w
    refine ⟨u, by rw [countBounds, boundsWith, hva, hwb, hu], ?_⟩
    intro r hr
    obtain ⟨x, y, hx, hy, rfl⟩ := hboth (hread r hr)
    simp [eval?, hx, hy, Operation.result?]
  | div =>
    obtain ⟨u, hu, hread⟩ := Interval.exists_div_exactly ρ v w
    refine ⟨u, by rw [countBounds, boundsWith, hva, hwb, hu], ?_⟩
    intro r hr
    obtain ⟨x, y, hx, hy, rfl⟩ := hboth (hread r hr)
    have hknown : ((Interval.exactly v).div (.exactly w)).upper.known = true := by
      rw [hu]
      exact (Affine.read?_eq_some_iff.mp hr).1
    -- The divisor is a constant other than zero, since the bound would be unknown otherwise.
    obtain ⟨c, hc, hne⟩ := Interval.exists_divisor_of_known hknown
    have hy' := hb.eval?_eq _ (Affine.read?_of_constant? hc)
    rw [hy, Option.some.injEq] at hy'
    have hzero : y ≠ 0 := hy' ▸ ofWord_ne_zero hne
    simp [eval?, hx, hy, Operation.result?, hzero]
  | _ => exact ⟨_, boundedBy_unknown rfl⟩

theorem AllInvariant.exists_boundedBy (h : d.AllInvariant) (ρ : InstrId → R) :
    ∃ u, d.BoundedBy ρ u := by
  induction d with
  | constant v => exact ⟨_, boundedBy_constant v⟩
  | fetch x => exact ⟨_, boundedBy_fetch x⟩
  | unary op b ih =>
    obtain ⟨w, hw⟩ := ih h
    cases op with
    | neg => exact ⟨_, hw.neg⟩
    | _ => exact ⟨_, boundedBy_unknown rfl⟩
  | binary op a b iha ihb =>
    obtain ⟨v, hv⟩ := iha h.1
    obtain ⟨w, hw⟩ := ihb h.2
    exact hv.exists_binary hw op
  | _ => exact h.elim

theorem AllInvariant.eval?_of_always? (h : d.AllInvariant) (hc : d.always? = some c)
    (ρ : InstrId → R) : d.eval? ρ = some (ofWord R c) := by
  obtain ⟨u, hu⟩ := h.exists_sole
  obtain ⟨w, hw⟩ := h.exists_boundedBy ρ
  have hcount : d.countBounds none true = .exactly u := hu.boundsWith_eq (fetchBounds_none true)
  obtain rfl : u = w := congrArg Interval.lower (hcount.symm.trans hw.countBounds_eq)
  obtain rfl := hu.eq_constant hc
  exact hw.eval?_eq _ (Affine.read?_constant c)

end Constants

section Combine

variable {x y : R} (hx : a.eval? ρ = some x) (hy : b.eval? ρ = some y)

theorem AllInvariant.eq_ofWord (h : d.AllInvariant) (hc : d.always? = some c)
    (hr : d.eval? ρ = some r) : r = ofWord R c := by
  rw [h.eval?_of_always? hc ρ, Option.some.injEq] at hr
  exact hr.symm

include hy in
theorem eval?_neg (a : Option Descriptor) : (operation .neg a b).eval? ρ = some (-y) := by
  rw [eval?_operation, hy]
  rfl

theorem eval?_of_neg (a : Option Descriptor) (h : (operation .neg a b).eval? ρ = some r) :
    b.eval? ρ = some (-r) := by
  rw [eval?_operation] at h
  obtain ⟨y, hy, heq⟩ := Option.bind_eq_some_iff.mp h
  obtain rfl : -y = r := Option.some.inj heq
  rw [hy, neg_neg]

theorem eval?_of_negated? {inner : Descriptor} (h : b.negated? = some inner)
    (hr : b.eval? ρ = some r) : inner.eval? ρ = some (-r) := by
  unfold negated? at h
  split at h
  · obtain rfl := Option.some.inj h
    exact eval?_of_neg none hr
  · obtain rfl := Option.some.inj h
    exact eval?_of_neg (some _) hr
  · cases h

include hx hy in
theorem eval?_sum_operation (minus : Bool) :
    (operation (if minus then .sub else .add) (some a) b).eval? ρ = some (sumValue minus x y) := by
  cases minus <;> simp [eval?_operation, hx, hy, Operation.result?, sumValue]

include hx hy in
theorem eval?_sum_cases (ha : a.AllInvariant) (hb : b.AllInvariant) (minus : Bool)
    {e : Descriptor} (he : e.eval? ρ = some (sumValue minus x y)) :
    (if !minus && a.always? = some 0 then b
      else match b.always? with
        | some c => if c = 0 then a else operation (if minus then .sub else .add) (some a) b
        | none => e).eval? ρ = some (sumValue minus x y) := by
  split
  · rename_i h
    simp only [Bool.and_eq_true, Bool.not_eq_true', decide_eq_true_eq] at h
    obtain ⟨rfl, h⟩ := h
    simp [sumValue, hy, ha.eq_ofWord h hx]
  · split
    · rename_i c hc
      split
      · rename_i hzero
        subst hzero
        cases minus <;> simp [sumValue, hx, hb.eq_ofWord hc hy]
      · exact eval?_sum_operation hx hy minus
    · exact he

include hx in
theorem eval?_combineSum (ha : a.AllInvariant) (hb : b.AllInvariant) (minus : Bool)
    (hy : b.eval? ρ = some y) :
    (combineSum minus (some a) b).eval? ρ = some (sumValue minus x y) := by
  have hflip (minus : Bool) (y : R) : sumValue (!minus) x (-y) = sumValue minus x y := by
    cases minus <;> simp [sumValue, sub_eq_add_neg]
  -- The recursion goes down negations only; every other right operand stays whole.
  induction b generalizing minus y with
  | unary op inner ih =>
    unfold combineSum
    apply eval?_sum_cases hx hy ha hb
    split
    · rename_i heq
      cases heq
      rw [← hflip]
      exact ih hb (!minus) (eval?_of_neg none hy)
    · rename_i heq
      cases heq
    · exact eval?_sum_operation hx hy minus
  | binary op z inner _ ih =>
    unfold combineSum
    apply eval?_sum_cases hx hy ha hb
    split
    · rename_i heq
      cases heq
    · rename_i heq
      cases heq
      rw [← hflip]
      exact ih hb.2 (!minus) (eval?_of_neg (some z) hy)
    · exact eval?_sum_operation hx hy minus
  | _ =>
    unfold combineSum
    exact eval?_sum_cases hx hy ha hb minus (eval?_sum_operation hx hy minus)

include hy in
theorem eval?_combineNeg (hb : b.AllInvariant) (a : Option Descriptor) :
    (combineNeg a b).eval? ρ = some (-y) := by
  unfold combineNeg
  split
  · rename_i u v
    obtain ⟨z, hz, heq⟩ := Option.bind_eq_some_iff.mp hy
    cases hu : u.eval? ρ with
    | none =>
      rw [hu] at heq
      cases heq
    | some w =>
      rw [hu] at heq
      obtain rfl : w - z = y := Option.some.inj heq
      rw [eval?_combineSum hz hb.2 hb.1 true hu, sumValue, if_pos rfl, neg_sub]
  · split
    · rename_i c _ hc
      split
      · rename_i hzero
        subst hzero
        simp [hy, hb.eq_ofWord hc hy]
      · exact eval?_neg hy a
    · exact eval?_of_negated? ‹_› hy
    · exact eval?_neg hy a

include hx hy in
theorem eval?_combineMul (ha : a.AllInvariant) (hb : b.AllInvariant) :
    (combineMul (some a) b).eval? ρ = some (x * y) := by
  have hleft {c : Int32} (h : (some a).bind always? = some c) : x = ofWord R c := ha.eq_ofWord h hx
  have hright {c : Int32} (h : b.always? = some c) : y = ofWord R c := hb.eq_ofWord h hy
  unfold combineMul
  dsimp only [Option.getD_some]
  split_ifs with h0 h1 hm1 h0' h1' hm1'
  · simp [hx, hleft h0]
  · simp [hy, hleft h1]
  · simp [eval?_combineNeg hy hb, hleft hm1]
  · simp [hy, hright h0']
  · simp [hx, hright h1']
  · simp [eval?_combineNeg hx ha, hright hm1']
  · simp [eval?_operation, hx, hy, Operation.result?]

include hx hy in
theorem eval?_combineDiv (ha : a.AllInvariant) (hb : b.AllInvariant) (hzero : y ≠ 0) :
    (combineDiv (some a) b).eval? ρ = some (Arithmetic.quot x y) := by
  have hright {c : Int32} (h : b.always? = some c) : y = ofWord R c := hb.eq_ofWord h hy
  unfold combineDiv
  dsimp only [Option.getD_some]
  split_ifs with h1 hm1
  · rw [hx, hright h1, ofWord_one, Arithmetic.quot_one]
  · rw [eval?_combineNeg hx ha, hright hm1, ofWord_neg_one, Arithmetic.quot_neg_one]
  · simp [eval?_operation, hx, hy, Operation.result?, hzero]

/-- Whatever an operation evaluates to, its simplified form evaluates to as well. -/
theorem eval?_combine {a : Option Descriptor} (ha : ∀ z ∈ a, z.AllInvariant) (hb : b.AllInvariant)
    (h : (operation op a b).eval? ρ = some r) : (combine op a b).eval? ρ = some r := by
  rw [eval?_operation] at h
  obtain ⟨y, hy, h⟩ := Option.bind_eq_some_iff.mp h
  by_cases hneg : op = .neg
  · subst hneg
    obtain rfl : -y = r := Option.some.inj h
    exact eval?_combineNeg hy hb a
  · cases hx : a.bind (eval? ρ) with
    | none =>
      rw [hx] at h
      cases op with
      | neg => exact absurd rfl hneg
      | _ => cases h
    | some x =>
      obtain ⟨a, rfl, hx⟩ := Option.bind_eq_some_iff.mp hx
      rw [hx] at h
      have ha := ha a rfl
      cases op with
      | add =>
        obtain rfl : x + y = r := Option.some.inj h
        exact eval?_combineSum hx ha hb false hy
      | sub =>
        obtain rfl : x - y = r := Option.some.inj h
        exact eval?_combineSum hx ha hb true hy
      | mul =>
        obtain rfl : x * y = r := Option.some.inj h
        exact eval?_combineMul hx hy ha hb
      | div =>
        simp only [Operation.result?] at h
        split_ifs at h with hzero
        obtain rfl : Arithmetic.quot x y = r := Option.some.inj h
        exact eval?_combineDiv hx hy ha hb hzero
      | neg => exact absurd rfl hneg
      | _ => simpa [combine, eval?_operation, hx, hy] using h

theorem hereditary_allInvariant : Hereditary AllInvariant where
  unary := Iff.rfl
  binary _ := Iff.rfl

theorem allInvariant_combine {a : Option Descriptor} (hleft : a = none → op = .neg)
    (ha : ∀ z ∈ a, z.AllInvariant) (hb : b.AllInvariant) : (combine op a b).AllInvariant := by
  have hP := hereditary_allInvariant
  cases a with
  | none =>
    obtain rfl := hleft rfl
    exact hP.combineNeg hb
  | some a =>
    have ha' := ha a rfl
    cases op with
    | add => exact hP.combineSum ha' false hb
    | sub => exact hP.combineSum ha' true hb
    | neg => exact hP.combineNeg_of ha hb
    | mul => exact hP.combineMul ha' hb
    | div => exact hP.combineDiv ha' ⟨ha', hb⟩
    | _ => exact ⟨ha', hb⟩

end Combine

/-- The simplified form of an operation on invariants is an invariant. It evaluates to what the
operation evaluates to, over the integers and over words, and is the operation itself for a
comparison. What counts as the constant `c` evaluates to `c`, whatever is fetched. -/
theorem combine_preserves_value (op : Operation) {a : Option Descriptor}
    {b : Descriptor} (hleft : a = none → op = .neg) (ha : ∀ z ∈ a, z.AllInvariant)
    (hb : b.AllInvariant) :
    (combine op a b).AllInvariant ∧
      (∀ env z, (operation op a b).evalExact? env = some z →
        (combine op a b).evalExact? env = some z) ∧
      (∀ env w, (operation op a b).evalWord? env = some w →
        (combine op a b).evalWord? env = some w) ∧
      (op ∈ [Operation.lt, .le, .gt, .ge] → combine op a b = operation op a b) ∧
      ∀ c, b.always? = some c →
        ∀ env, b.evalExact? env = some c.toInt ∧ b.evalWord? env = some c := by
  refine ⟨allInvariant_combine hleft ha hb, ?_, ?_, ?_, ?_⟩
  · intro env z h
    exact eval?_combine ha hb h
  · intro env w h
    exact eval?_combine ha hb h
  · intro hop
    simp only [List.mem_cons, List.not_mem_nil, or_false] at hop
    rcases hop with rfl | rfl | rfl | rfl <;> rfl
  · intro c hc env
    have hword := hb.eval?_of_always? hc env
    rw [ofWord, Int32.cast_toInt] at hword
    exact ⟨hb.eval?_of_always? hc _, hword⟩

/-- Division by a difference that is always `-1` becomes a negation. The least word is its own
negation. -/
theorem combine_div_difference :
    combine .div (some (fetch ⟨0⟩)) (binary .sub (constant 2) (constant 3)) =
        unary .neg (fetch ⟨0⟩) ∧
      (unary .neg (fetch ⟨0⟩)).evalWord? (fun _ => Int32.minValue) = some Int32.minValue := by
  have h := combine_preserves_value .div (a := some (fetch ⟨0⟩))
    (b := binary .sub (constant 2) (constant 3)) nofun (by simp [AllInvariant])
    (by simp [AllInvariant])
  have hcombine : combine .div (some (fetch ⟨0⟩)) (binary .sub (constant 2) (constant 3)) =
      unary .neg (fetch ⟨0⟩) := by decide
  refine ⟨hcombine, ?_⟩
  rw [← hcombine]
  exact h.2.2.1 (fun _ => Int32.minValue) Int32.minValue (by decide)

end Descriptor

end LoopBounds
