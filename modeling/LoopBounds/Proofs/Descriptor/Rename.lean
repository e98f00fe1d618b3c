import LoopBounds.Classify.TripCount
import Mathlib.Logic.Function.Basic
import Mathlib.Tactic.SplitIfs

/-!
# Renaming fetched values

The positions of instructions carry no meaning of their own: descriptors only compare them. So
bounds, simplified operations, arithmetic on sequences and trip counts all commute with an
injective renaming of the values that a descriptor fetches.
-/

namespace LoopBounds

variable {σ : InstrId → InstrId}

namespace Affine

/-- The bound with another anchor. -/
def rename (σ : InstrId → InstrId) (v : Affine) : Affine := { v with anchor := v.anchor.map σ }

@[simp] theorem rename_unknown : rename σ unknown = unknown := rfl

@[simp] theorem rename_constant (b : Int32) : rename σ (constant b) = constant b := rfl

@[simp] theorem rename_known (v : Affine) : (v.rename σ).known = v.known := rfl

@[simp] theorem rename_anchor (v : Affine) : (v.rename σ).anchor = v.anchor.map σ := rfl

@[simp] theorem rename_scale (v : Affine) : (v.rename σ).scale = v.scale := rfl

@[simp] theorem rename_offset (v : Affine) : (v.rename σ).offset = v.offset := rfl

@[simp] theorem rename_ofInstr (x : InstrId) (a b : Int32) :
    (ofInstr x a b).rename σ = ofInstr (σ x) a b := by
  unfold ofInstr rename
  split_ifs <;> rfl

theorem rename_anchored (x : Option InstrId) (a b : Int32) :
    (anchored x a b).rename σ = anchored (x.map σ) a b := by
  cases x with
  | none => rfl
  | some x => exact rename_ofInstr x a b

theorem rename_anchored? (x : Option InstrId) (a b : Option Int32) :
    (anchored? x a b).rename σ = anchored? (x.map σ) a b := by
  unfold anchored?
  split
  · exact rename_anchored _ _ _
  · rfl

@[simp] theorem constant?_rename (v : Affine) : (v.rename σ).constant? = v.constant? := rfl

@[simp] theorem rename_times (v : Affine) (c : Int32) :
    (v.times c).rename σ = (v.rename σ).times c := rename_anchored? _ _ _

@[simp] theorem rename_mul (v w : Affine) : (v.mul w).rename σ = (v.rename σ).mul (w.rename σ) := by
  simp only [mul, apply_ite (rename σ), rename_times, rename_unknown]
  rfl

@[simp] theorem rename_div (v w : Affine) : (v.div w).rename σ = (v.rename σ).div (w.rename σ) := by
  simp only [div, constant?_rename]
  split
  · split <;> rfl
  · rfl

variable (hσ : Function.Injective σ)

include hσ

theorem rename_add (v w : Affine) : (v.add w).rename σ = (v.rename σ).add (w.rename σ) := by
  simp [add, apply_ite (rename σ), rename_anchored?, (Option.map_injective hσ).eq_iff]

theorem rename_sub (v w : Affine) : (v.sub w).rename σ = (v.rename σ).sub (w.rename σ) := by
  simp [sub, apply_ite (rename σ), rename_anchored?, (Option.map_injective hσ).eq_iff]

theorem rename_pickOffset (pick : Int32 → Int32 → Int32) (v w : Affine) :
    (pickOffset pick v w).rename σ = pickOffset pick (v.rename σ) (w.rename σ) := by
  simp [pickOffset, apply_ite (rename σ), rename_anchored, (Option.map_injective hσ).eq_iff]

end Affine

namespace Interval

def rename (σ : InstrId → InstrId) (x : Interval) : Interval := ⟨x.lower.rename σ, x.upper.rename σ⟩

@[simp] theorem rename_mk (v w : Affine) : rename σ ⟨v, w⟩ = ⟨v.rename σ, w.rename σ⟩ := rfl

@[simp] theorem rename_unknown : rename σ unknown = unknown := rfl

@[simp] theorem rename_constant (b : Int32) : rename σ (constant b) = constant b := rfl

@[simp] theorem rename_lower (x : Interval) : (x.rename σ).lower = x.lower.rename σ := rfl

@[simp] theorem rename_upper (x : Interval) : (x.rename σ).upper = x.upper.rename σ := rfl

@[simp] theorem single?_rename (x : Interval) : (x.rename σ).single? = x.single? := rfl

@[simp] theorem nonneg_rename (x : Interval) : (x.rename σ).nonneg = x.nonneg := rfl

@[simp] theorem nonpos_rename (x : Interval) : (x.rename σ).nonpos = x.nonpos := rfl

@[simp] theorem hasZero_rename (x : Interval) : (x.rename σ).hasZero = x.hasZero := rfl

theorem rename_scale (x : Interval) (c : Int32) : (x.scale c).rename σ = (x.rename σ).scale c := by
  unfold scale
  split_ifs <;> simp

theorem rename_corners {op : Affine → Affine → Affine}
    (hop : ∀ v w, (op v w).rename σ = op (v.rename σ) (w.rename σ)) (x y : Interval) :
    (corners op x y).rename σ = corners op (x.rename σ) (y.rename σ) := by
  simp only [corners, rename_lower, rename_upper, ← hop, Affine.constant?_rename]
  split <;> rfl

theorem rename_mul (x y : Interval) : (x.mul y).rename σ = (x.rename σ).mul (y.rename σ) := by
  simp only [mul, single?_rename, nonneg_rename, nonpos_rename, rename_lower, rename_upper]
  split
  · exact rename_scale _ _
  · exact rename_scale _ _
  · have hcorners := rename_corners (σ := σ) (fun v w => Affine.rename_mul v w) x y
    simp only [apply_ite (rename σ), hcorners]
    simp

theorem rename_div (x y : Interval) : (x.div y).rename σ = (x.rename σ).div (y.rename σ) := by
  simp only [div, hasZero_rename, nonneg_rename, nonpos_rename, rename_lower, rename_upper]
  have hcorners := rename_corners (σ := σ) (fun v w => Affine.rename_div v w) x y
  simp only [apply_ite (rename σ), hcorners]
  simp [unknown]

variable (hσ : Function.Injective σ)

include hσ

theorem rename_add (x y : Interval) : (x.add y).rename σ = (x.rename σ).add (y.rename σ) := by
  simp [add, Affine.rename_add hσ]

theorem rename_sub (x y : Interval) : (x.sub y).rename σ = (x.rename σ).sub (y.rename σ) := by
  simp [sub, Affine.rename_sub hσ]

theorem rename_neg (x : Interval) : x.neg.rename σ = (x.rename σ).neg :=
  rename_sub hσ (constant 0) x

theorem rename_hull (x y : Interval) : (x.hull y).rename σ = (x.rename σ).hull (y.rename σ) := by
  simp [hull, Affine.min, Affine.max, Affine.rename_pickOffset hσ]

end Interval

theorem TripKind.rename_bounds (hσ : Function.Injective σ) (kind : TripKind) (inBody : Bool)
    (count : Interval) : (kind.bounds inBody count).rename σ =
      kind.bounds inBody (count.rename σ) := by
  simp only [bounds, Interval.rename_mk]
  split_ifs <;> simp [Affine.rename_sub hσ]

namespace Descriptor

/-- The descriptor with other names for the values that it fetches. -/
@[simp] def rename (σ : InstrId → InstrId) : Descriptor → Descriptor
  | constant v => constant v
  | fetch x => fetch (σ x)
  | unary op b => unary op (b.rename σ)
  | binary op a b => binary op (a.rename σ) (b.rename σ)
  | linear a b => linear (a.rename σ) (b.rename σ)
  | periodic a b => periodic (a.rename σ) (b.rename σ)
  | wrapAround a b => wrapAround (a.rename σ) (b.rename σ)
  | tripCount kind count => tripCount kind (count.rename σ)
  | guardedCount kind count taken => guardedCount kind (count.rename σ) (taken.rename σ)

variable (d a b c : Descriptor)

@[simp] theorem isInvariant_rename : (d.rename σ).isInvariant = d.isInvariant := by
  cases d <;> rfl

@[simp] theorem isPeriodic_rename : (d.rename σ).isPeriodic = d.isPeriodic := by
  cases d <;> rfl

@[simp] theorem negated?_rename : (d.rename σ).negated? = d.negated?.map (rename σ) := by
  cases d with
  | unary op b => cases op <;> rfl
  | binary op a b => cases op <;> rfl
  | _ => rfl

theorem rename_operation (op : Operation) (a : Option Descriptor) :
    (operation op a b).rename σ = operation op (a.map (rename σ)) (b.rename σ) := by
  cases a <;> rfl

theorem rename_appendLast :
    (appendLast a d).rename σ = appendLast (a.rename σ) (d.rename σ) := by
  induction d with
  | periodic b c _ ih => simp [appendLast, ih]
  | _ => rfl

theorem rename_rotate : d.rotate.rename σ = (d.rename σ).rotate := by
  cases d with
  | periodic a b => exact rename_appendLast b a
  | _ => rfl

variable (hσ : Function.Injective σ)

include hσ

theorem rename_countBounds : (d.rename σ).countBounds none true =
    (d.countBounds none true).rename σ := by
  unfold countBounds
  induction d with
  | constant v => rfl
  | fetch x =>
    simp [boundsWith, fetchBounds, Interval.exactly]
  | unary op b ih =>
    cases op <;> simp [boundsWith, ih, Interval.rename_neg hσ]
  | binary op a b iha ihb =>
    cases op <;> simp [boundsWith, iha, ihb, Interval.rename_add hσ,
      Interval.rename_sub hσ, Interval.rename_neg hσ, Interval.rename_mul, Interval.rename_div]
  | linear a b _ _ => rfl
  | periodic a b iha ihb | wrapAround a b iha ihb =>
    simp [boundsWith, iha, ihb, Interval.rename_hull hσ]
  | tripCount kind count ih | guardedCount kind count taken ih _ =>
    simp [boundsWith, ih, TripKind.rename_bounds hσ]

theorem constantBounds?_rename : (d.rename σ).constantBounds? = d.constantBounds? := by
  have hbounds := rename_countBounds d hσ
  cases d with
  | constant v => rfl
  | _ =>
    rw [rename] at hbounds ⊢
    simp only [constantBounds?, hbounds, Interval.rename_lower, Interval.rename_upper,
      Affine.constant?_rename]

theorem always?_rename : (d.rename σ).always? = d.always? := by
  unfold always?
  rw [constantBounds?_rename d hσ]

theorem atLeast?_rename : (d.rename σ).atLeast? = d.atLeast? := by
  unfold atLeast?
  rw [constantBounds?_rename d hσ]

theorem atMost?_rename : (d.rename σ).atMost? = d.atMost? := by
  unfold atMost?
  rw [constantBounds?_rename d hσ]

theorem always?_map_rename (a : Option Descriptor) :
    (a.map (rename σ)).bind always? = a.bind always? := by
  cases a with
  | none => rfl
  | some a => exact always?_rename a hσ

section Combine

theorem rename_sum_cases {minus : Bool} {a : Option Descriptor} {e e' : Descriptor}
    (he : e.rename σ = e') :
    (if !minus && a.bind always? = some 0 then b
      else match b.always? with
        | some c => if c = 0 then a.getD (unary (if minus then .sub else .add) b)
            else operation (if minus then .sub else .add) a b
        | none => e).rename σ =
      if !minus && (a.map (rename σ)).bind always? = some 0 then b.rename σ
      else match (b.rename σ).always? with
        | some c => if c = 0 then
            (a.map (rename σ)).getD (unary (if minus then .sub else .add) (b.rename σ))
            else operation (if minus then .sub else .add) (a.map (rename σ)) (b.rename σ)
        | none => e' := by
  rw [always?_map_rename hσ, always?_rename b hσ, apply_ite (rename σ)]
  congr 1
  cases b.always? with
  | some c =>
    dsimp only
    rw [apply_ite (rename σ), rename_operation]
    cases a <;> rfl
  | none => exact he

theorem rename_combineSum (minus : Bool) (a : Option Descriptor) :
    (combineSum minus a b).rename σ = combineSum minus (a.map (rename σ)) (b.rename σ) := by
  -- The recursion goes down negations only; every other right operand stays whole.
  induction b generalizing minus with
  | unary op inner ih =>
    unfold combineSum
    apply rename_sum_cases _ hσ
    cases op with
    | neg => exact ih _
    | _ => exact rename_operation _ _ _
  | binary op x inner _ ih =>
    unfold combineSum
    apply rename_sum_cases _ hσ
    cases op with
    | neg => exact ih _
    | _ => exact rename_operation _ _ _
  | _ =>
    unfold combineSum
    exact rename_sum_cases _ hσ (rename_operation _ _ _)

omit hσ in
theorem combineNeg_eq (a : Option Descriptor) (h : ∀ x y, b ≠ binary .sub x y) :
    combineNeg a b = (b.always?.map fun c => if c = 0 then b else operation .neg a b).getD
      (b.negated?.getD (operation .neg a b)) := by
  unfold combineNeg
  split
  · exact absurd rfl (h _ _)
  · cases b.always? with
    | some c => rfl
    | none => cases b.negated? <;> rfl

theorem rename_combineNeg (a : Option Descriptor) :
    (combineNeg a b).rename σ = combineNeg (a.map (rename σ)) (b.rename σ) := by
  by_cases h : ∃ x y, b = binary .sub x y
  · obtain ⟨x, y, rfl⟩ := h
    exact rename_combineSum x hσ true (some y)
  · simp only [not_exists] at h
    have h' (x y : Descriptor) : b.rename σ ≠ binary .sub x y := by
      cases b with
      | binary op x' y' =>
        intro heq
        rw [rename, binary.injEq] at heq
        exact h x' y' (by rw [heq.1])
      | _ => exact nofun
    rw [combineNeg_eq _ a h, combineNeg_eq _ _ h', always?_rename b hσ, negated?_rename]
    cases b.always? with
    | some c => simp [apply_ite (rename σ), rename_operation]
    | none => cases b.negated? <;> simp [rename_operation]

theorem rename_combineMul (a : Option Descriptor) :
    (combineMul a b).rename σ = combineMul (a.map (rename σ)) (b.rename σ) := by
  have hgetD (e : Descriptor) : (a.getD e).rename σ = (a.map (rename σ)).getD (e.rename σ) := by
    cases a <;> rfl
  have hunary : (unary .mul b).rename σ = unary .mul (b.rename σ) := rfl
  simp only [combineMul, apply_ite (rename σ), always?_map_rename hσ, always?_rename b hσ, hgetD,
    hunary, rename_combineNeg _ hσ, rename_operation, Option.map_none]

theorem rename_combineDiv (a : Option Descriptor) :
    (combineDiv a b).rename σ = combineDiv (a.map (rename σ)) (b.rename σ) := by
  have hgetD (e : Descriptor) : (a.getD e).rename σ = (a.map (rename σ)).getD (e.rename σ) := by
    cases a <;> rfl
  have hunary : (unary .div b).rename σ = unary .div (b.rename σ) := rfl
  simp only [combineDiv, apply_ite (rename σ), always?_rename b hσ, hgetD, hunary,
    rename_combineNeg _ hσ, rename_operation, Option.map_none]

theorem rename_combine (op : Operation) (a : Option Descriptor) :
    (combine op a b).rename σ = combine op (a.map (rename σ)) (b.rename σ) := by
  cases op with
  | add => exact rename_combineSum b hσ false a
  | sub => exact rename_combineSum b hσ true a
  | neg => exact rename_combineNeg b hσ a
  | mul => exact rename_combineMul b hσ a
  | div => exact rename_combineDiv b hσ a
  | _ => exact rename_operation _ _ _

end Combine

section Arithmetic

theorem neg?_rename : (d.rename σ).neg? = d.neg?.map (rename σ) := by
  induction d with
  | linear a b iha ihb | periodic a b iha ihb | wrapAround a b iha ihb =>
    simp only [rename, neg?, iha, ihb]
    cases a.neg? <;> cases b.neg? <;> rfl
  | tripCount | guardedCount => rfl
  | _ => exact congrArg some (rename_combine _ hσ .neg none).symm

theorem shiftFrom_rename (minus : Bool) :
    shiftFrom minus (c.rename σ) (d.rename σ) = (shiftFrom minus c d).map (rename σ) := by
  induction d with
  | linear a b _ ihb =>
    simp only [rename, shiftFrom, ihb, neg?_rename a hσ]
    cases minus <;> cases a.neg? <;> cases shiftFrom _ c b <;> rfl
  | periodic a b iha ihb | wrapAround a b iha ihb =>
    simp only [rename, shiftFrom, iha, ihb]
    cases shiftFrom minus c a <;> cases shiftFrom minus c b <;> rfl
  | tripCount | guardedCount => rfl
  | _ => exact congrArg some (rename_combine _ hσ _ (some c)).symm

theorem shiftBy_rename (minus : Bool) :
    shiftBy minus (c.rename σ) (d.rename σ) = (shiftBy minus c d).map (rename σ) := by
  induction d with
  | linear a b _ ihb =>
    simp only [rename, shiftBy, ihb]
    cases shiftBy minus c b <;> rfl
  | periodic a b iha ihb | wrapAround a b iha ihb =>
    simp only [rename, shiftBy, iha, ihb]
    cases shiftBy minus c a <;> cases shiftBy minus c b <;> rfl
  | tripCount | guardedCount => rfl
  | _ => exact congrArg some (rename_combine c hσ _ (some _)).symm

theorem scaleFrom_rename :
    scaleFrom (c.rename σ) (d.rename σ) = (scaleFrom c d).map (rename σ) := by
  induction d with
  | linear a b iha ihb | periodic a b iha ihb | wrapAround a b iha ihb =>
    simp only [rename, scaleFrom, iha, ihb]
    cases scaleFrom c a <;> cases scaleFrom c b <;> rfl
  | tripCount | guardedCount => rfl
  | _ => exact congrArg some (rename_combine _ hσ .mul (some c)).symm

theorem scaleBy_rename :
    scaleBy (c.rename σ) (d.rename σ) = (scaleBy c d).map (rename σ) := by
  induction d with
  | linear a b iha ihb | periodic a b iha ihb | wrapAround a b iha ihb =>
    simp only [rename, scaleBy, iha, ihb]
    cases scaleBy c a <;> cases scaleBy c b <;> rfl
  | tripCount | guardedCount => rfl
  | _ => exact congrArg some (rename_combine c hσ .mul (some _)).symm

theorem sum?_rename (minus : Bool) :
    sum? minus (a.rename σ) (b.rename σ) = (sum? minus a b).map (rename σ) := by
  have hcases {a b : Descriptor} {r r' : Option Descriptor} (hr : r' = r.map (rename σ)) :
      (if (a.rename σ).isInvariant then shiftFrom minus (a.rename σ) (b.rename σ)
        else if (b.rename σ).isInvariant then shiftBy minus (b.rename σ) (a.rename σ) else r') =
      (if a.isInvariant then shiftFrom minus a b
        else if b.isInvariant then shiftBy minus b a else r).map (rename σ) := by
    rw [isInvariant_rename, isInvariant_rename, apply_ite (Option.map (rename σ)),
      apply_ite (Option.map (rename σ)), shiftFrom_rename _ _ hσ, shiftBy_rename _ _ hσ, hr]
  induction a generalizing b with
  | linear p q ihp ihq =>
    unfold sum?
    apply hcases
    cases b with
    | linear r s =>
      simp only [rename, ihp, ihq]
      cases sum? minus p r <;> cases sum? minus q s <;> rfl
    | _ => rfl
  | _ =>
    unfold sum?
    exact hcases rfl

theorem mul?_rename : mul? (a.rename σ) (b.rename σ) = (mul? a b).map (rename σ) := by
  simp only [mul?, isInvariant_rename, scaleFrom_rename _ _ hσ, scaleBy_rename _ _ hσ,
    apply_ite (Option.map (rename σ)), Option.map_none]

theorem div?_rename : div? (a.rename σ) (b.rename σ) = (div? a b).map (rename σ) := by
  simp only [div?, isInvariant_rename, apply_ite (Option.map (rename σ)), Option.map_some,
    Option.map_none, rename_combine _ hσ]

theorem shl?_rename (k : Int) : shl? (a.rename σ) k = (shl? a k).map (rename σ) := by
  unfold shl?
  split_ifs
  · exact mul?_rename a (constant _) hσ
  · rfl

end Arithmetic

section TripCount

variable (lower upper stride : Descriptor) (step : Int) (cmp : Comparison)

theorem surelyHolds_rename :
    surelyHolds (lower.rename σ) (upper.rename σ) cmp = surelyHolds lower upper cmp := by
  simp only [surelyHolds, atLeast?_rename _ hσ, atMost?_rename _ hσ]

theorem surelyFinite_rename :
    surelyFinite (upper.rename σ) step cmp = surelyFinite upper step cmp := by
  simp only [surelyFinite, atLeast?_rename _ hσ, atMost?_rename _ hσ]

theorem rename_inclusiveLimit :
    (inclusiveLimit upper cmp).rename σ = inclusiveLimit (upper.rename σ) cmp := by
  cases cmp with
  | lt => exact rename_combine _ hσ .sub (some upper)
  | gt => exact rename_combine _ hσ .add (some upper)
  | _ => rfl

theorem rename_iterations : (iterations lower upper stride step cmp).rename σ =
    iterations (lower.rename σ) (upper.rename σ) (stride.rename σ) step cmp := by
  simp only [iterations, rename_combine _ hσ, apply_ite (rename σ), Option.map_some,
    rename_inclusiveLimit hσ]

theorem rename_tripCountOf : (tripCountOf lower upper stride step cmp).rename σ =
    tripCountOf (lower.rename σ) (upper.rename σ) (stride.rename σ) step cmp := by
  simp only [tripCountOf, rename, rename_iterations hσ, rename_combine _ hσ, Option.map_some,
    surelyHolds_rename hσ, surelyFinite_rename hσ]

theorem orderedTest_rename :
    orderedTest (lower.rename σ) (upper.rename σ) step cmp = orderedTest lower upper step cmp := by
  simp only [orderedTest, surelyHolds_rename hσ]

theorem linearTripCount?_rename :
    linearTripCount? (stride.rename σ) (lower.rename σ) (upper.rename σ) cmp =
      (linearTripCount? stride lower upper cmp).map (rename σ) := by
  unfold linearTripCount?
  rw [always?_rename stride hσ]
  cases stride.always? with
  | none => rfl
  | some c =>
    simp only [bind, pure, Option.bind_some, orderedTest_rename hσ, ← rename_tripCountOf hσ,
      apply_ite (Option.map (rename σ)), Option.map_some, Option.map_none]

theorem conditionTripCount?_rename : conditionTripCount? (a.rename σ) (b.rename σ) cmp =
    (conditionTripCount? a b cmp).map (rename σ) := by
  have htest (stride lower upper : Descriptor) (cmp : Comparison) (p : Bool) :
      (if p then linearTripCount? (stride.rename σ) (lower.rename σ) (upper.rename σ) cmp
        else none) =
      (if p then linearTripCount? stride lower upper cmp else none).map (rename σ) := by
    rw [linearTripCount?_rename hσ, apply_ite (Option.map (rename σ)), Option.map_none]
  cases a with
  | linear stride lower =>
    rw [rename]
    unfold conditionTripCount?
    dsimp only
    rw [isInvariant_rename]
    exact htest stride lower b cmp _
  | constant | fetch | unary | binary =>
    cases b with
    | linear stride lower => exact htest stride lower _ cmp.swap _
    | _ => rfl
  | _ => cases b <;> rfl

end TripCount

end Descriptor

end LoopBounds
