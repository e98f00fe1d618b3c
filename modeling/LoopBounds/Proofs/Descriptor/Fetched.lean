import LoopBounds.Classify.TripCount
import LoopBounds.Proofs.Descriptor.Hereditary

/-!
# What a descriptor fetches

A descriptor made from others by simplified operations, by arithmetic on sequences or by the
rules for trip counts fetches no value that these others do not fetch. So whatever holds of
all fetched values of the operands holds of those of the result.
-/

namespace LoopBounds.Descriptor

def fetched : Descriptor → List InstrId
  | constant _ => []
  | fetch x => [x]
  | unary _ b => b.fetched
  | binary _ a b | linear a b | periodic a b | wrapAround a b => a.fetched ++ b.fetched
  | tripCount _ count => count.fetched
  | guardedCount _ count taken => count.fetched ++ taken.fetched

def FetchesOnly (P : InstrId → Prop) (d : Descriptor) : Prop := ∀ y ∈ d.fetched, P y

variable {P : InstrId → Prop} {a b c d e x y : Descriptor}

section Constructors

@[simp] theorem fetchesOnly_constant (v : Int32) : (constant v).FetchesOnly P :=
  List.forall_mem_nil P

@[simp] theorem fetchesOnly_fetch {x : InstrId} : (fetch x).FetchesOnly P ↔ P x :=
  List.forall_mem_singleton

@[simp] theorem fetchesOnly_unary {op : Operation} :
    (unary op b).FetchesOnly P ↔ b.FetchesOnly P := Iff.rfl

@[simp] theorem fetchesOnly_binary {op : Operation} :
    (binary op a b).FetchesOnly P ↔ a.FetchesOnly P ∧ b.FetchesOnly P :=
  List.forall_mem_append

@[simp] theorem fetchesOnly_linear :
    (linear a b).FetchesOnly P ↔ a.FetchesOnly P ∧ b.FetchesOnly P :=
  List.forall_mem_append

@[simp] theorem fetchesOnly_periodic :
    (periodic a b).FetchesOnly P ↔ a.FetchesOnly P ∧ b.FetchesOnly P :=
  List.forall_mem_append

@[simp] theorem fetchesOnly_wrapAround :
    (wrapAround a b).FetchesOnly P ↔ a.FetchesOnly P ∧ b.FetchesOnly P :=
  List.forall_mem_append

@[simp] theorem fetchesOnly_guardedCount {kind : TripKind} :
    (guardedCount kind a b).FetchesOnly P ↔ a.FetchesOnly P ∧ b.FetchesOnly P :=
  List.forall_mem_append

end Constructors

section Combine

theorem hereditary_fetchesOnly : Hereditary (FetchesOnly P) where
  unary := fetchesOnly_unary
  binary _ := fetchesOnly_binary

theorem FetchesOnly.combine (op : Operation) (ha : a.FetchesOnly P) (hb : b.FetchesOnly P) :
    (combine op (some a) b).FetchesOnly P := by
  cases op with
  | add => exact hereditary_fetchesOnly.combineSum ha false hb
  | sub => exact hereditary_fetchesOnly.combineSum ha true hb
  | mul => exact hereditary_fetchesOnly.combineMul ha hb
  | div => exact hereditary_fetchesOnly.combineDiv ha (fetchesOnly_binary.mpr ⟨ha, hb⟩)
  | neg => exact hereditary_fetchesOnly.combineNeg_of (by simpa using ha) hb
  | _ => exact fetchesOnly_binary.mpr ⟨ha, hb⟩

theorem FetchesOnly.combineNeg (hb : b.FetchesOnly P) : (combineNeg none b).FetchesOnly P :=
  hereditary_fetchesOnly.combineNeg hb

end Combine

section Arithmetic

theorem FetchesOnly.neg? (hd : d.FetchesOnly P) (h : neg? d = some e) : e.FetchesOnly P := by
  induction d generalizing e with
  | linear a b iha ihb | periodic a b iha ihb | wrapAround a b iha ihb =>
    simp only [Descriptor.neg?, bind, pure, Option.bind_eq_some_iff, Option.some.injEq] at h
    obtain ⟨a', ha, b', hb, rfl⟩ := h
    simp only [fetchesOnly_linear, fetchesOnly_periodic, fetchesOnly_wrapAround] at hd ⊢
    exact ⟨iha hd.1 ha, ihb hd.2 hb⟩
  | tripCount | guardedCount => cases h
  | _ => exact Option.some.inj h ▸ hd.combineNeg

theorem FetchesOnly.shiftFrom {minus : Bool} (hc : c.FetchesOnly P) (hd : d.FetchesOnly P)
    (h : shiftFrom minus c d = some e) : e.FetchesOnly P := by
  induction d generalizing e with
  | linear a b _ ihb =>
    rw [fetchesOnly_linear] at hd
    cases minus with
    | true =>
      simp only [Descriptor.shiftFrom, bind, pure, if_true, Option.bind_eq_some_iff,
        Option.some.injEq] at h
      obtain ⟨a', ha, b', hb, rfl⟩ := h
      exact fetchesOnly_linear.mpr ⟨hd.1.neg? ha, ihb hd.2 hb⟩
    | false =>
      simp only [Descriptor.shiftFrom, bind, pure, Bool.false_eq_true, if_false,
        Option.bind_some, Option.bind_eq_some_iff, Option.some.injEq] at h
      obtain ⟨b', hb, rfl⟩ := h
      exact fetchesOnly_linear.mpr ⟨hd.1, ihb hd.2 hb⟩
  | periodic a b iha ihb | wrapAround a b iha ihb =>
    simp only [Descriptor.shiftFrom, bind, pure, Option.bind_eq_some_iff, Option.some.injEq] at h
    obtain ⟨a', ha, b', hb, rfl⟩ := h
    simp only [fetchesOnly_periodic, fetchesOnly_wrapAround] at hd ⊢
    exact ⟨iha hd.1 ha, ihb hd.2 hb⟩
  | tripCount | guardedCount => cases h
  | _ => exact Option.some.inj h ▸ hc.combine _ hd

theorem FetchesOnly.shiftBy {minus : Bool} (hc : c.FetchesOnly P) (hd : d.FetchesOnly P)
    (h : shiftBy minus c d = some e) : e.FetchesOnly P := by
  induction d generalizing e with
  | linear a b _ ihb =>
    simp only [Descriptor.shiftBy, bind, pure, Option.bind_eq_some_iff, Option.some.injEq] at h
    obtain ⟨b', hb, rfl⟩ := h
    rw [fetchesOnly_linear] at hd ⊢
    exact ⟨hd.1, ihb hd.2 hb⟩
  | periodic a b iha ihb | wrapAround a b iha ihb =>
    simp only [Descriptor.shiftBy, bind, pure, Option.bind_eq_some_iff, Option.some.injEq] at h
    obtain ⟨a', ha, b', hb, rfl⟩ := h
    simp only [fetchesOnly_periodic, fetchesOnly_wrapAround] at hd ⊢
    exact ⟨iha hd.1 ha, ihb hd.2 hb⟩
  | tripCount | guardedCount => cases h
  | _ => exact Option.some.inj h ▸ hd.combine _ hc

theorem FetchesOnly.scaleFrom (hc : c.FetchesOnly P) (hd : d.FetchesOnly P)
    (h : scaleFrom c d = some e) : e.FetchesOnly P := by
  induction d generalizing e with
  | linear a b iha ihb | periodic a b iha ihb | wrapAround a b iha ihb =>
    simp only [Descriptor.scaleFrom, bind, pure, Option.bind_eq_some_iff, Option.some.injEq] at h
    obtain ⟨a', ha, b', hb, rfl⟩ := h
    simp only [fetchesOnly_linear, fetchesOnly_periodic, fetchesOnly_wrapAround] at hd ⊢
    exact ⟨iha hd.1 ha, ihb hd.2 hb⟩
  | tripCount | guardedCount => cases h
  | _ => exact Option.some.inj h ▸ hc.combine .mul hd

theorem FetchesOnly.scaleBy (hc : c.FetchesOnly P) (hd : d.FetchesOnly P)
    (h : scaleBy c d = some e) : e.FetchesOnly P := by
  induction d generalizing e with
  | linear a b iha ihb | periodic a b iha ihb | wrapAround a b iha ihb =>
    simp only [Descriptor.scaleBy, bind, pure, Option.bind_eq_some_iff, Option.some.injEq] at h
    obtain ⟨a', ha, b', hb, rfl⟩ := h
    simp only [fetchesOnly_linear, fetchesOnly_periodic, fetchesOnly_wrapAround] at hd ⊢
    exact ⟨iha hd.1 ha, ihb hd.2 hb⟩
  | tripCount | guardedCount => cases h
  | _ => exact Option.some.inj h ▸ hd.combine .mul hc

theorem FetchesOnly.sum? {minus : Bool} (hx : x.FetchesOnly P) (hy : y.FetchesOnly P)
    (h : sum? minus x y = some e) : e.FetchesOnly P := by
  induction x generalizing y e with
  | linear a b iha ihb =>
    unfold Descriptor.sum? at h
    split_ifs at h
    · exact hx.shiftFrom hy h
    · exact hy.shiftBy hx h
    · split at h
      · rename_i heq _
        cases heq
        simp only [bind, pure, Option.bind_eq_some_iff, Option.some.injEq] at h
        obtain ⟨a', ha, b', hb, rfl⟩ := h
        rw [fetchesOnly_linear] at hx hy ⊢
        exact ⟨iha hx.1 hy.1 ha, ihb hx.2 hy.2 hb⟩
      · cases h
  | _ =>
    unfold Descriptor.sum? at h
    split_ifs at h
    all_goals first
      | exact hx.shiftFrom hy h
      | exact hy.shiftBy hx h

theorem FetchesOnly.mul? (hx : x.FetchesOnly P) (hy : y.FetchesOnly P)
    (h : mul? x y = some e) : e.FetchesOnly P := by
  unfold Descriptor.mul? at h
  split_ifs at h
  · exact hx.scaleFrom hy h
  · exact hy.scaleBy hx h

theorem FetchesOnly.div? (hx : x.FetchesOnly P) (hy : y.FetchesOnly P)
    (h : div? x y = some e) : e.FetchesOnly P := by
  unfold Descriptor.div? at h
  split_ifs at h
  exact Option.some.inj h ▸ hx.combine .div hy

theorem FetchesOnly.shl? {k : Int} (hx : x.FetchesOnly P) (h : shl? x k = some e) :
    e.FetchesOnly P := by
  unfold Descriptor.shl? at h
  split_ifs at h
  exact hx.mul? (fetchesOnly_constant _) h

end Arithmetic

section Sequences

theorem FetchesOnly.appendLast (hx : x.FetchesOnly P) (hd : d.FetchesOnly P) :
    (appendLast x d).FetchesOnly P := by
  induction d with
  | periodic a b _ ihb =>
    rw [fetchesOnly_periodic] at hd
    exact fetchesOnly_periodic.mpr ⟨hd.1, ihb hd.2⟩
  | _ => exact fetchesOnly_periodic.mpr ⟨hd, hx⟩

theorem FetchesOnly.rotate (hd : d.FetchesOnly P) : d.rotate.FetchesOnly P := by
  cases d with
  | periodic a b =>
    rw [fetchesOnly_periodic] at hd
    exact hd.1.appendLast hd.2
  | _ => exact hd

end Sequences

section TripCount

variable {lower upper stride : Descriptor} (hl : lower.FetchesOnly P)
variable (hu : upper.FetchesOnly P) (hs : stride.FetchesOnly P)

include hu

theorem FetchesOnly.inclusiveLimit (cmp : Comparison) :
    (inclusiveLimit upper cmp).FetchesOnly P := by
  cases cmp with
  | lt => exact hu.combine .sub (fetchesOnly_constant 1)
  | gt => exact hu.combine .add (fetchesOnly_constant 1)
  | _ => exact hu

include hl hs

theorem FetchesOnly.iterations (step : Int) (cmp : Comparison) :
    (iterations lower upper stride step cmp).FetchesOnly P := by
  unfold Descriptor.iterations
  refine ((FetchesOnly.combine .sub ?_ hl).combine .div hs)
  split_ifs
  · exact hu
  · exact (hu.inclusiveLimit cmp).combine .add hs

theorem FetchesOnly.tripCountOf (step : Int) (cmp : Comparison) :
    (tripCountOf lower upper stride step cmp).FetchesOnly P :=
  fetchesOnly_guardedCount.mpr ⟨FetchesOnly.iterations hl hu hs step cmp, hl.combine _ hu⟩

theorem FetchesOnly.linearTripCount? {cmp : Comparison}
    (h : linearTripCount? stride lower upper cmp = some d) : d.FetchesOnly P := by
  obtain ⟨step, -, h⟩ := Option.bind_eq_some_iff.mp h
  dsimp only at h
  split_ifs at h
  exact Option.some.inj h ▸ FetchesOnly.tripCountOf hl hu hs _ _

end TripCount

theorem FetchesOnly.conditionTripCount? {cmp : Comparison} (ha : a.FetchesOnly P)
    (hb : b.FetchesOnly P) (h : conditionTripCount? a b cmp = some d) : d.FetchesOnly P := by
  unfold Descriptor.conditionTripCount? at h
  split at h
  · rw [fetchesOnly_linear] at ha
    split_ifs at h
    exact FetchesOnly.linearTripCount? ha.2 hb ha.1 h
  · rw [fetchesOnly_linear] at hb
    split_ifs at h
    exact FetchesOnly.linearTripCount? hb.2 ha hb.1 h
  · cases h

end LoopBounds.Descriptor
