import LoopBounds.Descriptor.Bounds
import LoopBounds.Proofs.Descriptor.Fold
import LoopBounds.Proofs.Range.Known

/-!
# Bounds in canonical form

Every operation gives a bound that has an anchor just when its scale is not zero, so that two
bounds are equal if their coefficients on one anchor are. The bounds of an invariant are a single
bound in this form, which depends neither on the context nor on the trip count, as long as the
count is not a fetched value itself.
-/

namespace LoopBounds

namespace Affine

/-- Unknown, or anchored just when the scale is not zero. -/
def Canonical (v : Affine) : Prop := v = unknown ∨ ∃ x a b, v = ofInstr x a b

theorem canonical_unknown : unknown.Canonical := .inl rfl

theorem canonical_ofInstr (x : InstrId) (a b : Int32) : (ofInstr x a b).Canonical :=
  .inr ⟨x, a, b, rfl⟩

theorem ofInstr_zero (x : InstrId) (b : Int32) : ofInstr x 0 b = constant b := rfl

theorem canonical_constant (b : Int32) : (constant b).Canonical := canonical_ofInstr ⟨0⟩ 0 b

theorem canonical_anchored (x : Option InstrId) (a b : Int32) : (anchored x a b).Canonical := by
  cases x with
  | none => exact canonical_constant b
  | some x => exact canonical_ofInstr x a b

theorem canonical_anchored? (x : Option InstrId) (a b : Option Int32) :
    (anchored? x a b).Canonical := by
  unfold anchored?
  split
  · exact canonical_anchored _ _ _
  · exact canonical_unknown

variable (v w : Affine)

theorem canonical_add : (v.add w).Canonical := by
  unfold add
  split_ifs
  · exact canonical_anchored? _ _ _
  · exact canonical_anchored? _ _ _
  · exact canonical_anchored? _ _ _
  · exact canonical_unknown
  · exact canonical_unknown

theorem canonical_sub : (v.sub w).Canonical := by
  unfold sub
  split_ifs
  · exact canonical_anchored? _ _ _
  · exact canonical_anchored? _ _ _
  · exact canonical_anchored? _ _ _
  · exact canonical_unknown
  · exact canonical_unknown

theorem canonical_mul : (v.mul w).Canonical := by
  unfold mul
  split_ifs
  · exact canonical_anchored? _ _ _
  · exact canonical_anchored? _ _ _
  · exact canonical_unknown
  · exact canonical_unknown

theorem canonical_div : (v.div w).Canonical := by
  unfold div
  split
  · split
    · exact canonical_constant _
    · exact canonical_unknown
  · exact canonical_unknown

theorem canonical_pickOffset (pick : Int32 → Int32 → Int32) :
    (pickOffset pick v w).Canonical := by
  unfold pickOffset
  split_ifs
  · exact canonical_anchored _ _ _
  · exact canonical_unknown
  · exact canonical_unknown

variable {v w}

theorem Canonical.eq_constant (hv : v.Canonical) {c : Int32} (h : v.constant? = some c) :
    v = constant c := by
  obtain ⟨hknown, hscale, hoffset⟩ := constant?_eq_some_iff.mp h
  rcases hv with rfl | ⟨x, a, b, rfl⟩
  · cases hknown
  · obtain rfl : a = 0 := hscale
    obtain rfl : b = c := hoffset
    exact ofInstr_zero x b

section Coefficients

/-- The bound `a * x + b`, if both coefficients are words. -/
def ofInts? (x : InstrId) (a b : ℤ) : Affine :=
  anchored? (some x) (Word.narrow? a) (Word.narrow? b)

variable {u l : Affine} {x : InstrId} {a b a' b' : ℤ}

theorem ofInstr_eq_ofInts? (x : InstrId) (p q : Int32) :
    ofInstr x p q = ofInts? x p.toInt q.toInt := by
  rw [ofInts?, Word.narrow?_toInt, Word.narrow?_toInt]
  rfl

theorem known_ofInts?_toInt (x : InstrId) (p q : Int32) :
    (ofInts? x p.toInt q.toInt).known = true := by
  rw [← ofInstr_eq_ofInts?]
  rfl

theorem known_ofInts?_constant (x : InstrId) (q : Int32) : (ofInts? x 0 q.toInt).known = true :=
  known_ofInts?_toInt x 0 q

theorem constant_eq_ofInts? (x : InstrId) (q : Int32) : constant q = ofInts? x 0 q.toInt :=
  ofInstr_eq_ofInts? x 0 q

/-- A known bound has words for coefficients. -/
theorem exists_ofInstr_of_known (h : (ofInts? x a b).known = true) :
    ∃ p q : Int32, p.toInt = a ∧ q.toInt = b ∧ ofInts? x a b = ofInstr x p q := by
  unfold ofInts? at h ⊢
  cases hp : Word.narrow? a with
  | none =>
    rw [hp] at h
    cases h
  | some p =>
    cases hq : Word.narrow? b with
    | none =>
      rw [hp, hq] at h
      cases h
    | some q => exact ⟨p, q, Word.narrow?_eq_some_iff.mp hp, Word.narrow?_eq_some_iff.mp hq, rfl⟩

theorem known_ofInts?_iff : (ofInts? x a b).known = true ↔
    (-2 ^ 31 ≤ a ∧ a < 2 ^ 31) ∧ -2 ^ 31 ≤ b ∧ b < 2 ^ 31 := known_narrowed_iff

theorem ofInts?_eq_unknown (h : ¬(ofInts? x a b).known = true) : ofInts? x a b = unknown := by
  rcases canonical_anchored? (some x) (Word.narrow? a) (Word.narrow? b) with hv | ⟨y, p, q, hv⟩
  · exact hv
  · rw [ofInts?, hv] at h
    exact absurd rfl h

theorem narrow?_zero : Word.narrow? 0 = some 0 := Word.narrow?_toInt 0

theorem anchored?_zero (x : InstrId) (b : Option Int32) :
    anchored? none (some 0) b = anchored? (some x) (some 0) b := by
  cases b <;> rfl

theorem ofInstr_add (x : InstrId) (p q p' q' : Int32) :
    (ofInstr x p q).add (ofInstr x p' q') =
      ofInts? x (p.toInt + p'.toInt) (q.toInt + q'.toInt) := by
  unfold ofInts?
  by_cases hp : p = 0 <;> by_cases hp' : p' = 0 <;>
    simp [add, ofInstr, hp, hp', Word.add?, narrow?_zero, anchored?_zero x]

theorem ofInstr_sub (x : InstrId) (p q p' q' : Int32) :
    (ofInstr x p q).sub (ofInstr x p' q') =
      ofInts? x (p.toInt - p'.toInt) (q.toInt - q'.toInt) := by
  unfold ofInts?
  by_cases hp : p = 0 <;> by_cases hp' : p' = 0 <;>
    simp [sub, ofInstr, hp, hp', Word.neg?, Word.sub?, narrow?_zero, anchored?_zero x]

theorem ofInstr_mul_constant (x : InstrId) (p q c : Int32) :
    (ofInstr x p q).mul (constant c) = ofInts? x (p.toInt * c.toInt) (q.toInt * c.toInt) := by
  unfold ofInts?
  by_cases hp : p = 0 <;>
    simp [mul, times, constant, ofInstr, hp, Word.mul?, narrow?_zero, anchored?_zero x, mul_comm]

theorem ofInts?_add (h : (ofInts? x a b).known = true) (h' : (ofInts? x a' b').known = true) :
    (ofInts? x a b).add (ofInts? x a' b') = ofInts? x (a + a') (b + b') := by
  obtain ⟨p, q, rfl, rfl, h⟩ := exists_ofInstr_of_known h
  obtain ⟨p', q', rfl, rfl, h'⟩ := exists_ofInstr_of_known h'
  rw [h, h', ofInstr_add]

theorem ofInts?_sub (h : (ofInts? x a b).known = true) (h' : (ofInts? x a' b').known = true) :
    (ofInts? x a b).sub (ofInts? x a' b') = ofInts? x (a - a') (b - b') := by
  obtain ⟨p, q, rfl, rfl, h⟩ := exists_ofInstr_of_known h
  obtain ⟨p', q', rfl, rfl, h'⟩ := exists_ofInstr_of_known h'
  rw [h, h', ofInstr_sub]

theorem ofInts?_mul_constant (h : (ofInts? x a b).known = true) (c : Int32) :
    (ofInts? x a b).mul (constant c) = ofInts? x (a * c.toInt) (b * c.toInt) := by
  obtain ⟨p, q, rfl, rfl, h⟩ := exists_ofInstr_of_known h
  rw [h, ofInstr_mul_constant]

theorem exists_common_anchor (hu : u.Canonical) (hl : l.Canonical)
    (h : (u.sub l).known = true) :
    ∃ x p q p' q', u = ofInstr x p q ∧ l = ofInstr x p' q' := by
  rcases hu with rfl | ⟨x, p, q, rfl⟩
  · cases h
  rcases hl with rfl | ⟨y, p', q', rfl⟩
  · cases (known_sub_iff.mp h).2.1
  by_cases hp : p = 0
  · subst hp
    exact ⟨y, 0, q, p', q', rfl, rfl⟩
  by_cases hp' : p' = 0
  · subst hp'
    exact ⟨x, p, q, 0, q', rfl, rfl⟩
  obtain rfl : x = y := by
    by_contra hne
    simp [sub, ofInstr, hp, hp', hne, unknown] at h
  exact ⟨x, p, q, p', q', rfl, rfl⟩

theorem Canonical.sub_zero (hv : v.Canonical) : v.sub (constant 0) = v := by
  rcases hv with rfl | ⟨x, p, q, rfl⟩
  · rfl
  · rw [← ofInstr_zero x 0, ofInstr_sub, Int32.toInt_zero, sub_zero, sub_zero,
      ← ofInstr_eq_ofInts?]

/-- Only a constant gives a constant when a constant is added. -/
theorem Canonical.of_add_constant (hu : u.Canonical) {k c : Int32}
    (h : u.add (constant k) = constant c) :
    ∃ b : Int32, u = constant b ∧ b.toInt + k.toInt = c.toInt := by
  have hknown : (u.add (constant k)).known = true := by
    rw [h]
    rfl
  rcases hu with rfl | ⟨x, p, q, rfl⟩
  · cases hknown
  · rw [← ofInstr_zero x k, ofInstr_add, Int32.toInt_zero, add_zero] at h hknown
    obtain ⟨p', q', hp, hq, heq⟩ := exists_ofInstr_of_known hknown
    rw [heq] at h
    obtain rfl : p' = p := Int32.toInt_inj.mp hp
    obtain rfl : p' = 0 := congrArg scale h
    obtain rfl : q' = c := congrArg offset h
    exact ⟨q, ofInstr_zero x q, hq.symm⟩

end Coefficients

end Affine

namespace Interval

open LoopBounds.Affine

/-- Both ends are in canonical form. -/
structure Canonical (x : Interval) : Prop where
  lower : x.lower.Canonical
  upper : x.upper.Canonical

variable (x y : Interval)

theorem canonical_scale (c : Int32) : (x.scale c).Canonical := by
  unfold scale
  dsimp only
  split_ifs
  · exact ⟨canonical_mul _ _, canonical_mul _ _⟩
  · exact ⟨canonical_mul _ _, canonical_mul _ _⟩

theorem canonical_corners (op : Affine → Affine → Affine) : (corners op x y).Canonical := by
  unfold corners
  split
  · exact ⟨canonical_constant _, canonical_constant _⟩
  · exact ⟨canonical_unknown, canonical_unknown⟩

theorem canonical_mul : (x.mul y).Canonical := by
  unfold mul
  split
  · exact canonical_scale _ _
  · exact canonical_scale _ _
  · split_ifs
    · exact ⟨Affine.canonical_mul _ _, Affine.canonical_mul _ _⟩
    · exact ⟨Affine.canonical_mul _ _, Affine.canonical_mul _ _⟩
    · exact ⟨Affine.canonical_mul _ _, Affine.canonical_mul _ _⟩
    · exact ⟨Affine.canonical_mul _ _, Affine.canonical_mul _ _⟩
    · exact canonical_corners _ _ _

theorem canonical_div : (x.div y).Canonical := by
  unfold div
  split_ifs
  · exact ⟨canonical_unknown, canonical_unknown⟩
  · exact ⟨Affine.canonical_div _ _, Affine.canonical_div _ _⟩
  · exact ⟨Affine.canonical_div _ _, Affine.canonical_div _ _⟩
  · exact ⟨Affine.canonical_div _ _, Affine.canonical_div _ _⟩
  · exact ⟨Affine.canonical_div _ _, Affine.canonical_div _ _⟩
  · exact canonical_corners _ _ _

end Interval

namespace Descriptor

open LoopBounds.Affine

/-- Operations on constants and fetched values, comparisons and missing operands included. -/
def AllInvariant : Descriptor → Prop
  | constant _ | fetch _ => True
  | unary _ b => b.AllInvariant
  | binary _ a b => a.AllInvariant ∧ b.AllInvariant
  | _ => False

/-- The bounds are the single bound `u`, as long as every fetched value is bounded by itself. -/
structure Sole (d : Descriptor) (u : Affine) : Prop where
  canonical : u.Canonical
  boundsWith_eq : ∀ {inBody : Bool} {fetched : InstrId → Interval}
    {linears : Descriptor → Descriptor → Interval → Interval → Interval},
    (∀ x, fetched x = .exactly (.ofInstr x 1 0)) → d.boundsWith inBody fetched linears = .exactly u

variable {a b d count t : Descriptor} {u v w : Affine} {inBody : Bool} {c : Int32}

theorem IsTerm.allInvariant (h : d.IsTerm) : d.AllInvariant := by
  induction h with
  | constant | fetch => trivial
  | neg _ ih => exact ih
  | binary _ _ _ iha ihb => exact ⟨iha, ihb⟩

theorem sole_constant (v : Int32) : (constant v).Sole (.constant v) :=
  ⟨canonical_constant v, fun _ => rfl⟩

theorem sole_fetch (x : InstrId) : (fetch x).Sole (.ofInstr x 1 0) :=
  ⟨canonical_ofInstr x 1 0, fun hfetched => hfetched x⟩

theorem Sole.neg (hb : b.Sole w) : (unary .neg b).Sole ((Affine.constant 0).sub w) := by
  refine ⟨canonical_sub _ _, ?_⟩
  intro inBody fetched linears hfetched
  rw [boundsWith, hb.boundsWith_eq hfetched]
  rfl

theorem Sole.add (ha : a.Sole v) (hb : b.Sole w) : (binary .add a b).Sole (v.add w) := by
  refine ⟨canonical_add v w, ?_⟩
  intro inBody fetched linears hfetched
  rw [boundsWith, ha.boundsWith_eq hfetched, hb.boundsWith_eq hfetched]
  rfl

theorem Sole.sub (ha : a.Sole v) (hb : b.Sole w) : (binary .sub a b).Sole (v.sub w) := by
  refine ⟨canonical_sub v w, ?_⟩
  intro inBody fetched linears hfetched
  rw [boundsWith, ha.boundsWith_eq hfetched, hb.boundsWith_eq hfetched]
  rfl

theorem Sole.exists_binary (ha : a.Sole v) (hb : b.Sole w) (op : Operation) :
    ∃ u, (binary op a b).Sole u := by
  have hsole {op : Operation} (u : Affine) (hu : u.Canonical)
      (heq : ∀ {inBody fetched linears}, (∀ x, fetched x = .exactly (.ofInstr x 1 0)) →
        (binary op a b).boundsWith inBody fetched linears = .exactly u) :
      ∃ u, (binary op a b).Sole u := ⟨u, hu, heq⟩
  cases op with
  | add => exact ⟨_, ha.add hb⟩
  | sub => exact ⟨_, ha.sub hb⟩
  | neg =>
    apply hsole ((Affine.constant 0).sub w) (canonical_sub _ w)
    intro _ _ _ hfetched
    rw [boundsWith, hb.boundsWith_eq hfetched]
    rfl
  | mul =>
    obtain ⟨u, hu, -⟩ := Interval.exists_mul_exactly (fun _ => (0 : ℤ)) v w
    have hcanonical := Interval.canonical_mul (.exactly v) (.exactly w)
    rw [hu] at hcanonical
    apply hsole u hcanonical.upper
    intro _ _ _ hfetched
    rw [boundsWith, ha.boundsWith_eq hfetched, hb.boundsWith_eq hfetched]
    exact hu
  | div =>
    obtain ⟨u, hu, -⟩ := Interval.exists_div_exactly (fun _ => (0 : ℤ)) v w
    have hcanonical := Interval.canonical_div (.exactly v) (.exactly w)
    rw [hu] at hcanonical
    apply hsole u hcanonical.upper
    intro _ _ _ hfetched
    rw [boundsWith, ha.boundsWith_eq hfetched, hb.boundsWith_eq hfetched]
    exact hu
  | _ => exact hsole .unknown canonical_unknown fun _ => rfl

theorem AllInvariant.exists_sole (h : d.AllInvariant) : ∃ u, d.Sole u := by
  induction d with
  | constant v => exact ⟨_, sole_constant v⟩
  | fetch x => exact ⟨_, sole_fetch x⟩
  | unary op b ih =>
    obtain ⟨w, hw⟩ := ih h
    cases op with
    | neg => exact ⟨_, hw.neg⟩
    | _ => exact ⟨.unknown, canonical_unknown, fun _ => rfl⟩
  | binary op a b iha ihb =>
    obtain ⟨v, hv⟩ := iha h.1
    obtain ⟨w, hw⟩ := ihb h.2
    exact hv.exists_binary hw op
  | _ => exact h.elim

theorem Sole.unique (hv : d.Sole v) (hw : d.Sole w) : v = w := by
  have hcount : d.countBounds none true = .exactly v := hv.boundsWith_eq (fetchBounds_none true)
  have hcount' : d.countBounds none true = .exactly w := hw.boundsWith_eq (fetchBounds_none true)
  exact congrArg Interval.lower (hcount.symm.trans hcount')

theorem fetchBounds_of_not_fetch (hcount : t.count? = some count) (hfetch : count.asFetch? = none)
    (x : InstrId) : fetchBounds (some t) inBody x = .exactly (.ofInstr x 1 0) := by
  simp [fetchBounds, hcount, hfetch]

theorem Sole.bounds_eq (h : d.Sole u) (hcount : t.count? = some count)
    (hfetch : count.asFetch? = none) (inBody : Bool) :
    d.bounds (some t) inBody = .exactly u :=
  h.boundsWith_eq (fetchBounds_of_not_fetch hcount hfetch)

theorem Sole.countBounds_eq (h : d.Sole u) (hcount : t.count? = some count)
    (hfetch : count.asFetch? = none) (inBody : Bool) :
    d.countBounds (some t) inBody = .exactly u :=
  h.boundsWith_eq (fetchBounds_of_not_fetch hcount hfetch)

/-- A descriptor that is always `c` has `c` as its only bound. -/
theorem Sole.eq_constant (h : d.Sole u) (hc : d.always? = some c) : u = .constant c := by
  have hbounds : d.countBounds none true = .exactly u := h.boundsWith_eq (fetchBounds_none true)
  have hconstant := constantBounds?_of_always? hc
  unfold constantBounds? at hconstant
  split at hconstant
  · obtain rfl : Affine.constant _ = u := congrArg Interval.upper hbounds
    cases hconstant
    rfl
  · rw [hbounds] at hconstant
    dsimp only [Interval.exactly] at hconstant
    split at hconstant
    · rename_i lo hi hlo hhi
      split_ifs at hconstant
      cases hconstant
      exact h.canonical.eq_constant hhi
    · cases hconstant

theorem Sole.constantBounds?_eq (h : d.Sole (.constant c)) : d.constantBounds? = some (c, c) := by
  have hbounds : d.countBounds none true = .exactly (.constant c) :=
    h.boundsWith_eq (fetchBounds_none true)
  have hconstant : (Affine.constant c).constant? = some c := rfl
  unfold constantBounds?
  split
  · obtain rfl := congrArg Affine.offset (congrArg Interval.upper hbounds)
    rfl
  · rw [hbounds]
    simp [Interval.exactly, hconstant]

end Descriptor

end LoopBounds
