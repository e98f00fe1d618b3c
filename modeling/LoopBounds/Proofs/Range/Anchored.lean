import LoopBounds.Descriptor.Bounds
import LoopBounds.Proofs.Descriptor.Fetched

/-!
# What bounds are anchored to

The operations of affine bounds take their anchor from an operand. So the bounds of a descriptor
are anchored to values that the descriptor or the trip count fetches.
-/

namespace LoopBounds

variable {P : InstrId → Prop}

namespace Affine

/-- The anchor, if there is one, has the property. -/
def AnchoredIn (P : InstrId → Prop) (v : Affine) : Prop := ∀ x ∈ v.anchor, P x

variable {v w : Affine} {x : Option InstrId}

theorem anchoredIn_constant (b : Int32) : (constant b).AnchoredIn P := by
  simp [AnchoredIn, constant]

theorem anchoredIn_unknown : unknown.AnchoredIn P := by simp [AnchoredIn, unknown]

theorem anchoredIn_ofInstr {y : InstrId} (hy : P y) (a b : Int32) :
    (ofInstr y a b).AnchoredIn P := by
  simp [AnchoredIn, ofInstr, hy]

theorem anchoredIn_anchored (hx : ∀ y ∈ x, P y) (a b : Int32) : (anchored x a b).AnchoredIn P := by
  cases x with
  | none => exact anchoredIn_constant b
  | some y => exact anchoredIn_ofInstr (hx y rfl) a b

theorem anchoredIn_anchored? (hx : ∀ y ∈ x, P y) (a b : Option Int32) :
    (anchored? x a b).AnchoredIn P := by
  unfold anchored?
  split
  · exact anchoredIn_anchored hx _ _
  · exact anchoredIn_unknown

theorem AnchoredIn.times (hv : v.AnchoredIn P) (c : Int32) : (v.times c).AnchoredIn P :=
  anchoredIn_anchored? hv _ _

theorem AnchoredIn.add (hv : v.AnchoredIn P) (hw : w.AnchoredIn P) : (v.add w).AnchoredIn P := by
  unfold Affine.add
  split_ifs
  · exact anchoredIn_anchored? hw _ _
  · exact anchoredIn_anchored? hv _ _
  · exact anchoredIn_anchored? hv _ _
  · exact anchoredIn_unknown
  · exact anchoredIn_unknown

theorem AnchoredIn.sub (hv : v.AnchoredIn P) (hw : w.AnchoredIn P) : (v.sub w).AnchoredIn P := by
  unfold Affine.sub
  split_ifs
  · exact anchoredIn_anchored? hw _ _
  · exact anchoredIn_anchored? hv _ _
  · exact anchoredIn_anchored? hv _ _
  · exact anchoredIn_unknown
  · exact anchoredIn_unknown

theorem AnchoredIn.mul (hv : v.AnchoredIn P) (hw : w.AnchoredIn P) : (v.mul w).AnchoredIn P := by
  unfold Affine.mul
  split_ifs
  · exact hw.times _
  · exact hv.times _
  · exact anchoredIn_unknown
  · exact anchoredIn_unknown

theorem anchoredIn_div : (v.div w).AnchoredIn P := by
  unfold div
  split
  · split
    · exact anchoredIn_constant _
    · exact anchoredIn_unknown
  · exact anchoredIn_unknown

theorem AnchoredIn.pickOffset (hv : v.AnchoredIn P) (pick : Int32 → Int32 → Int32) :
    (v.pickOffset pick w).AnchoredIn P := by
  unfold Affine.pickOffset
  split_ifs
  · exact anchoredIn_anchored hv _ _
  · exact anchoredIn_unknown
  · exact anchoredIn_unknown

end Affine

namespace Interval

open LoopBounds.Affine

/-- Both ends are anchored to values with the property. -/
structure AnchoredIn (P : InstrId → Prop) (x : Interval) : Prop where
  lower : x.lower.AnchoredIn P
  upper : x.upper.AnchoredIn P

variable {x y : Interval}

theorem anchoredIn_unknown : unknown.AnchoredIn P :=
  ⟨Affine.anchoredIn_unknown, Affine.anchoredIn_unknown⟩

theorem anchoredIn_constant (b : Int32) : (constant b).AnchoredIn P :=
  ⟨Affine.anchoredIn_constant b, Affine.anchoredIn_constant b⟩

theorem AnchoredIn.sub (hx : x.AnchoredIn P) (hy : y.AnchoredIn P) : (x.sub y).AnchoredIn P :=
  ⟨hx.lower.sub hy.upper, hx.upper.sub hy.lower⟩

theorem AnchoredIn.add (hx : x.AnchoredIn P) (hy : y.AnchoredIn P) : (x.add y).AnchoredIn P :=
  ⟨hx.lower.add hy.lower, hx.upper.add hy.upper⟩

theorem AnchoredIn.neg (hx : x.AnchoredIn P) : x.neg.AnchoredIn P := (anchoredIn_constant 0).sub hx

theorem AnchoredIn.hull (hx : x.AnchoredIn P) (y : Interval) : (x.hull y).AnchoredIn P :=
  ⟨hx.lower.pickOffset lesser, hx.upper.pickOffset greater⟩

theorem AnchoredIn.scale (hx : x.AnchoredIn P) (c : Int32) : (x.scale c).AnchoredIn P := by
  have hc := Affine.anchoredIn_constant (P := P) c
  unfold Interval.scale
  dsimp only
  split_ifs
  · exact ⟨hx.lower.mul hc, hx.upper.mul hc⟩
  · exact ⟨hx.upper.mul hc, hx.lower.mul hc⟩

theorem anchoredIn_corners (op : Affine → Affine → Affine) : (corners op x y).AnchoredIn P := by
  unfold corners
  split
  · exact ⟨Affine.anchoredIn_constant _, Affine.anchoredIn_constant _⟩
  · exact anchoredIn_unknown

theorem AnchoredIn.mul (hx : x.AnchoredIn P) (hy : y.AnchoredIn P) : (x.mul y).AnchoredIn P := by
  unfold Interval.mul
  split
  · exact hy.scale _
  · exact hx.scale _
  · split_ifs
    · exact ⟨hx.lower.mul hy.lower, hx.upper.mul hy.upper⟩
    · exact ⟨hx.upper.mul hy.lower, hx.lower.mul hy.upper⟩
    · exact ⟨hx.lower.mul hy.upper, hx.upper.mul hy.lower⟩
    · exact ⟨hx.upper.mul hy.upper, hx.lower.mul hy.lower⟩
    · exact anchoredIn_corners _

theorem anchoredIn_div : (x.div y).AnchoredIn P := by
  unfold div
  split_ifs
  · exact anchoredIn_unknown
  · exact ⟨Affine.anchoredIn_div, Affine.anchoredIn_div⟩
  · exact ⟨Affine.anchoredIn_div, Affine.anchoredIn_div⟩
  · exact ⟨Affine.anchoredIn_div, Affine.anchoredIn_div⟩
  · exact ⟨Affine.anchoredIn_div, Affine.anchoredIn_div⟩
  · exact anchoredIn_corners _

end Interval

theorem TripKind.anchoredIn_bounds {count : Interval} (h : count.AnchoredIn P) (kind : TripKind)
    (inBody : Bool) : (kind.bounds inBody count).AnchoredIn P := by
  refine ⟨Affine.anchoredIn_constant 0, ?_⟩
  unfold TripKind.bounds
  dsimp only
  split_ifs
  · exact h.upper.sub (Affine.anchoredIn_constant 1)
  · exact Affine.anchoredIn_unknown
  · exact h.upper

namespace Descriptor

open LoopBounds.Interval

variable {d stride start : Descriptor} {trip : Option Descriptor} {inBody : Bool}

theorem anchoredIn_boundsWith {fetchedBounds : InstrId → Interval}
    {linear : Descriptor → Descriptor → Interval → Interval → Interval}
    (hfetch : ∀ x, P x → (fetchedBounds x).AnchoredIn P)
    (hlinear : ∀ a b x y, a.FetchesOnly P → b.FetchesOnly P → x.AnchoredIn P → y.AnchoredIn P →
      (linear a b x y).AnchoredIn P)
    (hd : d.FetchesOnly P) : (d.boundsWith inBody fetchedBounds linear).AnchoredIn P := by
  induction d with
  | constant v => exact anchoredIn_constant v
  | fetch x => exact hfetch x (fetchesOnly_fetch.mp hd)
  | unary op b ih =>
    cases op with
    | neg => exact (ih (fetchesOnly_unary.mp hd)).neg
    | _ => exact anchoredIn_unknown
  | binary op a b iha ihb =>
    obtain ⟨ha, hb⟩ := fetchesOnly_binary.mp hd
    cases op with
    | add => exact (iha ha).add (ihb hb)
    | sub => exact (iha ha).sub (ihb hb)
    | neg => exact (ihb hb).neg
    | mul => exact (iha ha).mul (ihb hb)
    | div => exact anchoredIn_div
    | _ => exact anchoredIn_unknown
  | linear a b iha ihb =>
    obtain ⟨ha, hb⟩ := fetchesOnly_linear.mp hd
    exact hlinear a b _ _ ha hb (iha ha) (ihb hb)
  | periodic a b iha _ => exact (iha (fetchesOnly_periodic.mp hd).1).hull _
  | wrapAround a b iha _ => exact (iha (fetchesOnly_wrapAround.mp hd).1).hull _
  | tripCount kind count ih => exact kind.anchoredIn_bounds (ih hd) inBody
  | guardedCount kind count taken ih _ =>
    exact kind.anchoredIn_bounds (ih (fetchesOnly_guardedCount.mp hd).1) inBody

theorem anchoredIn_fetchBounds {x : InstrId} (hx : P x) :
    (fetchBounds trip inBody x).AnchoredIn P := by
  have hself : (Affine.ofInstr x 1 0).AnchoredIn P := Affine.anchoredIn_ofInstr hx 1 0
  unfold fetchBounds
  dsimp only
  split_ifs
  · exact ⟨Affine.anchoredIn_constant 1, hself⟩
  · exact ⟨hself, hself⟩

theorem anchoredIn_countBounds (hd : d.FetchesOnly P) :
    (d.countBounds trip inBody).AnchoredIn P :=
  anchoredIn_boundsWith (fun _ hx => anchoredIn_fetchBounds hx)
    (fun _ _ _ _ _ _ _ _ => anchoredIn_unknown) hd

theorem FetchesOnly.of_count? {count : Descriptor} (hd : d.FetchesOnly P)
    (h : d.count? = some count) : count.FetchesOnly P := by
  cases d with
  | tripCount kind c => exact Option.some.inj h ▸ hd
  | guardedCount kind c taken => exact Option.some.inj h ▸ (fetchesOnly_guardedCount.mp hd).1
  | _ => cases h

theorem anchoredIn_linearBounds {x y : Interval} (ht : ∀ t ∈ trip, t.FetchesOnly P)
    (hx : x.AnchoredIn P) (hy : y.AnchoredIn P) :
    (linearBounds trip inBody stride start x y).AnchoredIn P := by
  unfold linearBounds
  split
  · exact anchoredIn_unknown
  · rename_i t
    have hgeneral : (linearFormula (t.countBounds (some t) inBody) x y).AnchoredIn P :=
      (hx.mul (anchoredIn_countBounds (ht t rfl))).add hy
    dsimp only
    split
    · rename_i kind hi lo _ hcount
      have hparts := fetchesOnly_binary.mp ((ht t rfl).of_count? hcount)
      split_ifs
      · exact ⟨hgeneral.lower,
          (kind.anchoredIn_bounds (anchoredIn_countBounds hparts.1) inBody).upper⟩
      · exact ⟨(Affine.anchoredIn_constant 0).sub
          (kind.anchoredIn_bounds (anchoredIn_countBounds (fetchesOnly_unary.mpr hparts.2))
            inBody).upper, hgeneral.upper⟩
      · exact hgeneral
    · exact hgeneral

/-- The bounds of a descriptor are anchored to what it or the trip count fetches. -/
theorem anchoredIn_bounds (ht : ∀ t ∈ trip, t.FetchesOnly P) (hd : d.FetchesOnly P) :
    (d.bounds trip inBody).AnchoredIn P :=
  anchoredIn_boundsWith (fun _ hx => anchoredIn_fetchBounds hx)
    (fun _ _ _ _ _ _ hx hy => anchoredIn_linearBounds ht hx hy) hd

end Descriptor

end LoopBounds
