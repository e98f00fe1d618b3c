import LoopBounds.Proofs.Range.Canonical
import LoopBounds.Proofs.Range.Interval

/-!
# Exact arithmetic on bounds

The operations on bounds are exact, and they lose nothing but overflow. A known result denotes the
sum, difference, product, quotient, minimum or maximum of what the operands denote. It is unknown
only if an operand is, if it is no multiple of one instruction with an offset, or if one of the
coefficients that it would have is no word.
-/

namespace LoopBounds.Affine

theorem canonical_iff {v : Affine} :
    v.Canonical ↔ v = unknown ∨ v.known = true ∧ (v.anchor = none ↔ v.scale = 0) := by
  refine or_congr_right ⟨?_, ?_⟩
  · rintro ⟨x, a, b, rfl⟩
    simp [ofInstr]
  · obtain ⟨known, anchor, scale, offset⟩ := v
    rintro ⟨rfl, hanchor⟩
    cases anchor with
    | none => exact ⟨⟨0⟩, scale, offset, by simp_all [ofInstr]⟩
    | some x => exact ⟨x, scale, offset, by simp_all [ofInstr]⟩

section Reading

variable {v w : Affine}

theorem Canonical.exists_read_eq (h : v.Canonical) :
    ∃ x, (v.scale ≠ 0 → v.anchor = some x) ∧
      ∀ ρ : InstrId → ℤ, v.read ρ = v.scale.toInt * ρ x + v.offset.toInt := by
  rcases canonical_iff.mp h with rfl | ⟨-, hanchor⟩
  · exact ⟨⟨0⟩, fun hne => absurd rfl hne, fun ρ => by simp [read, unknown]⟩
  cases hv : v.anchor with
  | none =>
    have hscale : v.scale = 0 := hanchor.mp hv
    exact ⟨⟨0⟩, fun hne => absurd hscale hne, fun ρ => by simp [read, hv, hscale]⟩
  | some x => exact ⟨x, fun _ => rfl, fun ρ => by simp [read, hv]⟩

theorem Canonical.exists_common_read_eq (hv : v.Canonical) (hw : w.Canonical)
    (h : v.scale = 0 ∨ w.scale = 0 ∨ v.anchor = w.anchor) : ∃ x, ∀ ρ : InstrId → ℤ,
      v.read ρ = v.scale.toInt * ρ x + v.offset.toInt ∧
        w.read ρ = w.scale.toInt * ρ x + w.offset.toInt := by
  obtain ⟨x, hx, hreadv⟩ := hv.exists_read_eq
  obtain ⟨y, hy, hreadw⟩ := hw.exists_read_eq
  by_cases hv₀ : v.scale = 0
  · exact ⟨y, fun ρ => ⟨by rw [hreadv, hv₀, Int32.toInt_zero, zero_mul, zero_mul], hreadw ρ⟩⟩
  by_cases hw₀ : w.scale = 0
  · exact ⟨x, fun ρ => ⟨hreadv ρ, by rw [hreadw, hw₀, Int32.toInt_zero, zero_mul, zero_mul]⟩⟩
  have hanchor : v.anchor = w.anchor := (h.resolve_left hv₀).resolve_left hw₀
  obtain rfl : x = y := Option.some.inj ((hx hv₀).symm.trans (hanchor.trans (hy hw₀)))
  exact ⟨x, fun ρ => ⟨hreadv ρ, hreadw ρ⟩⟩

end Reading

/-- The operations on bounds. -/
inductive Op where
  | add
  | sub
  | mul
  | div
  | min
  | max

namespace Op

def apply : Op → Affine → Affine → Affine
  | add => Affine.add
  | sub => Affine.sub
  | mul => Affine.mul
  | div => Affine.div
  | min => Affine.min
  | max => Affine.max

/-- The operation on integers. Division is towards zero. -/
def exact : Op → ℤ → ℤ → ℤ
  | add => (· + ·)
  | sub => (· - ·)
  | mul => (· * ·)
  | div => Int.tdiv
  | min => Min.min
  | max => Max.max

/-- The result is a multiple of one instruction with an offset. -/
def Expressible (v w : Affine) : Op → Prop
  | add | sub => v.scale = 0 ∨ w.scale = 0 ∨ v.anchor = w.anchor
  | mul => v.scale = 0 ∨ w.scale = 0
  | div => v.scale = 0 ∧ w.scale = 0 ∧ w.offset ≠ 0
  | min | max => v.anchor = w.anchor ∧ v.scale = w.scale

/-- The scale of an expressible result. -/
def scale (v w : Affine) : Op → ℤ
  | add => v.scale.toInt + w.scale.toInt
  | sub => v.scale.toInt - w.scale.toInt
  | mul => v.scale.toInt * w.offset.toInt + w.scale.toInt * v.offset.toInt
  | div => 0
  | min | max => v.scale.toInt

/-- The offset of an expressible result. -/
def offset (v w : Affine) (op : Op) : ℤ := op.exact v.offset.toInt w.offset.toInt

variable (op : Op) (v w : Affine)

theorem canonical_apply : (op.apply v w).Canonical := by
  cases op with
  | add => exact canonical_add v w
  | sub => exact canonical_sub v w
  | mul => exact canonical_mul v w
  | div => exact canonical_div v w
  | min => exact canonical_pickOffset v w lesser
  | max => exact canonical_pickOffset v w greater

theorem both_of_read?_apply {ρ : InstrId → ℤ} {r : ℤ} (h : (op.apply v w).read? ρ = some r) :
    Both ρ op.exact v w r := by
  cases op with
  | add => exact read?_add h
  | sub => exact read?_sub h
  | mul => exact read?_mul h
  | div => exact read?_div h
  | min => exact read?_min h
  | max => exact read?_max h

theorem known_apply_iff : (op.apply v w).known = true ↔ v.known = true ∧ w.known = true ∧
    op.Expressible v w ∧ IsWord (op.scale v w) ∧ IsWord (op.offset v w) := by
  cases op with
  | add => exact known_add_iff
  | sub => exact known_sub_iff
  | mul => exact known_mul_iff
  | div =>
    have hscale : IsWord (div.scale v w) := isWord_toInt 0
    rw [and_iff_right hscale]
    exact known_div_iff
  | min =>
    have hscale : IsWord (min.scale v w) := isWord_toInt v.scale
    have hoffset : IsWord (min.offset v w) := by
      rw [offset, exact, ← toInt_lesser]
      exact isWord_toInt _
    rw [and_iff_right hscale, and_iff_left hoffset]
    exact known_pickOffset_iff lesser
  | max =>
    have hscale : IsWord (max.scale v w) := isWord_toInt v.scale
    have hoffset : IsWord (max.offset v w) := by
      rw [offset, exact, ← toInt_greater]
      exact isWord_toInt _
    rw [and_iff_right hscale, and_iff_left hoffset]
    exact known_pickOffset_iff greater

variable {op v w}

theorem Expressible.anchors (h : op.Expressible v w) :
    v.scale = 0 ∨ w.scale = 0 ∨ v.anchor = w.anchor := by
  cases op with
  | add | sub => exact h
  | mul => exact h.imp_right .inl
  | div => exact .inl h.1
  | min | max => exact .inr (.inr h.1)

/-- An expressible result is its scale times an instruction, and its offset, whether these are words
or not. -/
theorem Expressible.exists_exact_eq (h : op.Expressible v w) (hv : v.Canonical)
    (hw : w.Canonical) : ∃ x, ∀ ρ : InstrId → ℤ,
      op.exact (v.read ρ) (w.read ρ) = op.scale v w * ρ x + op.offset v w := by
  obtain ⟨x, hread⟩ := hv.exists_common_read_eq hw h.anchors
  refine ⟨x, fun ρ => ?_⟩
  rw [(hread ρ).1, (hread ρ).2]
  cases op with
  | add | sub =>
    simp only [exact, scale, offset]
    ring
  | mul =>
    simp only [exact, scale, offset]
    rcases h with h | h <;> rw [h, Int32.toInt_zero] <;> ring
  | div =>
    obtain ⟨hv₀, hw₀, -⟩ := h
    simp [exact, scale, offset, hv₀, hw₀]
  | min | max =>
    simp only [exact, scale, offset, h.2]
    omega

/-- The operations on canonical bounds give canonical bounds. A known result denotes exactly the
result of what the operands denote, and both of these are known. It is known exactly if both
operands are, the result is a multiple of one instruction with an offset, and its coefficients are
words. -/
theorem exact_apply (op : Op) {v w : Affine} (hv : v.Canonical) (hw : w.Canonical) :
    (op.apply v w).Canonical ∧
    (∀ (ρ : InstrId → ℤ) (r : ℤ), (op.apply v w).read? ρ = some r → Both ρ op.exact v w r) ∧
    ((op.apply v w).known = true ↔ v.known = true ∧ w.known = true ∧
      op.Expressible v w ∧ IsWord (op.scale v w) ∧ IsWord (op.offset v w)) ∧
    (op.Expressible v w → ∃ x, ∀ ρ : InstrId → ℤ,
      op.exact (v.read ρ) (w.read ρ) = op.scale v w * ρ x + op.offset v w) :=
  ⟨op.canonical_apply v w, fun _ _ => op.both_of_read?_apply v w, op.known_apply_iff v w,
    fun h => h.exists_exact_eq hv hw⟩

/-- The anchor vanishes from a sum in which the scales cancel. -/
theorem exact_cancelling :
    (Op.add.apply (ofInstr ⟨1⟩ 1 (-4)) (ofInstr ⟨1⟩ (-1) (-1))).read? (fun _ => (7 : ℤ)) =
        some (-5) ∧
      Both (fun _ => (7 : ℤ)) (· + ·) (ofInstr ⟨1⟩ 1 (-4)) (ofInstr ⟨1⟩ (-1) (-1)) (-5) := by
  have hread : (Op.add.apply (ofInstr ⟨1⟩ 1 (-4)) (ofInstr ⟨1⟩ (-1) (-1))).read?
      (fun _ => (7 : ℤ)) = some (-5) := rfl
  obtain ⟨-, hboth, -⟩ :=
    Op.exact_apply .add (canonical_ofInstr ⟨1⟩ 1 (-4)) (canonical_ofInstr ⟨1⟩ (-1) (-1))
  exact ⟨hread, hboth _ _ hread⟩

end Op

end LoopBounds.Affine
