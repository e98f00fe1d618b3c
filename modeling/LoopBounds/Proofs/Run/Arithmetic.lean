import LoopBounds.Word
import LoopBounds.Proofs.Run.Lap

/-!
# Words read in a ring

What is proved of the values of a run is proved once for two readings: words as they are,
in the ring of words, where arithmetic wraps around, and words as integers, as long as no
result leaves the word range. In both a word reads as the image of its integer value. A
result is faithful when its word still reads as the exact result.
-/

namespace LoopBounds

instance Int32.instCommRing : CommRing Int32 where
  add_assoc := Int32.add_assoc
  zero_add := Int32.zero_add
  add_zero := Int32.add_zero
  nsmul := nsmulRec
  add_comm := Int32.add_comm
  left_distrib _ _ _ := Int32.mul_add
  right_distrib _ _ _ := Int32.add_mul
  zero_mul _ := Int32.zero_mul
  mul_zero _ := Int32.mul_zero
  mul_assoc := Int32.mul_assoc
  one_mul := Int32.one_mul
  mul_one := Int32.mul_one
  natCast n := Int32.ofInt n
  natCast_zero := rfl
  natCast_succ n := by simp [Int32.ofInt_add]
  sub_eq_add_neg := Int32.sub_eq_add_neg
  zsmul := zsmulRec
  neg_add_cancel := Int32.add_left_neg
  intCast := Int32.ofInt
  intCast_ofNat _ := rfl
  intCast_negSucc n := by rw [Int.negSucc_eq, Int32.ofInt_neg]; rfl
  mul_comm := Int32.mul_comm

/-- A ring in which words can be read, with a quotient for them. -/
class Arithmetic (R : Type) extends CommRing R where
  quot : R → R → R
  /-- The exact results that their words read as. -/
  Faithful : ℤ → Prop
  cast_ofInt : ∀ z, Faithful z → (((Int32.ofInt z).toInt : ℤ) : R) = (z : R)
  quot_cast : ∀ x y : Int32,
    quot ((x.toInt : ℤ) : R) ((y.toInt : ℤ) : R) = ((x.toInt.tdiv y.toInt : ℤ) : R)
  cast_injective : ∀ x y : Int32, ((x.toInt : ℤ) : R) = ((y.toInt : ℤ) : R) → x = y
  quot_one : ∀ r, quot r 1 = r
  quot_neg_one : ∀ r, quot r (-1) = -r

/-- Words as integers: results in the word range are exact. -/
instance : Arithmetic ℤ where
  quot := Int.tdiv
  Faithful z := -2 ^ 31 ≤ z ∧ z < 2 ^ 31
  cast_ofInt z hz := Int32.toInt_ofInt_of_le hz.1 hz.2
  quot_cast _ _ := rfl
  cast_injective _ _ h := Int32.toInt_inj.mp h
  quot_one := Int.tdiv_one
  quot_neg_one r := by rw [Int.tdiv_neg, Int.tdiv_one]

theorem Int32.cast_eq_ofInt (z : ℤ) : (z : Int32) = Int32.ofInt z := rfl

@[simp] theorem Int32.cast_toInt (w : Int32) : ((w.toInt : ℤ) : Int32) = w := Int32.ofInt_toInt w

/-- Words as they are: every result wraps around to its word. -/
instance : Arithmetic Int32 where
  quot := (· / ·)
  Faithful _ := True
  cast_ofInt z _ := by rw [Int32.cast_toInt, Int32.cast_eq_ofInt]
  quot_cast x y := by
    rw [Int32.cast_toInt, Int32.cast_toInt, ← Int32.toInt_inj, Int32.toInt_div,
      Int32.cast_eq_ofInt, Int32.toInt_ofInt]
  cast_injective x y h := by rwa [Int32.cast_toInt, Int32.cast_toInt] at h
  quot_one _ := Int32.div_one
  quot_neg_one r := by
    have hone : (-1 : Int32).toInt = -1 := by decide
    rw [← Int32.toInt_inj, Int32.toInt_div, hone, Int.tdiv_neg, Int.tdiv_one, Int32.toInt_neg]

section Words

variable {R : Type} [Arithmetic R]

/-- The word `w` in the ring. -/
def ofWord (R : Type) [Arithmetic R] (w : Int32) : R := ((w.toInt : ℤ) : R)

@[simp] theorem ofWord_zero : ofWord R 0 = 0 := Int.cast_zero

@[simp] theorem ofWord_one : ofWord R 1 = 1 := Int.cast_one

@[simp] theorem ofWord_neg_one : ofWord R (-1) = -1 := by
  rw [ofWord, show (-1 : Int32).toInt = -1 by decide, Int.cast_neg, Int.cast_one]

variable {x y w : Int32}

theorem ofWord_add? (h : Word.add? x y = some w) : ofWord R w = ofWord R x + ofWord R y := by
  rw [ofWord, Word.narrow?_eq_some_iff.mp h, Int.cast_add]
  rfl

theorem ofWord_sub? (h : Word.sub? x y = some w) : ofWord R w = ofWord R x - ofWord R y := by
  rw [ofWord, Word.narrow?_eq_some_iff.mp h, Int.cast_sub]
  rfl

theorem ofWord_mul? (h : Word.mul? x y = some w) : ofWord R w = ofWord R x * ofWord R y := by
  rw [ofWord, Word.narrow?_eq_some_iff.mp h, Int.cast_mul]
  rfl

theorem ofWord_neg? (h : Word.neg? x = some w) : ofWord R w = -ofWord R x := by
  rw [ofWord, Word.narrow?_eq_some_iff.mp h, Int.cast_neg]
  rfl

theorem ofWord_div? (h : Word.div? x y = some w) :
    ofWord R w = Arithmetic.quot (ofWord R x) (ofWord R y) := by
  unfold Word.div? at h
  split at h
  · cases h
  · rw [ofWord, Word.narrow?_eq_some_iff.mp h]
    exact (Arithmetic.quot_cast x y).symm

end Words

/-- The exact result of an operation on the integers of two words. -/
def ArithOp.exact (op : ArithOp) (x y : ℤ) : ℤ :=
  match op with
  | .add => x + y
  | .sub => x - y
  | .mul => x * y
  | .div => x.tdiv y
  | .rem => x.tmod y
  | .shl => x * 2 ^ y.toNat

/-- The exact result of an instruction that computes in the integers. -/
def Instr.exactValue? (env : Env) : Instr → Option ℤ
  | .arith op x y => some (op.exact (env x).toInt (env y).toInt)
  | .neg x => some (-(env x).toInt)
  | _ => none

/-- The next result of the run lies in the word range. -/
def Func.InRange (f : Func) (s : State) : Prop :=
  ∀ x ∈ s.rest.head?, ∀ z ∈ (f.instr x).exactValue? s.env, -2 ^ 31 ≤ z ∧ z < 2 ^ 31

instance (f : Func) : DecidablePred f.InRange := fun s =>
  inferInstanceAs (Decidable (∀ x ∈ s.rest.head?, ∀ z ∈ (f.instr x).exactValue? s.env,
    -2 ^ 31 ≤ z ∧ z < 2 ^ 31))

/-- The next result of the run reads as the exact one. -/
def Func.Reads (f : Func) (R : Type) [Arithmetic R] (s : State) : Prop :=
  ∀ x ∈ s.rest.head?, ∀ z ∈ (f.instr x).exactValue? s.env, Arithmetic.Faithful R z

theorem Func.reads_int32 (f : Func) (s : State) : f.Reads Int32 s := fun _ _ _ _ => trivial

theorem ArithOp.result?_eq_ofInt {op : ArithOp} {x y w : Int32} (h : op.result? x y = some w)
    (hrem : op ≠ .rem) (hshl : op ≠ .shl) : w = Int32.ofInt (op.exact x.toInt y.toInt) := by
  cases op with
  | add => simpa [result?, exact, eq_comm] using h
  | sub => simpa [result?, exact, eq_comm] using h
  | mul => simpa [result?, exact, eq_comm] using h
  | div =>
    simp only [result?] at h
    split at h
    · cases h
    · rw [← Option.some.inj h, ← Int32.toInt_inj, Int32.toInt_div, exact, Int32.toInt_ofInt]
  | rem => exact absurd rfl hrem
  | shl => exact absurd rfl hshl

theorem ArithOp.shl_eq_ofInt {x y : Int32} (hl : 0 ≤ y.toInt) (hu : y.toInt < 32) :
    x <<< y = Int32.ofInt (x.toInt * 2 ^ y.toInt.toNat) := by
  have hk : (y.toBitVec.smod 32).toNat = y.toInt.toNat := by
    have h : (y.toBitVec.smod 32).toInt = y.toInt := by
      rw [BitVec.toInt_smod]
      exact Int.fmod_eq_of_lt hl hu
    have := (y.toBitVec.smod 32).isLt
    rw [BitVec.toInt_eq_toNat_cond] at h
    split at h <;> omega
  rw [← Int32.toBitVec_inj, Int32.toBitVec_shiftLeft, BitVec.shiftLeft_eq', hk,
    BitVec.shiftLeft_eq_mul_twoPow, Int32.ofInt_mul, Int32.toBitVec_mul, Int32.ofInt_toInt,
    Int32.toBitVec_ofInt]
  congr 1
  apply BitVec.eq_of_toNat_eq
  rw [BitVec.toNat_twoPow, BitVec.toNat_ofInt]
  norm_cast

section Reading

variable {R : Type} [Arithmetic R]

theorem cast_of_result? {op : ArithOp} {x y w : Int32} (h : op.result? x y = some w)
    (hrem : op ≠ .rem) (hshl : op = .shl → 0 ≤ y.toInt ∧ y.toInt < 32)
    (hz : Arithmetic.Faithful R (op.exact x.toInt y.toInt)) :
    ofWord R w = ((op.exact x.toInt y.toInt : ℤ) : R) := by
  have hw : w = Int32.ofInt (op.exact x.toInt y.toInt) := by
    by_cases hop : op = .shl
    · obtain ⟨hl, hu⟩ := hshl hop
      subst hop
      rw [← Option.some.inj h, ArithOp.shl_eq_ofInt hl hu, ArithOp.exact]
    · exact ArithOp.result?_eq_ofInt h hrem hop
  rw [hw, ofWord, Arithmetic.cast_ofInt _ hz]

variable (R) in
/-- The values computed last, as the ring reads them. -/
def State.reading (s : State) (x : InstrId) : R := ofWord R (s.env x)

variable {f : Func} {s : State} {x : InstrId} {rest : List InstrId} {v : Int32}

theorem Func.Reads.arith {op : ArithOp} {y z : InstrId} (h : f.Reads R s)
    (hrest : s.rest = x :: rest) (hx : f.instr x = .arith op y z)
    (hv : (f.instr x).value? s.env = some v) (hrem : op ≠ .rem)
    (hshl : op = .shl → 0 ≤ (s.env z).toInt ∧ (s.env z).toInt < 32) :
    ofWord R v = ((op.exact (s.env y).toInt (s.env z).toInt : ℤ) : R) := by
  rw [hx] at hv
  exact cast_of_result? hv hrem hshl (h x (by simp [hrest]) _ (by rw [hx]; rfl))

theorem Func.Reads.neg {y : InstrId} (h : f.Reads R s) (hrest : s.rest = x :: rest)
    (hx : f.instr x = .neg y) (hv : (f.instr x).value? s.env = some v) :
    ofWord R v = -s.reading R y := by
  rw [hx] at hv
  have hz : Arithmetic.Faithful R (-(s.env y).toInt) :=
    h x (by simp [hrest]) _ (by rw [hx]; rfl)
  have hw : v = Int32.ofInt (-(s.env y).toInt) := by
    simpa [Instr.value?, eq_comm] using hv
  rw [hw, ofWord, Arithmetic.cast_ofInt _ hz, Int.cast_neg, State.reading, ofWord]

end Reading

end LoopBounds
