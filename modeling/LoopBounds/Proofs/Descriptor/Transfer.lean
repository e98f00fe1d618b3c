import LoopBounds.Descriptor.Transfer
import LoopBounds.Proofs.Descriptor.Fold

/-!
# Arithmetic on descriptors is sound

An operation with one invariant operand acts on the values of a sequence one by one. What
the five such operations have in common is stated once; they differ in what they do to an
invariant and to a linear sequence.
-/

namespace LoopBounds.Descriptor

variable {R : Type} [Arithmetic R] {ρ : InstrId → R} {d e x y : Descriptor}

/-- The operation `op?` on descriptors acts on values as `g` does. -/
structure ActsAs (ρ : InstrId → R) (op? : Descriptor → Option Descriptor) (g : R → R) :
    Prop where
  term : ∀ {d}, IsTerm d → ∃ e, op? d = some e ∧ TermOf ρ e (g (value ρ d))
  linear : ∀ {a b e}, IsTerm a → IsTerm b → op? (linear a b) = some e →
    ∃ a' b', e = Descriptor.linear a' b' ∧ IsTerm a' ∧ IsTerm b' ∧
      ∀ n : R, value ρ a' * n + value ρ b' = g (value ρ a * n + value ρ b)
  periodic : ∀ a b,
    op? (periodic a b) = do return Descriptor.periodic (← op? a) (← op? b)
  wrapAround : ∀ a b,
    op? (wrapAround a b) = do return Descriptor.wrapAround (← op? a) (← op? b)

namespace ActsAs

variable {op? : Descriptor → Option Descriptor} {g : R → R} (hop : ActsAs ρ op? g)

include hop

theorem term_of_eq (hd : IsTerm d) (h : op? d = some e) : TermOf ρ e (g (value ρ d)) := by
  obtain ⟨e', he, hterm⟩ := hop.term hd
  rw [he, Option.some.injEq] at h
  exact h ▸ hterm

theorem members (hd : ∀ m ∈ d.members, IsTerm m) (h : op? d = some e) :
    (∀ m ∈ e.members, IsTerm m) ∧ e.members.map (value ρ) = (d.members.map (value ρ)).map g := by
  induction d generalizing e with
  | periodic a b _ ihb =>
    rw [hop.periodic] at h
    simp only [bind, pure, Option.bind_eq_some_iff, Option.some.injEq] at h
    obtain ⟨a', ha, b', hb, rfl⟩ := h
    obtain ⟨hta, hva⟩ := hop.term_of_eq (hd a List.mem_cons_self) ha
    obtain ⟨htb, hvb⟩ := ihb (fun m hm => hd m (List.mem_cons_of_mem _ hm)) hb
    refine ⟨List.forall_mem_cons.mpr ⟨hta, htb⟩, ?_⟩
    simp only [Descriptor.members, List.map_cons, hva, hvb]
  | _ =>
    obtain ⟨ht, hv⟩ := hop.term_of_eq (hd _ List.mem_cons_self) h
    rw [ht.members_eq]
    refine ⟨by simpa using ht, ?_⟩
    simp only [Descriptor.members, List.map_cons, List.map_nil, hv]

theorem sound (hd : WellFormed d) (h : op? d = some e) :
    WellFormed e ∧ ∀ {ahead n r}, Describes ahead ρ d n r → Describes ahead ρ e n (g r) := by
  induction hd generalizing e with
  | term hd =>
    obtain ⟨ht, hv⟩ := hop.term_of_eq hd h
    refine ⟨.term ht, fun hr => ?_⟩
    rw [describes_of_isTerm hd] at hr
    rw [describes_of_isTerm ht, hr, hv]
  | linear ha hb =>
    obtain ⟨a', b', rfl, ha', hb', hv⟩ := hop.linear ha hb h
    refine ⟨.linear ha' hb', fun hr => ?_⟩
    exact (congrArg g hr).trans (hv _).symm
  | @periodic a b hm =>
    obtain ⟨hm', hv⟩ := hop.members hm h
    rw [hop.periodic] at h
    simp only [bind, pure, Option.bind_eq_some_iff, Option.some.injEq] at h
    obtain ⟨a', ha, b', hb, rfl⟩ := h
    refine ⟨.periodic hm', ?_⟩
    intro ahead n r hr
    change Repeats ahead _ n (g r)
    rw [hv]
    exact Repeats.map hr g
  | @wrapAround a b ha _ ih =>
    rw [hop.wrapAround] at h
    simp only [bind, pure, Option.bind_eq_some_iff, Option.some.injEq] at h
    obtain ⟨a', ha', b', hb', rfl⟩ := h
    obtain ⟨hta, hva⟩ := hop.term_of_eq ha ha'
    obtain ⟨hwb, hdb⟩ := ih hb'
    refine ⟨.wrapAround hta hwb, ?_⟩
    intro ahead n r hr
    cases n with
    | zero => exact (congrArg g hr).trans hva.symm
    | succ n => exact hdb hr

end ActsAs

theorem neg?_of_isInvariant (h : d.isInvariant = true) : neg? d = some (combine .neg none d) := by
  cases d with
  | constant | fetch | unary | binary => rfl
  | _ => cases h

theorem neg?_actsAs : ActsAs ρ neg? (-·) where
  term h := ⟨_, neg?_of_isInvariant h.isInvariant, termOf_combineNeg h⟩
  linear ha hb h := by
    simp only [neg?, neg?_of_isInvariant ha.isInvariant, neg?_of_isInvariant hb.isInvariant, bind,
      pure, Option.bind_some, Option.some.injEq] at h
    obtain ⟨ha', hva⟩ := termOf_combineNeg (ρ := ρ) ha
    obtain ⟨hb', hvb⟩ := termOf_combineNeg (ρ := ρ) hb
    refine ⟨_, _, h.symm, ha', hb', ?_⟩
    intro n
    simp only [combine, hva, hvb]
    ring
  periodic _ _ := rfl
  wrapAround _ _ := rfl

section Shift

variable {c : Descriptor} (hc : IsTerm c) (minus : Bool)

/-- The sum or the difference of two values. -/
def sumValue (minus : Bool) (r t : R) : R := if minus then r - t else r + t

include hc

theorem termOf_sum (hd : IsTerm d) :
    TermOf ρ (combine (sumOp minus) (some c) d) (sumValue minus (value ρ c) (value ρ d)) := by
  cases minus
  · exact termOf_combineSum hc hd false
  · exact termOf_combineSum hc hd true

omit hc in
theorem shiftFrom_of_isInvariant (h : d.isInvariant = true) :
    shiftFrom minus c d = some (combine (sumOp minus) (some c) d) := by
  cases d with
  | constant | fetch | unary | binary => rfl
  | _ => cases h

omit hc in
theorem shiftBy_of_isInvariant (h : d.isInvariant = true) :
    shiftBy minus c d = some (combine (sumOp minus) (some d) c) := by
  cases d with
  | constant | fetch | unary | binary => rfl
  | _ => cases h

theorem shiftFrom_actsAs : ActsAs ρ (shiftFrom minus c) (sumValue minus (value ρ c)) where
  term h := ⟨_, shiftFrom_of_isInvariant minus h.isInvariant, termOf_sum hc minus h⟩
  linear ha hb h := by
    obtain ⟨hb', hvb⟩ := termOf_sum (ρ := ρ) hc minus hb
    simp only [shiftFrom, shiftFrom_of_isInvariant minus hb.isInvariant, bind, pure,
      Option.bind_some] at h
    cases minus with
    | true =>
      obtain ⟨ha', hva⟩ := termOf_combineNeg (ρ := ρ) ha
      simp only [if_true, neg?_of_isInvariant ha.isInvariant, Option.bind_some,
        Option.some.injEq] at h
      refine ⟨_, _, h.symm, ha', hb', ?_⟩
      intro n
      rw [hvb]
      simp only [combine, hva, sumValue, if_true]
      ring
    | false =>
      simp only [Bool.false_eq_true, if_false, Option.some.injEq] at h
      refine ⟨_, _, h.symm, ha, hb', ?_⟩
      intro n
      rw [hvb]
      simp only [sumValue, Bool.false_eq_true, if_false]
      ring
  periodic _ _ := rfl
  wrapAround _ _ := rfl

theorem shiftBy_actsAs :
    ActsAs ρ (shiftBy minus c) (fun r => sumValue minus r (value ρ c)) where
  term h := ⟨_, shiftBy_of_isInvariant minus h.isInvariant, termOf_sum h minus hc⟩
  linear ha hb h := by
    obtain ⟨hb', hvb⟩ := termOf_sum (ρ := ρ) hb minus hc
    simp only [shiftBy, shiftBy_of_isInvariant minus hb.isInvariant, bind, pure, Option.bind_some,
      Option.some.injEq] at h
    refine ⟨_, _, h.symm, ha, hb', ?_⟩
    intro n
    rw [hvb]
    cases minus
    · simp only [sumValue, Bool.false_eq_true, if_false]
      ring
    · simp only [sumValue, if_true]
      ring
  periodic _ _ := rfl
  wrapAround _ _ := rfl

end Shift

section Scale

variable {c : Descriptor} (hc : IsTerm c)

theorem scaleFrom_of_isInvariant (h : d.isInvariant = true) :
    scaleFrom c d = some (combine .mul (some c) d) := by
  cases d with
  | constant | fetch | unary | binary => rfl
  | _ => cases h

theorem scaleBy_of_isInvariant (h : d.isInvariant = true) :
    scaleBy c d = some (combine .mul (some d) c) := by
  cases d with
  | constant | fetch | unary | binary => rfl
  | _ => cases h

include hc

theorem scaleFrom_actsAs : ActsAs ρ (scaleFrom c) (value ρ c * ·) where
  term h := ⟨_, scaleFrom_of_isInvariant h.isInvariant, termOf_combineMul hc h⟩
  linear ha hb h := by
    simp only [scaleFrom, scaleFrom_of_isInvariant ha.isInvariant,
      scaleFrom_of_isInvariant hb.isInvariant, bind, pure, Option.bind_some, Option.some.injEq] at h
    obtain ⟨ha', hva⟩ := termOf_combineMul (ρ := ρ) hc ha
    obtain ⟨hb', hvb⟩ := termOf_combineMul (ρ := ρ) hc hb
    refine ⟨_, _, h.symm, ha', hb', ?_⟩
    intro n
    simp only [combine, hva, hvb]
    ring
  periodic _ _ := rfl
  wrapAround _ _ := rfl

theorem scaleBy_actsAs : ActsAs ρ (scaleBy c) (· * value ρ c) where
  term h := ⟨_, scaleBy_of_isInvariant h.isInvariant, termOf_combineMul h hc⟩
  linear ha hb h := by
    simp only [scaleBy, scaleBy_of_isInvariant ha.isInvariant,
      scaleBy_of_isInvariant hb.isInvariant, bind, pure, Option.bind_some, Option.some.injEq] at h
    obtain ⟨ha', hva⟩ := termOf_combineMul (ρ := ρ) ha hc
    obtain ⟨hb', hvb⟩ := termOf_combineMul (ρ := ρ) hb hc
    refine ⟨_, _, h.symm, ha', hb', ?_⟩
    intro n
    simp only [combine, hva, hvb]
    ring
  periodic _ _ := rfl
  wrapAround _ _ := rfl

end Scale

/-- The descriptor `d` is well formed and describes the results of `g` on what `x` and `y`
describe. -/
def ResultOf (ρ : InstrId → R) (g : R → R → R) (x y d : Descriptor) : Prop :=
  WellFormed d ∧ ∀ {ahead n r t}, Describes ahead ρ x n r → Describes ahead ρ y n t →
    Describes ahead ρ d n (g r t)

section Pairs

variable (hx : WellFormed x) (hy : WellFormed y)

include hx hy

theorem resultOf_left {op? : Descriptor → Option Descriptor} {g : R → R → R}
    (hi : x.isInvariant = true) (hop : ActsAs ρ op? (g (value ρ x))) (h : op? y = some d) :
    ResultOf ρ g x y d := by
  obtain ⟨hd, hr⟩ := hop.sound hy h
  refine ⟨hd, fun hrx hry => ?_⟩
  rw [describes_of_isTerm (hx.isTerm hi)] at hrx
  exact hrx ▸ hr hry

theorem resultOf_right {op? : Descriptor → Option Descriptor} {g : R → R → R}
    (hi : y.isInvariant = true) (hop : ActsAs ρ op? (fun r => g r (value ρ y)))
    (h : op? x = some d) : ResultOf ρ g x y d := by
  obtain ⟨hd, hr⟩ := hop.sound hx h
  refine ⟨hd, fun hrx hry => ?_⟩
  rw [describes_of_isTerm (hy.isTerm hi)] at hry
  exact hry ▸ hr hrx

theorem resultOf_sum? (minus : Bool) (h : sum? minus x y = some d) :
    ResultOf ρ (sumValue minus) x y d := by
  unfold sum? at h
  split_ifs at h with hix hiy
  · exact resultOf_left hx hy hix (shiftFrom_actsAs (hx.isTerm hix) minus) h
  · exact resultOf_right hx hy hiy (shiftBy_actsAs (hy.isTerm hiy) minus) h
  · split at h
    · rename_i a b a' b'
      cases hx with
      | term hx => cases hx
      | linear ha hb =>
      cases hy with
      | term hy => cases hy
      | linear ha' hb' =>
      have hsum {x y : Descriptor} (hx : IsTerm x) (hy : IsTerm y) :
          sum? minus x y = some (combine (sumOp minus) (some x) y) := by
        unfold sum?
        rw [if_pos hx.isInvariant, shiftFrom_of_isInvariant minus hy.isInvariant]
      simp only [hsum ha ha', hsum hb hb', bind, pure, Option.bind_some,
        Option.some.injEq] at h
      subst h
      obtain ⟨hta, hva⟩ := termOf_sum (ρ := ρ) ha minus ha'
      obtain ⟨htb, hvb⟩ := termOf_sum (ρ := ρ) hb minus hb'
      refine ⟨.linear hta htb, ?_⟩
      intro ahead n r t hr ht
      change r = value ρ a * n + value ρ b at hr
      change t = value ρ a' * n + value ρ b' at ht
      change sumValue minus r t = value ρ _ * n + value ρ _
      rw [hva, hvb, hr, ht]
      cases minus
      · simp only [sumValue, Bool.false_eq_true, if_false]
        ring
      · simp only [sumValue, if_true]
        ring
    · cases h

theorem resultOf_mul? (h : mul? x y = some d) : ResultOf ρ (· * ·) x y d := by
  unfold mul? at h
  split_ifs at h with hix hiy
  · exact resultOf_left hx hy hix (scaleFrom_actsAs (hx.isTerm hix)) h
  · exact resultOf_right hx hy hiy (scaleBy_actsAs (hy.isTerm hiy)) h

theorem resultOf_div? (h : div? x y = some d) : ResultOf ρ Arithmetic.quot x y d := by
  unfold div? at h
  split_ifs at h with hi
  rw [Bool.and_eq_true] at hi
  have hx := hx.isTerm hi.1
  have hy := hy.isTerm hi.2
  obtain ⟨ht, hv⟩ := termOf_combineDiv (ρ := ρ) hx hy
  cases h
  refine ⟨.term ht, fun hr ht' => ?_⟩
  rw [describes_of_isTerm hx] at hr
  rw [describes_of_isTerm hy] at ht'
  rw [hr, ht']
  exact (describes_of_isTerm ht).mpr hv.symm

omit hy in
/-- A shift multiplies by a power of two, which is a positive word. -/
theorem shl?_sound {k : ℤ} (h : shl? x k = some d) :
    (0 ≤ k ∧ k < 31) ∧ WellFormed d ∧ ∀ {ahead n r}, Describes ahead ρ x n r →
      Describes ahead ρ d n (r * 2 ^ k.toNat) := by
  unfold shl? at h
  split_ifs at h with hk
  obtain ⟨hd, hr⟩ := resultOf_mul? (ρ := ρ) hx (.term (.constant _)) h
  refine ⟨hk, hd, ?_⟩
  intro ahead n r hx
  have hpow : ofWord R (Int32.ofNat (1 <<< k.toNat)) = 2 ^ k.toNat := by
    have hlt : 1 <<< k.toNat < 2 ^ 31 := by
      rw [Nat.one_shiftLeft]
      exact Nat.pow_lt_pow_right (by decide) (by omega)
    rw [ofWord, Int32.toInt_ofNat_of_lt hlt, Nat.one_shiftLeft]
    push_cast
    rfl
  exact hr hx hpow.symm

end Pairs

end LoopBounds.Descriptor
