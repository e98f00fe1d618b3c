import LoopBounds.Proofs.Descriptor.Evaluation

/-!
# Arithmetic on descriptors commutes with evaluation

A sequence is evaluated iteration by iteration, and only the parts that an iteration reads need
a value. Arithmetic on descriptors is carried out exactly where it can be: whenever the operands
have values in an iteration, the result has there the result of the operation on these values.
-/

namespace LoopBounds.Descriptor

/-- Sequences of invariants, whatever their operations. -/
inductive Regular : Descriptor → Prop
  | invariant {d} : d.AllInvariant → Regular d
  | linear {a b} : a.AllInvariant → b.AllInvariant → Regular (linear a b)
  | periodic {a b} : (∀ m ∈ (periodic a b).members, m.AllInvariant) → Regular (periodic a b)
  | wrapAround {a b} : a.AllInvariant → Regular b → Regular (wrapAround a b)

variable {R : Type} [Arithmetic R] [DecidableEq R] [LT R] [LE R] [DecidableLT R] [DecidableLE R]

/-- The value in iteration `n`, where `ρ` reads the fetched values. -/
def evalAt? (ρ : InstrId → R) : Descriptor → ℕ → Option R
  | linear a b, n => do return (← a.eval? ρ) * n + (← b.eval? ρ)
  | periodic a b, n =>
      let l := (periodic a b).members
      l[n % l.length]?.bind (eval? ρ)
  | wrapAround a _, 0 => a.eval? ρ
  | wrapAround _ b, n + 1 => b.evalAt? ρ n
  | d, _ => d.eval? ρ

variable {ρ : InstrId → R} {a b c d e x y : Descriptor} {n : ℕ} {r t u : R}

theorem AllInvariant.evalAt?_eq (h : d.AllInvariant) (n : ℕ) : d.evalAt? ρ n = d.eval? ρ := by
  cases d with
  | constant | fetch | unary | binary => rfl
  | _ => exact h.elim

theorem evalAt?_linear : (linear a b).evalAt? ρ n = some r ↔
    ∃ u t, a.eval? ρ = some u ∧ b.eval? ρ = some t ∧ r = u * n + t := by
  simp only [evalAt?, Option.bind_eq_bind, Option.bind_eq_some_iff, Option.pure_def,
    Option.some.injEq]
  constructor
  · rintro ⟨u, hu, t, ht, rfl⟩
    exact ⟨u, t, hu, ht, rfl⟩
  · rintro ⟨u, t, hu, ht, rfl⟩
    exact ⟨u, hu, t, ht, rfl⟩

theorem AllInvariant.members_eq (h : d.AllInvariant) : d.members = [d] := by
  cases d with
  | periodic => exact h.elim
  | _ => rfl

theorem AllInvariant.isInvariant (h : d.AllInvariant) : d.isInvariant = true := by
  cases d with
  | constant | fetch | unary | binary => rfl
  | _ => exact h.elim

theorem Regular.allInvariant (h : d.Regular) (hi : d.isInvariant = true) : d.AllInvariant := by
  cases h with
  | invariant h => exact h
  | _ => cases hi

theorem Regular.exists_linear (h : d.Regular) (hl : d.isLinear = true) :
    ∃ a b, d = Descriptor.linear a b ∧ a.AllInvariant ∧ b.AllInvariant := by
  cases h with
  | @linear a b ha hb => exact ⟨a, b, rfl, ha, hb⟩
  | invariant h =>
    cases d with
    | linear => exact h.elim
    | _ => cases hl
  | _ => cases hl

/-- The operation `op?` on descriptors acts on values as one of the functions `g` with `G ρ g`. -/
structure ActsBy (G : (InstrId → R) → (R → R) → Prop) (op? : Descriptor → Option Descriptor) :
    Prop where
  invariant : ∀ {d}, d.AllInvariant → ∃ e, op? d = some e ∧ e.AllInvariant ∧
    ∀ {ρ g r}, G ρ g → d.eval? ρ = some r → e.eval? ρ = some (g r)
  linear : ∀ {a b}, a.AllInvariant → b.AllInvariant → ∃ a' b',
    op? (linear a b) = some (Descriptor.linear a' b') ∧ a'.AllInvariant ∧ b'.AllInvariant ∧
      ∀ {ρ g r t}, G ρ g → a.eval? ρ = some r → b.eval? ρ = some t →
        ∃ r' t', a'.eval? ρ = some r' ∧ b'.eval? ρ = some t' ∧
          ∀ n : R, r' * n + t' = g (r * n + t)
  periodic : ∀ a b,
    op? (periodic a b) = do return Descriptor.periodic (← op? a) (← op? b)
  wrapAround : ∀ a b,
    op? (wrapAround a b) = do return Descriptor.wrapAround (← op? a) (← op? b)

namespace ActsBy

variable {G : (InstrId → R) → (R → R) → Prop} {op? : Descriptor → Option Descriptor}
variable (hop : ActsBy G op?)

include hop

theorem exists_members (hd : ∀ m ∈ d.members, m.AllInvariant) :
    ∃ e, op? d = some e ∧ (∀ m ∈ e.members, m.AllInvariant) ∧
      List.Forall₂ (fun m m' => ∀ {ρ g r}, G ρ g → m.eval? ρ = some r →
        m'.eval? ρ = some (g r)) d.members e.members := by
  induction d with
  | periodic a b _ ihb =>
    obtain ⟨a', ha', hinv, hact⟩ := hop.invariant (hd a List.mem_cons_self)
    obtain ⟨b', hb', hmem, hall⟩ := ihb fun m hm => hd m (List.mem_cons_of_mem _ hm)
    refine ⟨Descriptor.periodic a' b', ?_, List.forall_mem_cons.mpr ⟨hinv, hmem⟩, .cons hact hall⟩
    rw [hop.periodic, ha', hb']
    rfl
  | _ =>
    obtain ⟨e, he, hinv, hact⟩ := hop.invariant (hd _ List.mem_cons_self)
    refine ⟨e, he, ?_, ?_⟩
    · rw [hinv.members_eq]
      simpa using hinv
    · rw [hinv.members_eq]
      exact .cons hact .nil

theorem exists_result (hd : d.Regular) : ∃ e, op? d = some e ∧ e.Regular ∧
    ∀ {ρ g n r}, G ρ g → d.evalAt? ρ n = some r → e.evalAt? ρ n = some (g r) := by
  induction hd with
  | invariant hd =>
    obtain ⟨e, he, hinv, hact⟩ := hop.invariant hd
    refine ⟨e, he, .invariant hinv, ?_⟩
    intro ρ g n r hg hr
    rw [hd.evalAt?_eq] at hr
    rw [hinv.evalAt?_eq, hact hg hr]
  | linear ha hb =>
    obtain ⟨a', b', he, ha', hb', hact⟩ := hop.linear ha hb
    refine ⟨_, he, .linear ha' hb', ?_⟩
    intro ρ g n r hg hr
    obtain ⟨u, t, hu, ht, rfl⟩ := evalAt?_linear.mp hr
    obtain ⟨u', t', hu', ht', heq⟩ := hact hg hu ht
    exact evalAt?_linear.mpr ⟨u', t', hu', ht', (heq n).symm⟩
  | @periodic a b hm =>
    obtain ⟨e, he, hmem, hall⟩ := hop.exists_members hm
    obtain ⟨a', ha', b', hb', rfl⟩ : ∃ a', op? a = some a' ∧ ∃ b', op? b = some b' ∧
        Descriptor.periodic a' b' = e := by
      simpa [hop.periodic, Option.bind_eq_some_iff] using he
    refine ⟨_, he, .periodic hmem, ?_⟩
    intro ρ g n r hg hr
    obtain ⟨m, hm, hr⟩ := Option.bind_eq_some_iff.mp hr
    obtain ⟨hlt, rfl⟩ := List.getElem?_eq_some_iff.mp hm
    have hlt' : n % (Descriptor.periodic a b).members.length <
        (Descriptor.periodic a' b').members.length := hall.length_eq ▸ hlt
    change (Descriptor.periodic a' b').members[n % (Descriptor.periodic a' b').members.length]?.bind
      _ = _
    rw [← hall.length_eq, List.getElem?_eq_getElem hlt']
    exact hall.get hlt hlt' hg hr
  | @wrapAround a b ha _ ih =>
    obtain ⟨a', ha', hinv, hact⟩ := hop.invariant ha
    obtain ⟨b', hb', hreg, hrest⟩ := ih
    refine ⟨Descriptor.wrapAround a' b', ?_, .wrapAround hinv hreg, ?_⟩
    · rw [hop.wrapAround, ha', hb']
      rfl
    · intro ρ g n r hg hr
      cases n with
      | zero => exact hact hg hr
      | succ n => exact hrest hg hr

end ActsBy

section Operations

theorem AllInvariant.negated (hd : d.AllInvariant) : (combine .neg none d).AllInvariant :=
  allInvariant_combine (fun _ => rfl) nofun hd

theorem AllInvariant.combined (hc : c.AllInvariant) (hd : d.AllInvariant) (op : Operation) :
    (combine op (some c) d).AllInvariant :=
  allInvariant_combine nofun (by simpa using hc) hd

theorem neg?_actsBy : ActsBy (R := R) (fun _ g => g = (-·)) neg? where
  invariant hd := by
    refine ⟨_, neg?_of_isInvariant hd.isInvariant, hd.negated, ?_⟩
    rintro ρ _ r rfl hr
    exact eval?_combineNeg hr hd none
  linear {a b} ha hb := by
    refine ⟨combine .neg none a, combine .neg none b, ?_, ha.negated, hb.negated, ?_⟩
    · rw [neg?, neg?_of_isInvariant ha.isInvariant, neg?_of_isInvariant hb.isInvariant]
      rfl
    · rintro ρ _ r t rfl hr ht
      refine ⟨-r, -t, eval?_combineNeg hr ha none, eval?_combineNeg ht hb none, ?_⟩
      intro n
      ring
  periodic _ _ := rfl
  wrapAround _ _ := rfl

section Shift

variable (hc : c.AllInvariant) (minus : Bool)

theorem eval?_sum (hx : x.AllInvariant) (hy : y.AllInvariant) (hr : x.eval? ρ = some r)
    (ht : y.eval? ρ = some t) :
    (combine (sumOp minus) (some x) y).eval? ρ = some (sumValue minus r t) := by
  cases minus
  · exact eval?_combineSum hr hx hy false ht
  · exact eval?_combineSum hr hx hy true ht

include hc

theorem shiftFrom_actsBy :
    ActsBy (R := R) (fun ρ g => ∃ u, c.eval? ρ = some u ∧ g = sumValue minus u)
      (shiftFrom minus c) where
  invariant hd := by
    refine ⟨_, shiftFrom_of_isInvariant minus hd.isInvariant, hc.combined hd _, ?_⟩
    rintro ρ _ r ⟨u, hu, rfl⟩ hr
    exact eval?_sum minus hc hd hu hr
  linear {a b} ha hb := by
    cases minus with
    | true =>
      refine ⟨combine .neg none a, combine .sub (some c) b, ?_, ha.negated, hc.combined hb _, ?_⟩
      · rw [shiftFrom, shiftFrom_of_isInvariant true hb.isInvariant, if_pos rfl,
          neg?_of_isInvariant ha.isInvariant]
        rfl
      · rintro ρ _ r t ⟨u, hu, rfl⟩ hr ht
        refine ⟨-r, u - t, eval?_combineNeg hr ha none, eval?_sum true hc hb hu ht, ?_⟩
        intro n
        simp only [sumValue, if_true]
        ring
    | false =>
      refine ⟨a, combine .add (some c) b, ?_, ha, hc.combined hb _, ?_⟩
      · rw [shiftFrom, shiftFrom_of_isInvariant false hb.isInvariant]
        rfl
      · rintro ρ _ r t ⟨u, hu, rfl⟩ hr ht
        refine ⟨r, u + t, hr, eval?_sum false hc hb hu ht, ?_⟩
        intro n
        simp only [sumValue, Bool.false_eq_true, if_false]
        ring
  periodic _ _ := rfl
  wrapAround _ _ := rfl

theorem shiftBy_actsBy :
    ActsBy (R := R) (fun ρ g => ∃ u, c.eval? ρ = some u ∧ g = fun r => sumValue minus r u)
      (shiftBy minus c) where
  invariant hd := by
    refine ⟨_, shiftBy_of_isInvariant minus hd.isInvariant, hd.combined hc _, ?_⟩
    rintro ρ _ r ⟨u, hu, rfl⟩ hr
    exact eval?_sum minus hd hc hr hu
  linear {a b} ha hb := by
    refine ⟨a, combine (sumOp minus) (some b) c, ?_, ha, hb.combined hc _, ?_⟩
    · rw [shiftBy, shiftBy_of_isInvariant minus hb.isInvariant]
      rfl
    · rintro ρ _ r t ⟨u, hu, rfl⟩ hr ht
      refine ⟨r, sumValue minus t u, hr, eval?_sum minus hb hc ht hu, ?_⟩
      intro n
      cases minus
      · simp only [sumValue, Bool.false_eq_true, if_false]
        ring
      · simp only [sumValue, if_true]
        ring
  periodic _ _ := rfl
  wrapAround _ _ := rfl

end Shift

section Scale

variable (hc : c.AllInvariant)

include hc

theorem scaleFrom_actsBy :
    ActsBy (R := R) (fun ρ g => ∃ u, c.eval? ρ = some u ∧ g = (u * ·)) (scaleFrom c) where
  invariant hd := by
    refine ⟨_, scaleFrom_of_isInvariant hd.isInvariant, hc.combined hd _, ?_⟩
    rintro ρ _ r ⟨u, hu, rfl⟩ hr
    exact eval?_combineMul hu hr hc hd
  linear {a b} ha hb := by
    refine ⟨combine .mul (some c) a, combine .mul (some c) b, ?_, hc.combined ha _,
      hc.combined hb _, ?_⟩
    · rw [scaleFrom, scaleFrom_of_isInvariant ha.isInvariant,
        scaleFrom_of_isInvariant hb.isInvariant]
      rfl
    · rintro ρ _ r t ⟨u, hu, rfl⟩ hr ht
      refine ⟨u * r, u * t, eval?_combineMul hu hr hc ha, eval?_combineMul hu ht hc hb, ?_⟩
      intro n
      ring
  periodic _ _ := rfl
  wrapAround _ _ := rfl

theorem scaleBy_actsBy :
    ActsBy (R := R) (fun ρ g => ∃ u, c.eval? ρ = some u ∧ g = (· * u)) (scaleBy c) where
  invariant hd := by
    refine ⟨_, scaleBy_of_isInvariant hd.isInvariant, hd.combined hc _, ?_⟩
    rintro ρ _ r ⟨u, hu, rfl⟩ hr
    exact eval?_combineMul hr hu hd hc
  linear {a b} ha hb := by
    refine ⟨combine .mul (some a) c, combine .mul (some b) c, ?_, ha.combined hc _,
      hb.combined hc _, ?_⟩
    · rw [scaleBy, scaleBy_of_isInvariant ha.isInvariant, scaleBy_of_isInvariant hb.isInvariant]
      rfl
    · rintro ρ _ r t ⟨u, hu, rfl⟩ hr ht
      refine ⟨r * u, t * u, eval?_combineMul hr hu ha hc, eval?_combineMul ht hu hb hc, ?_⟩
      intro n
      ring
  periodic _ _ := rfl
  wrapAround _ _ := rfl

end Scale

end Operations

section Words

/-- The value in iteration `n` over words, where arithmetic wraps around. -/
def wordAt? (env : InstrId → Int32) (d : Descriptor) (n : ℕ) : Option Int32 := d.evalAt? env n

/-- The descriptor is regular, and in every iteration it has the result of the operation on what
`x` and `y` have there, if there is one. -/
def IsResult (d : Descriptor) (op : Operation) (x y : Descriptor) : Prop :=
  d.Regular ∧ ∀ env n r t u, x.wordAt? env n = some r → y.wordAt? env n = some t →
    op.result? (some r) t = some u → d.wordAt? env n = some u

theorem result?_sumOp (minus : Bool) (r t : R) :
    (sumOp minus).result? (some r) t = some (sumValue minus r t) := by
  cases minus <;> rfl

theorem forall_mem_and_isSome_iff {d? : Option Descriptor} {P : Descriptor → Prop} {C : Prop}
    (h : C → ∃ d, d? = some d ∧ P d) (hnone : ¬ C → d? = none) :
    (∀ d ∈ d?, P d) ∧ (d?.isSome ↔ C) := by
  by_cases hC : C
  · obtain ⟨d, rfl, hd⟩ := h hC
    simpa [hC] using hd
  · simp [hnone hC, hC]

section Pairs

variable (hx : x.Regular) (hy : y.Regular) {op : Operation} {g : Int32 → Int32 → Int32}
variable (hg : ∀ r t, op.result? (some r) t = some (g r t))

include hx hy

include hg in
theorem exists_isResult_left {op? : Descriptor → Option Descriptor} (hi : x.isInvariant = true)
    (hop : x.AllInvariant → ActsBy (fun ρ h => ∃ u, x.eval? ρ = some u ∧ h = g u) op?) :
    ∃ d, op? y = some d ∧ d.IsResult op x y := by
  have hinv := hx.allInvariant hi
  obtain ⟨d, hd, hreg, hact⟩ := (hop hinv).exists_result hy
  refine ⟨d, hd, hreg, ?_⟩
  intro env n r t u hr ht hu
  rw [hg, Option.some.injEq] at hu
  rw [wordAt?, hinv.evalAt?_eq] at hr
  exact hu ▸ hact ⟨r, hr, rfl⟩ ht

include hg in
theorem exists_isResult_right {op? : Descriptor → Option Descriptor} (hi : y.isInvariant = true)
    (hop : y.AllInvariant →
      ActsBy (fun ρ h => ∃ u, y.eval? ρ = some u ∧ h = fun r => g r u) op?) :
    ∃ d, op? x = some d ∧ d.IsResult op x y := by
  have hinv := hy.allInvariant hi
  obtain ⟨d, hd, hreg, hact⟩ := (hop hinv).exists_result hx
  refine ⟨d, hd, hreg, ?_⟩
  intro env n r t u hr ht hu
  rw [hg, Option.some.injEq] at hu
  rw [wordAt?, hinv.evalAt?_eq] at ht
  exact hu ▸ hact (g := fun r => g r t) ⟨t, ht, rfl⟩ hr

omit hx hy in
theorem exists_sum?_linear (minus : Bool) (ha : a.AllInvariant) (hb : b.AllInvariant)
    (hc : c.AllInvariant) (hd : d.AllInvariant) :
    ∃ e, sum? minus (linear a b) (linear c d) = some e ∧
      e.IsResult (sumOp minus) (linear a b) (linear c d) := by
  have hsum {x y : Descriptor} (hx : x.AllInvariant) (hy : y.AllInvariant) :
      sum? minus x y = some (combine (sumOp minus) (some x) y) := by
    unfold sum?
    rw [if_pos hx.isInvariant, shiftFrom_of_isInvariant minus hy.isInvariant]
  refine ⟨linear (combine (sumOp minus) (some a) c) (combine (sumOp minus) (some b) d), ?_,
    .linear (ha.combined hc _) (hb.combined hd _), ?_⟩
  · have hlinear {a b : Descriptor} : ¬ (linear a b).isInvariant = true := Bool.false_ne_true
    rw [sum?, if_neg hlinear, if_neg hlinear, hsum ha hc, hsum hb hd]
    rfl
  · intro env n r t u hr ht hu
    obtain ⟨p, q, hp, hq, rfl⟩ := evalAt?_linear.mp hr
    obtain ⟨p', q', hp', hq', rfl⟩ := evalAt?_linear.mp ht
    rw [result?_sumOp, Option.some.injEq] at hu
    refine evalAt?_linear.mpr ⟨_, _, eval?_sum minus ha hc hp hp', eval?_sum minus hb hd hq hq', ?_⟩
    rw [← hu]
    cases minus
    · simp only [sumValue, Bool.false_eq_true, if_false]
      ring
    · simp only [sumValue, if_true]
      ring

/-- A sum is carried out where one operand is invariant or both are linear. -/
theorem sum?_spec (minus : Bool) : (∀ d ∈ sum? minus x y, d.IsResult (sumOp minus) x y) ∧
    ((sum? minus x y).isSome ↔ x.isInvariant = true ∨ y.isInvariant = true ∨
      x.isLinear = true ∧ y.isLinear = true) := by
  apply forall_mem_and_isSome_iff
  · intro h
    by_cases hlinear : x.isLinear = true ∧ y.isLinear = true
    · obtain ⟨a, b, rfl, ha, hb⟩ := hx.exists_linear hlinear.1
      obtain ⟨c, d, rfl, hc, hd⟩ := hy.exists_linear hlinear.2
      exact exists_sum?_linear minus ha hb hc hd
    · unfold sum?
      split_ifs with hix hiy
      · exact exists_isResult_left hx hy (result?_sumOp minus) hix fun h => shiftFrom_actsBy h minus
      · exact exists_isResult_right hx hy (result?_sumOp minus) hiy fun h => shiftBy_actsBy h minus
      · exact absurd ((h.resolve_left hix).resolve_left hiy) hlinear
  · intro h
    simp only [not_or] at h
    unfold sum?
    rw [if_neg h.1, if_neg h.2.1]
    split
    · exact absurd ⟨rfl, rfl⟩ h.2.2
    · rfl

theorem mul?_spec : (∀ d ∈ mul? x y, d.IsResult .mul x y) ∧
    ((mul? x y).isSome ↔ x.isInvariant = true ∨ y.isInvariant = true) := by
  apply forall_mem_and_isSome_iff
  · intro h
    unfold mul?
    split_ifs with hix hiy
    · exact exists_isResult_left hx hy (fun _ _ => rfl) hix scaleFrom_actsBy
    · exact exists_isResult_right hx hy (fun _ _ => rfl) hiy scaleBy_actsBy
    · exact absurd h (not_or.mpr ⟨hix, hiy⟩)
  · intro h
    rw [not_or] at h
    rw [mul?, if_neg h.1, if_neg h.2]

theorem div?_spec : (∀ d ∈ div? x y, d.IsResult .div x y) ∧
    ((div? x y).isSome ↔ x.isInvariant = true ∧ y.isInvariant = true) := by
  apply forall_mem_and_isSome_iff
  · rintro ⟨hix, hiy⟩
    have hinvx := hx.allInvariant hix
    have hinvy := hy.allInvariant hiy
    have hresult := hinvx.combined hinvy .div
    refine ⟨combine .div (some x) y, by rw [div?, hix, hiy]; rfl, .invariant hresult, ?_⟩
    intro env n r t u hr ht hu
    rw [wordAt?, hinvx.evalAt?_eq] at hr
    rw [wordAt?, hinvy.evalAt?_eq] at ht
    rw [wordAt?, hresult.evalAt?_eq]
    apply eval?_combine (by simpa using hinvx) hinvy
    rw [eval?_operation, ht]
    simpa [hr] using hu
  · intro h
    rw [div?, if_neg]
    simpa using h

end Pairs

theorem neg?_spec (hx : x.Regular) : ∃ d, neg? x = some d ∧ d.Regular ∧
    ∀ env n r, x.wordAt? env n = some r → d.wordAt? env n = some (-r) := by
  obtain ⟨d, hd, hreg, hact⟩ := (neg?_actsBy (R := Int32)).exists_result hx
  exact ⟨d, hd, hreg, fun env n r hr => hact rfl hr⟩

theorem shl?_spec (hx : x.Regular) (k : ℤ) :
    (∀ d ∈ shl? x k, d.Regular ∧ ∀ env n r, x.wordAt? env n = some r →
      d.wordAt? env n = some (Int32.ofInt (r.toInt * 2 ^ k.toNat))) ∧
    ((shl? x k).isSome ↔ 0 ≤ k ∧ k < 31) := by
  apply forall_mem_and_isSome_iff
  · intro hk
    have hpower : (Regular (constant (Int32.ofNat (1 <<< k.toNat)))) := .invariant trivial
    obtain ⟨hresult, hsome⟩ := mul?_spec hx hpower
    obtain ⟨d, hd⟩ := Option.isSome_iff_exists.mp (hsome.mpr (.inr rfl))
    obtain ⟨hreg, hvalue⟩ := hresult d hd
    refine ⟨d, by rw [shl?, if_pos hk, hd], hreg, ?_⟩
    intro env n r hr
    apply hvalue env n r _ _ hr rfl
    have hpow : Int32.ofNat (1 <<< k.toNat) = Int32.ofInt (2 ^ k.toNat) := by
      rw [Nat.one_shiftLeft, ← Int32.ofInt_eq_ofNat]
      norm_cast
    rw [Operation.result?, ofWord, Int32.cast_toInt, hpow, Int32.ofInt_mul, Int32.ofInt_toInt]
  · intro hk
    rw [shl?, if_neg hk]

/-- Arithmetic on descriptors gives regular descriptors with the values that words have: sums and
differences where one operand is invariant or both are linear, products where one is invariant,
quotients where both are, and all negations and shifts by less than 31 bits. -/
theorem arithmetic_commutes (hx : x.Regular) (hy : y.Regular) :
    (∀ minus, (∀ d ∈ sum? minus x y, d.IsResult (sumOp minus) x y) ∧
      ((sum? minus x y).isSome ↔ x.isInvariant = true ∨ y.isInvariant = true ∨
        x.isLinear = true ∧ y.isLinear = true)) ∧
    ((∀ d ∈ mul? x y, d.IsResult .mul x y) ∧
      ((mul? x y).isSome ↔ x.isInvariant = true ∨ y.isInvariant = true)) ∧
    ((∀ d ∈ div? x y, d.IsResult .div x y) ∧
      ((div? x y).isSome ↔ x.isInvariant = true ∧ y.isInvariant = true)) ∧
    (∃ d, neg? x = some d ∧ d.Regular ∧
      ∀ env n r, x.wordAt? env n = some r → d.wordAt? env n = some (-r)) ∧
    ∀ k : ℤ, (∀ d ∈ shl? x k, d.Regular ∧ ∀ env n r, x.wordAt? env n = some r →
        d.wordAt? env n = some (Int32.ofInt (r.toInt * 2 ^ k.toNat))) ∧
      ((shl? x k).isSome ↔ 0 ≤ k ∧ k < 31) :=
  ⟨sum?_spec hx hy, mul?_spec hx hy, div?_spec hx hy, neg?_spec hx, shl?_spec hx⟩

/-- Ten less a value that comes first and then a sequence of three. -/
theorem commutes_wrapped : ∃ d,
    sum? true (constant 10) (wrapAround (fetch ⟨0⟩)
      (periodic (constant 1) (periodic (constant 2) (constant 3)))) = some d ∧
    d.wordAt? (fun _ => 7) 0 = some 3 ∧ d.wordAt? (fun _ => 7) 3 = some 7 := by
  have hx : (constant 10).Regular := .invariant trivial
  have hy : (wrapAround (fetch ⟨0⟩)
      (periodic (constant 1) (periodic (constant 2) (constant 3)))).Regular :=
    .wrapAround trivial (.periodic (by simp [members, AllInvariant]))
  obtain ⟨hresult, hsome⟩ := (arithmetic_commutes hx hy).1 true
  obtain ⟨d, hd⟩ := Option.isSome_iff_exists.mp (hsome.mpr (.inl rfl))
  obtain ⟨-, hvalue⟩ := hresult d hd
  exact ⟨d, hd, hvalue _ 0 10 7 3 rfl rfl rfl, hvalue _ 3 10 3 7 rfl rfl rfl⟩

end Words

end LoopBounds.Descriptor
