import LoopBounds.Classify.TripCount
import LoopBounds.Proofs.Classify.Owned
import LoopBounds.Proofs.Descriptor.Rename
import LoopBounds.Proofs.Func.Reordered

/-!
# The same loop of a reordered function

When the blocks of a function are written in another order, each loop sees the same
instructions under other positions. What is worked out for one instruction from the descriptors
of its operands is then worked out for the renamed instruction, too, as far as the descriptors
of its operands are known: each rule carries answers over, from what is asked to what is given.
-/

namespace LoopBounds

/-- Where the first answer is given, the second is the same under `r`. If `p` holds, the second
may be missing. -/
def Carries {α β : Type} (p : Prop) (r : α → β) (a : Option α) (b : Option β) : Prop :=
  ∀ d, a = some d → b = some (r d) ∨ p ∧ b = none

namespace Carries

variable {α β γ δ : Type} {p q : Prop} {r : α → β} {r' : γ → δ} {a : Option α} {b : Option β}

theorem of_eq_none (h : a = none) : Carries p r a b := fun d hd => by
  rw [h] at hd
  cases hd

theorem of_eq_map (h : b = a.map r) : Carries p r a b := fun d hd => by
  rw [h, hd]
  exact .inl rfl

theorem some (d : α) : Carries p r (some d) (some (r d)) := of_eq_map rfl

theorem mono (hpq : p → q) (h : Carries p r a b) : Carries q r a b := fun d hd =>
  (h d hd).imp_right (And.imp_left hpq)

theorem bind {k : α → Option γ} {k' : β → Option δ} (h : Carries p r a b)
    (hk : ∀ d, a = Option.some d → Carries p r' (k d) (k' (r d))) :
    Carries p r' (a.bind k) (b.bind k') := by
  intro e he
  obtain ⟨d, hd, he⟩ := Option.bind_eq_some_iff.mp he
  rcases h d hd with hb | ⟨hp, hb⟩
  · rw [hb]
    exact hk d hd e he
  · rw [hb]
    exact .inr ⟨hp, rfl⟩

theorem filter {s : α → Bool} {s' : β → Bool} (h : Carries p r a b) (hs : ∀ d, s' (r d) = s d) :
    Carries p r (a.filter s) (b.filter s') := by
  intro d hd
  obtain ⟨hd, hsd⟩ := Option.filter_eq_some_iff.mp hd
  rcases h d hd with hb | ⟨hp, hb⟩
  · exact .inl (Option.filter_eq_some_iff.mpr ⟨hb, (hs d).trans hsd⟩)
  · exact .inr ⟨hp, by rw [hb, Option.filter_none]⟩

theorem orElse {a₁ a₂ : Option α} {b₁ b₂ : Option β}
    (h₁ : ∀ d, a₁ = Option.some d → b₂ = none ∧ Carries p r a₁ b₁)
    (h₂ : ∀ d, a₂ = Option.some d → b₁ = none ∧ Carries p r a₂ b₂) :
    Carries p r (a₁ <|> a₂) (b₁ <|> b₂) := by
  intro d hd
  rw [Option.orElse_eq_orElse, Option.orElse_eq_or] at hd ⊢
  rcases Option.or_eq_some_iff.mp hd with hd | ⟨-, hd⟩
  · obtain ⟨hnone, h⟩ := h₁ d hd
    rw [hnone, Option.or_none]
    exact h d hd
  · obtain ⟨hnone, h⟩ := h₂ d hd
    rw [hnone, Option.none_or]
    exact h d hd

end Carries

namespace LoopView

/-- The view `v'` is the view `v` of the same loop in a reordered function. -/
structure Renamed (v v' : LoopView) (σ : Equiv.Perm InstrId) (β : Equiv.Perm BlockId) : Prop where
  func : v.func.Reordered v'.func σ β
  contains : ∀ b, v'.contains (β b) = v.contains b
  header : v'.header = β v.header
  innermost : ∀ b, v'.forest.innermost? (β b) = some v'.id ↔ v.forest.innermost? b = some v.id

section Meaning

variable {v : LoopView} {known cycle : Classes} {e z : InstrId}

/-- A phi outside the header only passes on what its inputs have in common. -/
theorem phiMeaning_of_ne_header (hz : v.func.home z ≠ v.header) :
    v.phiMeaning known cycle e z = v.common (fun y => cycle.lookup y) z 0 := by
  unfold LoopView.phiMeaning
  split
  · rename_i d hd
    exact hd.symm
  · rename_i hnone
    rw [hnone]
    split
    · exact if_neg hz
    · rfl

/-- A step goes on from the phi or from a member that has a meaning. -/
theorem continues_of_stepMeaning {minus : Bool} {x y : InstrId} {d : Descriptor}
    (hd : v.stepMeaning known cycle e minus x y = some d) : x = e ∨ (cycle.lookup x).isSome := by
  obtain ⟨b, -, hd⟩ := Option.bind_eq_some_iff.mp hd
  by_cases hx : x = e
  · exact .inl hx
  · rw [if_neg hx] at hd
    obtain ⟨a, ha, -⟩ := Option.bind_eq_some_iff.mp hd
    exact .inr (Option.isSome_of_eq_some (Option.filter_eq_some_iff.mp ha).1)

theorem stepMeaning_eq_none {minus : Bool} {x y : InstrId} (hy : v.lookup known y = none) :
    v.stepMeaning known cycle e minus x y = none := by
  simp [LoopView.stepMeaning, LoopView.invariant?, hy]

end Meaning

namespace Renamed

variable {v v' : LoopView} {σ : Equiv.Perm InstrId} {β : Equiv.Perm BlockId}
variable (h : v.Renamed v' σ β) {x y z p e : InstrId} {known known' cycle cycle' : Classes}
variable {excuse : Prop}

include h

theorem symm : v'.Renamed v σ.symm β.symm where
  func := h.func.symm
  contains b := by rw [← h.contains, Equiv.apply_symm_apply]
  header := by rw [h.header, Equiv.symm_apply_apply]
  innermost b := by rw [← h.innermost, Equiv.apply_symm_apply]

theorem isOutside : v'.isOutside (σ x) = v.isOutside x := by
  rw [LoopView.isOutside, h.func.isLeaf, h.func.home, h.contains, LoopView.isOutside]

theorem isMember : v'.isMember (σ x) = v.isMember x := by
  rw [Bool.eq_iff_iff, isMember_eq_true_iff, isMember_eq_true_iff, h.isOutside, h.func.home,
    h.innermost]

theorem home_eq_header_iff : v'.func.home (σ x) = v'.header ↔ v.func.home x = v.header := by
  rw [h.func.home, h.header, β.injective.eq_iff]

theorem filter_contains (sources : List (InstrId × BlockId)) (p : Bool → Bool) :
    (sources.map (Prod.map σ β)).filter (fun s => p (v'.contains s.2)) =
      (sources.filter fun s => p (v.contains s.2)).map (Prod.map σ β) := by
  rw [List.filter_map]
  simp only [Function.comp_def, Prod.map_snd, h.contains]

theorem isEntryPhi : v'.isEntryPhi (σ x) = v.isEntryPhi x := by
  unfold LoopView.isEntryPhi
  rw [h.func.instr]
  cases v.func.instr x with
  | phi sources =>
    simp only [Instr.rename, h.home_eq_header_iff]
    rw [h.filter_contains sources (fun b => !b), List.length_map]
  | _ => rfl

theorem inputs : v'.inputs (σ x) = (v.inputs x).map σ := by
  unfold LoopView.inputs
  rw [h.func.instr]
  cases hi : v.func.instr x with
  | phi sources =>
    simp only [Instr.rename, h.home_eq_header_iff]
    rw [h.filter_contains sources (fun b => !b), h.filter_contains sources (fun b => b)]
    split_ifs <;> simp [Function.comp_def]
  | _ => exact Instr.operands_rename σ β _

theorem deps : v'.deps (σ x) = (v.deps x).map σ := by
  rw [LoopView.deps, h.inputs, List.filter_map, LoopView.deps]
  exact congrArg (List.map σ) (List.filter_congr fun y _ => h.isMember)

theorem mem_deps_iff : σ y ∈ v'.deps (σ x) ↔ y ∈ v.deps x := by
  rw [h.deps, List.mem_map_of_injective σ.injective]

theorem owns_iff : v'.Owns (σ x) ↔ v.Owns x := by
  have hlisted : σ x ∈ (v'.func.block (v'.func.home (σ x))).instrs ↔
      x ∈ (v.func.block (v.func.home x)).instrs := by
    rw [h.func.home, h.func.instrs, List.mem_map_of_injective σ.injective]
  exact ⟨fun hx => ⟨h.isMember ▸ hx.member, hlisted.mp hx.listed⟩,
    fun hx => ⟨h.isMember.symm ▸ hx.member, hlisted.mpr hx.listed⟩⟩

theorem fetch : v'.func.fetch (σ x) = (v.func.fetch x).rename σ := by
  rw [Func.fetch, h.func.constant?, Func.fetch]
  cases v.func.constant? x <;> rfl

section Rules

variable {m m' : InstrId → Option Descriptor}

theorem carries_common (hm : ∀ y ∈ v.inputs x, Carries excuse (.rename σ) (m y) (m' (σ y)))
    (start : ℕ) : Carries excuse (.rename σ) (v.common m x start) (v'.common m' (σ x) start) := by
  have hdrop : ∀ y ∈ (v.inputs x).drop start, Carries excuse (.rename σ) (m y) (m' (σ y)) :=
    fun y hy => hm y (List.mem_of_mem_drop hy)
  intro d hd
  obtain ⟨⟨y, hy⟩, hall⟩ := Setting.common_eq_some hd
  unfold LoopView.common
  rw [h.inputs, ← List.map_drop]
  cases hinputs : (v.inputs x).drop start with
  | nil =>
    rw [hinputs] at hy
    cases hy
  | cons first rest =>
    rw [hinputs] at hdrop hall
    obtain ⟨hfirst, hrest⟩ := List.forall_mem_cons.mp hdrop
    obtain ⟨hdfirst, hdrest⟩ := List.forall_mem_cons.mp hall
    rcases hfirst d hdfirst with hsome | ⟨he, hnone⟩
    · simp only [List.map_cons, hsome]
      split_ifs with hsame
      · exact .inl rfl
      · simp only [List.all_eq_true, List.forall_mem_map, decide_eq_true_eq, not_forall] at hsame
        obtain ⟨y, hy, hne⟩ := hsame
        exact .inr ⟨((hrest y hy d (hdrest y hy)).resolve_left hne).1, rfl⟩
    · simp only [List.map_cons, hnone]
      exact .inr ⟨he, trivial⟩

theorem carries_lookup (hx : v.isOutside x = true → known.lookup x = none ∧
      known'.lookup (σ x) = none)
    (hknown : Carries excuse (.rename σ) (known.lookup x) (known'.lookup (σ x))) :
    Carries excuse (.rename σ) (v.lookup known x) (v'.lookup known' (σ x)) := by
  unfold LoopView.lookup
  by_cases hout : v.isOutside x = true
  · obtain ⟨hnone, hnone'⟩ := hx hout
    rw [hnone, hnone', h.isOutside, hout]
    exact .of_eq_map (congrArg some h.fetch)
  · intro d hd
    cases hl : known.lookup x with
    | none => simp [hl, hout] at hd
    | some e =>
      obtain rfl : e = d := by simpa [hl] using hd
      rcases hknown e hl with hsome | ⟨he, hnone⟩
      · exact .inl (by rw [hsome])
      · exact .inr ⟨he, by simp [hnone, h.isOutside, hout]⟩

theorem carries_classifyTrivial (hm : ∀ y ∈ v.inputs x,
      Carries excuse (.rename σ) (v.lookup known y) (v'.lookup known' (σ y))) :
    Carries excuse (.rename σ) (v.classifyTrivial known x) (v'.classifyTrivial known' (σ x)) := by
  have hσ := σ.injective
  have hcommon := h.carries_common hm 0
  unfold LoopView.inputs at hm
  unfold LoopView.classifyTrivial
  rw [h.func.instr]
  cases hi : v.func.instr x with
  | phi sources => exact hcommon
  | arith op l r =>
    rw [hi] at hm
    have hl := hm l (by simp [Instr.operands])
    have hr := hm r (by simp [Instr.operands])
    have hboth {k k' : Descriptor → Descriptor → Option Descriptor}
        (hk : ∀ a b, k' (a.rename σ) (b.rename σ) = (k a b).map (.rename σ)) :
        Carries excuse (.rename σ)
          ((v.lookup known l).bind fun a => (v.lookup known r).bind fun b => k a b)
          ((v'.lookup known' (σ l)).bind fun a => (v'.lookup known' (σ r)).bind fun b => k' a b) :=
      hl.bind fun a _ => hr.bind fun b _ => .of_eq_map (hk a b)
    cases op with
    | add => exact hboth fun a b => Descriptor.sum?_rename a b hσ false
    | sub => exact hboth fun a b => Descriptor.sum?_rename a b hσ true
    | mul => exact hboth fun a b => Descriptor.mul?_rename a b hσ
    | div => exact hboth fun a b => Descriptor.div?_rename a b hσ
    | rem => exact .of_eq_none rfl
    | shl =>
      refine hl.bind fun a _ => hr.bind fun b _ => .of_eq_map ?_
      dsimp only
      rw [Descriptor.always?_rename b hσ]
      cases b.always? with
      | none => rfl
      | some k => exact Descriptor.shl?_rename a hσ _
  | neg y =>
    rw [hi] at hm
    exact (hm y (by simp [Instr.operands])).bind fun a _ =>
      .of_eq_map (Descriptor.neg?_rename a hσ)
  | _ => exact .of_eq_none rfl

omit h in
theorem carries_invariant?
    (hx : Carries excuse (.rename σ) (v.lookup known x) (v'.lookup known' (σ x))) :
    Carries excuse (.rename σ) (v.invariant? known x) (v'.invariant? known' (σ x)) :=
  hx.filter fun d => d.isInvariant_rename

theorem carries_start? (hm : ∀ y ∈ v.inputs p,
      Carries excuse (.rename σ) (v.lookup known y) (v'.lookup known' (σ y))) :
    Carries excuse (.rename σ) (v.start? known p) (v'.start? known' (σ p)) := by
  unfold LoopView.start?
  rw [h.inputs]
  cases hin : v.inputs p with
  | nil => exact .of_eq_none rfl
  | cons y rest => exact hm y (hin ▸ List.mem_cons_self)

omit h in
theorem carries_stepMeaning {minus : Bool}
    (hx : Carries excuse (.rename σ) (cycle.lookup x) (cycle'.lookup (σ x)))
    (hy : Carries excuse (.rename σ) (v.lookup known y) (v'.lookup known' (σ y))) :
    Carries excuse (.rename σ) (v.stepMeaning known cycle e minus x y)
      (v'.stepMeaning known' cycle' (σ e) minus (σ x) (σ y)) := by
  have hσ := σ.injective
  refine (carries_invariant? hy).bind fun b _ => ?_
  simp only [hσ.eq_iff]
  split_ifs with hentry hminus
  · exact .of_eq_map (congrArg some (Descriptor.rename_combine b hσ .neg none).symm)
  · exact .some b
  · refine (hx.filter fun d => d.isInvariant_rename).bind fun a _ => .of_eq_map ?_
    exact congrArg some (Descriptor.rename_combine b hσ _ (some a)).symm

theorem carries_reflectMeaning
    (hx : Carries excuse (.rename σ) (v.lookup known x) (v'.lookup known' (σ x)))
    (hm : ∀ y ∈ v.inputs e,
      Carries excuse (.rename σ) (v.lookup known y) (v'.lookup known' (σ y))) :
    Carries excuse (.rename σ) (v.reflectMeaning known e z x y)
      (v'.reflectMeaning known' (σ e) (σ z) (σ x) (σ y)) := by
  have hσ := σ.injective
  unfold LoopView.reflectMeaning
  rw [h.inputs]
  match hin : v.inputs e with
  | [outside, carried] =>
    have houtside := hm outside (hin ▸ List.mem_cons_self)
    simp only [List.map_cons, List.map_nil, hσ.eq_iff]
    split_ifs
    · refine (carries_invariant? hx).bind fun a _ => houtside.bind fun b _ => .of_eq_map ?_
      exact congrArg (fun d => some (Descriptor.periodic d (b.rename σ)))
        (Descriptor.rename_combine b hσ .sub (some a)).symm
    · exact .of_eq_none rfl
  | [] | [_] | _ :: _ :: _ :: _ => exact .of_eq_none rfl

omit h in
/-- The members of the cycle of `e` have no descriptor yet, so of the two operands of a sum only
one can be the member that it continues. -/
theorem carries_sumMeaning
    (hx : Carries excuse (.rename σ) (v.lookup known x) (v'.lookup known' (σ x)))
    (hy : Carries excuse (.rename σ) (v.lookup known y) (v'.lookup known' (σ y)))
    (hxc : Carries excuse (.rename σ) (cycle.lookup x) (cycle'.lookup (σ x)))
    (hyc : Carries excuse (.rename σ) (cycle.lookup y) (cycle'.lookup (σ y)))
    (hfresh : ∀ y, y = e ∨ (cycle.lookup y).isSome → v'.lookup known' (σ y) = none) :
    Carries excuse (.rename σ)
      (v.stepMeaning known cycle e false x y <|> v.stepMeaning known cycle e false y x)
      (v'.stepMeaning known' cycle' (σ e) false (σ x) (σ y) <|>
        v'.stepMeaning known' cycle' (σ e) false (σ y) (σ x)) := by
  refine .orElse (fun d hd => ?_) fun d hd => ?_
  · exact ⟨stepMeaning_eq_none (hfresh x (continues_of_stepMeaning hd)), carries_stepMeaning hxc hy⟩
  · exact ⟨stepMeaning_eq_none (hfresh y (continues_of_stepMeaning hd)), carries_stepMeaning hyc hx⟩

/-- A step takes off a value with a descriptor, and the turn takes off the phi, which has none yet:
so a difference has at most one of the two meanings. -/
theorem carries_differenceMeaning
    (hx : Carries excuse (.rename σ) (v.lookup known x) (v'.lookup known' (σ x)))
    (hy : Carries excuse (.rename σ) (v.lookup known y) (v'.lookup known' (σ y)))
    (hxc : Carries excuse (.rename σ) (cycle.lookup x) (cycle'.lookup (σ x)))
    (hstart : ∀ y ∈ v.inputs e,
      Carries excuse (.rename σ) (v.lookup known y) (v'.lookup known' (σ y)))
    (hentry : v.lookup known e = none) (hentry' : v'.lookup known' (σ e) = none) :
    Carries excuse (.rename σ)
      (v.stepMeaning known cycle e true x y <|> v.reflectMeaning known e z x y)
      (v'.stepMeaning known' cycle' (σ e) true (σ x) (σ y) <|>
        v'.reflectMeaning known' (σ e) (σ z) (σ x) (σ y)) := by
  refine .orElse (fun d hd => ⟨?_, carries_stepMeaning hxc hy⟩)
    fun d hd => ⟨?_, h.carries_reflectMeaning hx hstart⟩
  · have hne : y ≠ e := fun heq => by
      rw [stepMeaning_eq_none (heq ▸ hentry)] at hd
      cases hd
    unfold LoopView.reflectMeaning
    split
    · exact if_neg fun heq => hne (σ.injective heq.1)
    · rfl
  · have heq : y = e := by
      unfold LoopView.reflectMeaning at hd
      split at hd
      · split_ifs at hd with heq
        exact heq.1
      · cases hd
    exact stepMeaning_eq_none (heq ▸ hentry')

theorem carries_meaning
    (hknown : ∀ y ∈ v.inputs z,
      Carries excuse (.rename σ) (v.lookup known y) (v'.lookup known' (σ y)))
    (hstart : ∀ y ∈ v.inputs e,
      Carries excuse (.rename σ) (v.lookup known y) (v'.lookup known' (σ y)))
    (hcycle : ∀ y ∈ v.inputs z, Carries excuse (.rename σ) (cycle.lookup y) (cycle'.lookup (σ y)))
    (hfresh : ∀ y, y = e ∨ (cycle.lookup y).isSome →
      v.lookup known y = none ∧ v'.lookup known' (σ y) = none)
    (hphi : (v.func.instr z).isPhi = true → v.func.home z ≠ v.header) :
    Carries excuse (.rename σ) (v.meaning known cycle e z)
      (v'.meaning known' cycle' (σ e) (σ z)) := by
  have hcommon : Carries excuse (.rename σ) (v.common (fun y => cycle.lookup y) z 0)
      (v'.common (fun y => cycle'.lookup y) (σ z) 0) := h.carries_common hcycle 0
  unfold LoopView.inputs at hknown hcycle
  unfold LoopView.meaning
  rw [h.func.instr]
  cases hi : v.func.instr z with
  | phi sources =>
    have hne := hphi (by rw [hi]; rfl)
    have hne' : v'.func.home (σ z) ≠ v'.header := fun heq => hne (h.home_eq_header_iff.mp heq)
    simp only [Instr.rename, phiMeaning_of_ne_header hne, phiMeaning_of_ne_header hne']
    exact hcommon
  | arith op x y =>
    rw [hi] at hknown hcycle
    have hx := hknown x (by simp [Instr.operands])
    have hy := hknown y (by simp [Instr.operands])
    have hxc := hcycle x (by simp [Instr.operands])
    have hyc := hcycle y (by simp [Instr.operands])
    obtain ⟨hentry, hentry'⟩ := hfresh e (.inl rfl)
    cases op with
    | add => exact carries_sumMeaning hx hy hxc hyc fun y hy => (hfresh y hy).2
    | sub => exact h.carries_differenceMeaning hx hy hxc hstart hentry hentry'
    | _ => exact .of_eq_none rfl
  | _ => exact .of_eq_none rfl

theorem carries_tripCount? (hm : ∀ c t e op l r, v.func.instr x = .branch c t e →
      v.func.instr c = .compare op l r → ∀ y ∈ [l, r],
        Carries excuse (.rename σ) (v.lookup known y) (v'.lookup known' (σ y))) :
    Carries excuse (.rename σ) (v.tripCount? known x) (v'.tripCount? known' (σ x)) := by
  have hcontrol : Carries excuse
      (fun t : Descriptor × Descriptor × Comparison => (t.1.rename σ, t.2.1.rename σ, t.2.2))
      (v.control? known x) (v'.control? known' (σ x)) := by
    unfold LoopView.control?
    rw [h.func.instr]
    cases hi : v.func.instr x with
    | branch c t e =>
      simp only [Instr.rename, h.func.instr, h.contains]
      cases hc : v.func.instr c with
      | compare op l r =>
        have hm := hm c t e op l r hi hc
        refine (hm l (by simp)).bind fun a _ => (hm r (by simp)).bind fun b _ => .of_eq_map ?_
        cases v.contains t <;> cases v.contains e <;> rfl
      | _ => exact .of_eq_none rfl
    | _ => exact .of_eq_none rfl
  exact hcontrol.bind fun t _ =>
    .of_eq_map (Descriptor.conditionTripCount?_rename t.1 t.2.1 σ.injective t.2.2)

end Rules

end Renamed

end LoopView

end LoopBounds
