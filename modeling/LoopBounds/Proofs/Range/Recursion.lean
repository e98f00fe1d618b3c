import LoopBounds.Proofs.Descriptor.Formed
import LoopBounds.Proofs.Range.Generation

/-!
# Evaluation by plain recursion

The bounds of a linear sequence use the bounds of the trip count. They may be worked out anew
wherever a linear sequence stands, by the same recursion that works out everything else, as the
code for them is. If no linear sequence stands in the trip count, this recursion ends on every
descriptor, with the results of `bounds`, `canEmit` and `emit`. If the count is a linear sequence
itself, it never ends on a linear sequence.
-/

namespace LoopBounds

namespace Settles

variable {α β : Type} {F G : ℕ → Option α} {r : α} {s : β}

theorem const (r : α) : Settles (fun _ => some r) r := ⟨0, fun _ _ => rfl⟩

theorem call (h : Settles F r) (heq : ∀ n, G (n + 1) = F n) : Settles G r := by
  obtain ⟨N, hN⟩ := h
  refine ⟨N + 1, fun n hn => ?_⟩
  obtain ⟨m, rfl⟩ : ∃ m, n = m + 1 := ⟨n - 1, by omega⟩
  rw [heq]
  exact hN m (by omega)

theorem bind {H : ℕ → α → Option β} (h : Settles F r) (hH : Settles (fun n => H n r) s) :
    Settles (fun n => (F n).bind (H n)) s := by
  obtain ⟨N, hN⟩ := h
  obtain ⟨M, hM⟩ := hH
  refine ⟨max N M, fun n hn => ?_⟩
  change (F n).bind (H n) = some s
  rw [hN n (le_of_max_le_left hn), Option.bind_some]
  exact hM n (le_of_max_le_right hn)

theorem both {G : ℕ → Option β} {γ : Type} (h : Settles F r) (h' : Settles G s) (g : α → β → γ) :
    Settles (fun n => do return g (← F n) (← G n)) (g r s) :=
  h.bind (h'.bind (const _))

theorem map (h : Settles F r) (g : α → β) : Settles (fun n => (F n).map g) (g r) := by
  obtain ⟨N, hN⟩ := h
  exact ⟨N, fun n hn => congrArg (Option.map g) (hN n hn)⟩

end Settles

namespace Descriptor

/-- No linear sequence stands in the descriptor. -/
def LinearFree : Descriptor → Prop
  | constant _ | fetch _ => True
  | unary _ b | tripCount _ b => b.LinearFree
  | linear .. => False
  | binary _ a b | periodic a b | wrapAround a b | guardedCount _ a b =>
      a.LinearFree ∧ b.LinearFree

instance decidableLinearFree : (d : Descriptor) → Decidable d.LinearFree
  | constant _ | fetch _ => inferInstanceAs (Decidable True)
  | unary _ b | tripCount _ b => decidableLinearFree b
  | linear .. => inferInstanceAs (Decidable False)
  | binary _ a b | periodic a b | wrapAround a b | guardedCount _ a b =>
      have := decidableLinearFree a
      have := decidableLinearFree b
      inferInstanceAs (Decidable (a.LinearFree ∧ b.LinearFree))

variable {t d a b stride start : Descriptor} {kind : TripKind}

theorem IsTerm.linearFree (h : d.IsTerm) : d.LinearFree := by
  induction h with
  | constant | fetch => trivial
  | neg _ ih => exact ih
  | binary _ _ _ iha ihb => exact ⟨iha, ihb⟩

theorem IsTripCount.linearFree (h : d.IsTripCount) : d.LinearFree := by
  obtain ⟨kind, count, op, lower, upper, rfl, -, hcount, hlower, hupper⟩ := h
  exact ⟨hcount.linearFree, hlower.linearFree, hupper.linearFree⟩

theorem LinearFree.of_count? (h : t.LinearFree) (hcount : t.count? = some d) :
    d.LinearFree := by
  cases t with
  | tripCount kind c => exact Option.some.inj hcount ▸ h
  | guardedCount kind c taken => exact Option.some.inj hcount ▸ h.1
  | _ => cases hcount

section Evaluators

variable (trip : Option Descriptor) (inBody : Bool)

/-- The bounds of the descriptor by a recursion of depth at most `n`, where every linear sequence
has the trip count evaluated. -/
def boundsUpTo : ℕ → Descriptor → Option Interval
  | 0, _ => none
  | _ + 1, constant v => some (.constant v)
  | _ + 1, fetch x => some (fetchBounds trip inBody x)
  | n + 1, unary op b =>
      match op with
      | .neg => (boundsUpTo n b).map Interval.neg
      | _ => some .unknown
  | n + 1, binary op a b => do
      let x ← boundsUpTo n a
      let y ← boundsUpTo n b
      return match op with
        | .add => x.add y
        | .sub => x.sub y
        | .neg => y.neg
        | .mul => x.mul y
        | .div => x.div y
        | _ => .unknown
  | n + 1, linear stride start => do
      let x ← boundsUpTo n stride
      let y ← boundsUpTo n start
      match trip with
      | none => return .unknown
      | some t => do
          let general := linearFormula (← boundsUpTo n t) x y
          match t.tripKind?, t.count? with
          | some kind, some (binary .sub hi lo) =>
              if stride.always? = some 1 ∧ lo = start then do
                let cancelled ← boundsUpTo n (tripCount kind hi)
                return ⟨general.lower, cancelled.upper⟩
              else if stride.always? = some (-1) ∧ hi = start then do
                let cancelled ← boundsUpTo n (tripCount kind (unary .neg lo))
                return ⟨(Affine.constant 0).sub cancelled.upper, general.upper⟩
              else return general
          | _, _ => return general
  | n + 1, periodic a b | n + 1, wrapAround a b => do
      let x ← boundsUpTo n a
      let y ← boundsUpTo n b
      return x.hull y
  | n + 1, tripCount kind count | n + 1, guardedCount kind count _ =>
      (boundsUpTo n count).map (kind.bounds inBody)

/-- The evaluations of the descriptor all end, with the results that are computed otherwise. -/
structure Halts (d : Descriptor) : Prop where
  folding : Settles (fun n => d.boundsUpTo none true n) (d.countBounds none true)
  bounds : ∀ inBody, Settles (fun n => boundsUpTo trip inBody n d) (d.bounds trip inBody)
  check : ∀ inBody target s, GeneratesTo trip inBody target d s none
    (if d.canEmit trip inBody s then some none else none) none
  code : ∀ inBody target s f, GeneratesTo trip inBody target d s (some f)
    ((Emit.outcome (d.emit trip inBody target s) f).1.map some)
    (some (Emit.outcome (d.emit trip inBody target s) f).2)

end Evaluators

variable {trip : Option Descriptor} {inBody : Bool}

section Bounds

theorem settles_boundsWith {L : Descriptor → Descriptor → Interval → Interval → Interval}
    (h : d.LinearFree ∨ ∀ {a b : Descriptor} {x y : Interval},
      Settles (fun n => boundsUpTo trip inBody n a) x →
      Settles (fun n => boundsUpTo trip inBody n b) y →
      Settles (fun n => boundsUpTo trip inBody n (linear a b)) (L a b x y)) :
    Settles (fun n => boundsUpTo trip inBody n d)
      (d.boundsWith inBody (fetchBounds trip inBody) L) := by
  induction d with
  | constant v => exact (Settles.const _).call fun n => rfl
  | fetch x => exact (Settles.const _).call fun n => rfl
  | unary op b ih =>
    cases op with
    | neg => exact ((ih h).map Interval.neg).call fun n => rfl
    | _ => exact (Settles.const _).call fun n => rfl
  | binary op a b iha ihb =>
    have ha := iha (h.imp_left And.left)
    have hb := ihb (h.imp_left And.right)
    refine (ha.bind (hb.bind ?_)).call fun n => rfl
    cases op <;> exact Settles.const _
  | linear a b iha ihb =>
    rcases h with h | h
    · exact h.elim
    · exact h (iha (.inr h)) (ihb (.inr h))
  | periodic a b iha ihb =>
    exact ((iha (h.imp_left And.left)).both (ihb (h.imp_left And.right)) Interval.hull).call
      fun n => rfl
  | wrapAround a b iha ihb =>
    exact ((iha (h.imp_left And.left)).both (ihb (h.imp_left And.right)) Interval.hull).call
      fun n => rfl
  | tripCount kind count ih => exact ((ih h).map (kind.bounds inBody)).call fun n => rfl
  | guardedCount kind count taken ih _ =>
    exact ((ih (h.imp_left And.left)).map (kind.bounds inBody)).call fun n => rfl

theorem LinearFree.settles_countBounds (h : d.LinearFree) :
    Settles (fun n => boundsUpTo trip inBody n d) (d.countBounds trip inBody) :=
  settles_boundsWith (.inl h)

theorem settles_bounds_linear (htrip : ∀ t ∈ trip, t.LinearFree) {x y : Interval}
    (ha : Settles (fun n => boundsUpTo trip inBody n a) x)
    (hb : Settles (fun n => boundsUpTo trip inBody n b) y) :
    Settles (fun n => boundsUpTo trip inBody n (linear a b))
      (linearBounds trip inBody a b x y) := by
  refine (ha.bind (hb.bind ?_)).call fun n => rfl
  cases trip with
  | none => exact Settles.const _
  | some t =>
    have ht := htrip t rfl
    refine ht.settles_countBounds.bind ?_
    have hcancel {kind : TripKind} {c : Descriptor} (hc : c.LinearFree) :
        Settles (fun n => boundsUpTo (some t) inBody n (tripCount kind c))
          (kind.bounds inBody (c.countBounds (some t) inBody)) :=
      LinearFree.settles_countBounds (d := tripCount kind c) hc
    unfold linearBounds
    dsimp only
    rcases hkind : t.tripKind? with _ | kind
    · exact Settles.const _
    rcases hcount : t.count? with _ | count
    · exact Settles.const _
    cases count with
    | binary op hi lo =>
      cases op with
      | sub =>
        obtain ⟨hhi, hlo⟩ := ht.of_count? hcount
        dsimp only
        split_ifs
        · refine (hcancel hhi).bind ?_
          exact Settles.const _
        · refine (hcancel (c := unary .neg lo) hlo).bind ?_
          exact Settles.const _
        · exact Settles.const _
      | _ => exact Settles.const _
    | _ => exact Settles.const _

theorem settles_bounds (htrip : ∀ t ∈ trip, t.LinearFree) :
    Settles (fun n => boundsUpTo trip inBody n d) (d.bounds trip inBody) :=
  settles_boundsWith (.inr (settles_bounds_linear htrip))

end Bounds

section Code

open Generation

variable {target : BlockId}

theorem returns_generateWith
    {linear : Descriptor → Side → Generation (Option InstrId) → Generation (Option InstrId)}
    (h : d.LinearFree ∨ ∀ stride s c, Returns c → Returns (linear stride s c)) (s : Side) :
    Returns (generateWith inBody target linear d s) := by
  have hiterations {kind : TripKind} {c : Generation (Option InstrId)} (hc : Returns c) (s : Side) :
      Returns (generateIterations inBody target kind c s) := by
    unfold generateIterations
    cases s with
    | lower => exact fun _ => rfl
    | upper =>
      dsimp only
      split_ifs
      · exact hc.bind fun _ => Returns.bind (fun _ => rfl) fun _ => returns_append _ _
      · exact fun _ => rfl
      · exact hc
  induction d generalizing s with
  | constant | fetch | periodic | wrapAround => exact fun _ => rfl
  | unary op b ih =>
    cases op with
    | neg => exact (ih h s.flip).bind fun _ => returns_append _ _
    | _ => exact fun _ => rfl
  | binary op a b iha ihb =>
    have ha := iha (h.imp_left And.left)
    have hb := ihb (h.imp_left And.right)
    cases op with
    | add | lt | le | gt | ge => exact (ha s).bind fun _ => (hb s).bind fun _ => returns_append _ _
    | sub => exact (ha s).bind fun _ => (hb s.flip).bind fun _ => returns_append _ _
    | neg => exact (hb s.flip).bind fun _ => returns_append _ _
    | mul | div => exact fun _ => rfl
  | linear stride start _ ih =>
    rcases h with h | h
    · exact h.elim
    · exact h stride s _ (ih (.inr h) s)
  | tripCount kind count ih => exact hiterations (ih h .upper) s
  | guardedCount kind count taken ih => exact hiterations (ih (h.imp_left And.left) .upper) s

theorem returns_generateUpTo (htrip : ∀ t ∈ trip, t.LinearFree) (s : Side) :
    Returns (generateUpTo inBody target trip 2 d s) := by
  have hcount (s : Side) : Returns (generateTrip inBody target trip 2 s) := by
    cases trip with
    | none => exact fun _ => rfl
    | some t => exact returns_generateWith (.inl (htrip t rfl)) s
  refine returns_generateWith (.inr fun stride s c hc => ?_) s
  unfold generateLinear
  cases tripSide? stride s with
  | none => exact fun _ => rfl
  | some side =>
    refine (hcount side).bind fun _ => hc.bind fun _ => ?_
    split_ifs <;> exact returns_append _ _

end Code

/-- Without a linear sequence in the trip count, every evaluation ends. -/
theorem halts_of_linearFree (htrip : ∀ t ∈ trip, t.LinearFree) (d : Descriptor) :
    Halts trip d := by
  have hends (inBody : Bool) (target : BlockId) (s : Side) :=
    ((realizes_generateUpTo trip d s).result.resolve_right fun hnever => by
      have hreturns : Generation.Returns (generateUpTo inBody target trip 2 d s) :=
        returns_generateUpTo htrip s
      have hreturns := hreturns none
      rw [hnever.2 none] at hreturns
      cases hreturns)
  exact ⟨settles_bounds (by simp), fun _ => settles_bounds htrip,
    fun inBody target s => generatesTo_iff.mpr (hends inBody target s).1,
    fun inBody target s f => generatesTo_iff.mpr ((hends inBody target s).2 f)⟩

/-- If the count is a linear sequence, then working out bounds of one never ends. -/
theorem boundsUpTo_linear_eq_none (ht : t.count? = some (linear a b))
    (n : ℕ) : boundsUpTo (some t) inBody n (linear stride start) = none := by
  induction n using Nat.strong_induction_on generalizing stride start with
  | _ n ih =>
    have htrip (m : ℕ) (hm : m < n) : boundsUpTo (some t) inBody m t = none := by
      cases m with
      | zero => rfl
      | succ m =>
        have hnone : boundsUpTo (some t) inBody m (linear a b) = none := ih m (by omega)
        cases t with
        | tripCount kind c | guardedCount kind c taken =>
          obtain rfl := Option.some.inj ht
          exact congrArg (Option.map (kind.bounds inBody)) hnone
        | _ => cases ht
    cases n with
    | zero => rfl
    | succ n => simp [boundsUpTo, htrip n (by omega)]

end Descriptor

end LoopBounds
