import LoopBounds.Proofs.Classify.Stored

/-!
# Invariants and sequences of words

In the ring of words, in which arithmetic wraps around, every run can be read. So a value
with a stored descriptor has in every iteration the word that the descriptor gives to it.
For invariants and linear sequences this holds throughout. A periodic sequence may be
given to a member of its cycle as of the wrong place; then the value is as many places
ahead of what the descriptor says.
-/

namespace LoopBounds

open Descriptor

variable {f : Func} {args : Nat → Int32} {s s' : State} {x : InstrId} {l : LoopId}
variable {d : Descriptor}

theorem State.reading_words (s : State) : s.reading Int32 = s.env := by
  funext x
  exact Int32.cast_toInt _

theorem Func.describes_of_stored (hf : f.Valid) (hs : f.Run args (fun _ => True) s)
    (h : f.step? s = some s') (hx : x ∈ f.executed s s')
    (hd : (Analysis.ofFunc f).stored? l x = some d) (htrip : d.tripKind?.isSome = false) :
    d.WellFormed ∧ d.Describes ((LoopView.mk f f.flow.loopForest l).ahead x) s'.env
      ((f.flow.loopForest.get l).iteration s'.trail) (s'.env x) := by
  let S := Setting.words hf args (Analysis.lt_of_stored? hd)
  rcases S.classified_or_trip (Analysis.lt_of_stored? hd) hd with hc | ⟨-, hc⟩
  · refine ⟨hc.wellFormed, ?_⟩
    have hfetch : S.Fetches s' s'.env := fun y _ => by rw [State.reading_words]
    have := hc.describes_of_executed hs trivial h hx hfetch
    rwa [State.reading_words] at this
  · rw [LoopView.tripKind?_of_tripCount? hc] at htrip
    cases htrip

/-- A value with an invariant or a linear descriptor is the invariant, or what the
sequence gives to the iteration, whenever it is executed. -/
theorem Func.env_eq_of_stored (hf : f.Valid) (hs : f.Run args (fun _ => True) s)
    (h : f.step? s = some s') (hx : x ∈ f.executed s s')
    (hd : (Analysis.ofFunc f).stored? l x = some d) :
    (d.isInvariant = true → s'.env x = d.value s'.env) ∧
      ∀ a b, d = .linear a b → s'.env x =
        a.value s'.env * ((f.flow.loopForest.get l).iteration s'.trail : Int32)
          + b.value s'.env := by
  refine ⟨fun hi => ?_, ?_⟩
  · have htrip : d.tripKind?.isSome = false := by cases d <;> first | rfl | cases hi
    obtain ⟨hwell, hdesc⟩ := f.describes_of_stored hf hs h hx hd htrip
    exact (describes_of_isTerm (hwell.isTerm hi)).mp hdesc
  · rintro a b rfl
    exact (f.describes_of_stored hf hs h hx hd rfl).2

/-- A loop that goes up by `2 ^ 28` below `2 ^ 30` and computes four times its variable,
which leaves the word range. -/
def scaled : Func :=
  .ofTables "scaled" .i32 []
    #[
      { label := "entry", succs := [⟨1⟩], terminator := some ⟨4⟩ },
      { label := "header", preds := [⟨0⟩, ⟨2⟩], succs := [⟨2⟩, ⟨3⟩], phis := [⟨5⟩], body := [⟨6⟩],
        terminator := some ⟨7⟩ },
      { label := "body", preds := [⟨1⟩], succs := [⟨1⟩], body := [⟨8⟩, ⟨9⟩],
        terminator := some ⟨10⟩ },
      { label := "exit", preds := [⟨1⟩], terminator := some ⟨11⟩ }]
    #[
      ⟨"c0", ⟨0⟩, .constant 0⟩,
      ⟨"c1073741824", ⟨0⟩, .constant 1073741824⟩,
      ⟨"c4", ⟨0⟩, .constant 4⟩,
      ⟨"c268435456", ⟨0⟩, .constant 268435456⟩,
      ⟨"t1", ⟨0⟩, .jump ⟨1⟩⟩,
      ⟨"i", ⟨1⟩, .phi [(⟨0⟩, ⟨0⟩), (⟨9⟩, ⟨2⟩)]⟩,
      ⟨"test", ⟨1⟩, .compare .lt ⟨5⟩ ⟨1⟩⟩,
      ⟨"t2", ⟨1⟩, .branch ⟨6⟩ ⟨2⟩ ⟨3⟩⟩,
      ⟨"j", ⟨2⟩, .arith .mul ⟨5⟩ ⟨2⟩⟩,
      ⟨"next", ⟨2⟩, .arith .add ⟨5⟩ ⟨3⟩⟩,
      ⟨"t3", ⟨2⟩, .jump ⟨1⟩⟩,
      ⟨"t4", ⟨3⟩, .ret (some ⟨5⟩)⟩]
    4

theorem scaled_valid : scaled.Valid := Func.valid_of_check (by decide +kernel)

/-- In iteration two the product has wrapped around and is what its descriptor gives. -/
theorem scaled_env_eq : ∃ s s', scaled.Run (fun _ => 0) (fun _ => True) s ∧
    scaled.step? s = some s' ∧ ⟨8⟩ ∈ scaled.executed s s' ∧ s'.env ⟨8⟩ = -2 ^ 31 ∧
    s'.env ⟨8⟩ = (binary .mul (constant 268435456) (constant 4)).value s'.env *
      ((scaled.flow.loopForest.get ⟨0⟩).iteration s'.trail : Int32)
        + (constant 0).value s'.env := by
  obtain ⟨s, s', hs, hstep, hfound⟩ := scaled.exists_step_of_after (fun _ => 0) (fun _ => True) 13
    (fun s s' => ⟨8⟩ ∈ scaled.executed s s' ∧ s'.env ⟨8⟩ = -2 ^ 31) (by decide +kernel)
  obtain ⟨hx, hwrapped⟩ := of_decide_eq_true hfound
  exact ⟨s, s', hs, hstep, hx, hwrapped,
    (Func.env_eq_of_stored scaled_valid hs hstep hx (l := ⟨0⟩) (by decide +kernel)).2 _ _ rfl⟩

/-- A value with a periodic or wrap-around descriptor has some value of the sequence
whenever it is executed. If it is ahead of the sequence by `k` places, it has the value that is
`k` places on, so the descriptor is right just where the sequence has the same value there.
This is so everywhere for a value that is not ahead. -/
theorem Func.env_eq_valueAt_of_stored (hf : f.Valid) (hs : f.Run args (fun _ => True) s)
    (h : f.step? s = some s') (hx : x ∈ f.executed s s') {a b : Descriptor}
    (hd : (Analysis.ofFunc f).stored? l x = some d)
    (hseq : d = .periodic a b ∨ d = .wrapAround a b) :
    (∃ k, s'.env x = d.valueAt s'.env k) ∧
      ∀ k, (LoopView.mk f f.flow.loopForest l).ahead x = some k →
        s'.env x = d.valueFrom k s'.env ((f.flow.loopForest.get l).iteration s'.trail) := by
  have htrip : d.tripKind?.isSome = false := by
    rcases hseq with rfl | rfl
    all_goals rfl
  obtain ⟨hwell, hdesc⟩ := f.describes_of_stored hf hs h hx hd htrip
  refine ⟨hwell.exists_valueAt hdesc, ?_⟩
  intro k hk
  rw [hk] at hdesc
  exact hwell.describes_iff.mp hdesc

/-- Two phis that swap their values, one of them by way of a phi that comes before the
header. -/
def turning : Func :=
  .ofTables "turning" .i32 [⟨0⟩]
    #[
      { label := "entry", succs := [⟨2⟩], terminator := some ⟨3⟩ },
      { label := "join", preds := [⟨2⟩], succs := [⟨2⟩], phis := [⟨4⟩], terminator := some ⟨5⟩ },
      { label := "header", preds := [⟨0⟩, ⟨1⟩], succs := [⟨1⟩, ⟨3⟩], phis := [⟨6⟩, ⟨7⟩],
        body := [⟨8⟩], terminator := some ⟨9⟩ },
      { label := "exit", preds := [⟨2⟩], terminator := some ⟨10⟩ }]
    #[
      ⟨"n", ⟨0⟩, .param 0⟩,
      ⟨"c1", ⟨0⟩, .constant 1⟩,
      ⟨"c2", ⟨0⟩, .constant 2⟩,
      ⟨"t1", ⟨0⟩, .jump ⟨2⟩⟩,
      ⟨"r", ⟨1⟩, .phi [(⟨7⟩, ⟨2⟩)]⟩,
      ⟨"t2", ⟨1⟩, .jump ⟨2⟩⟩,
      ⟨"p", ⟨2⟩, .phi [(⟨1⟩, ⟨0⟩), (⟨4⟩, ⟨1⟩)]⟩,
      ⟨"q", ⟨2⟩, .phi [(⟨2⟩, ⟨0⟩), (⟨6⟩, ⟨1⟩)]⟩,
      ⟨"c", ⟨2⟩, .compare .lt ⟨6⟩ ⟨0⟩⟩,
      ⟨"t3", ⟨2⟩, .branch ⟨8⟩ ⟨1⟩ ⟨3⟩⟩,
      ⟨"t4", ⟨3⟩, .ret (some ⟨6⟩)⟩]
    4

theorem turning_valid : turning.Valid := Func.valid_of_check (by decide +kernel)

/-- The first phi of the header is one place ahead of the sequence that it is given. -/
theorem turning_env_eq_valueFrom : ∃ s s', turning.Run (fun _ => 5) (fun _ => True) s ∧
    turning.step? s = some s' ∧ ⟨6⟩ ∈ turning.executed s s' ∧
    s'.env ⟨6⟩ = (periodic (constant 2) (constant 1)).valueFrom 1 s'.env
      ((turning.flow.loopForest.get ⟨0⟩).iteration s'.trail) := by
  obtain ⟨s, s', hs, hstep, hx⟩ := turning.exists_step_of_after (fun _ => 5) (fun _ => True) 0
    (fun s s' => ⟨6⟩ ∈ turning.executed s s') (by decide +kernel)
  exact ⟨s, s', hs, hstep, of_decide_eq_true hx,
    (Func.env_eq_valueAt_of_stored turning_valid hs hstep (of_decide_eq_true hx) (l := ⟨0⟩)
      (by decide +kernel) (.inl rfl)).2 1 (by decide +kernel)⟩

/-- The first phi of the header starts with one, but its descriptor says two. -/
theorem turning_env_ne_valueAt : turning.Valid ∧
    (Analysis.ofFunc turning).stored? ⟨0⟩ ⟨6⟩ = some (periodic (constant 2) (constant 1)) ∧
    ∃ s s', turning.Run (fun _ => 5) (fun _ => True) s ∧ turning.step? s = some s' ∧
      ⟨6⟩ ∈ turning.executed s s' ∧
      s'.env ⟨6⟩ ≠ (periodic (constant 2) (constant 1)).valueAt s'.env
        ((turning.flow.loopForest.get ⟨0⟩).iteration s'.trail) := by
  refine ⟨Func.valid_of_check (by decide +kernel), by decide +kernel, ?_⟩
  obtain ⟨s, s', hs, hstep, hfound⟩ := turning.exists_step_of_after (fun _ => 5) (fun _ => True) 0
    (fun s s' => ⟨6⟩ ∈ turning.executed s s' ∧
      s'.env ⟨6⟩ ≠ (periodic (constant 2) (constant 1)).valueAt s'.env
        ((turning.flow.loopForest.get ⟨0⟩).iteration s'.trail)) (by decide +kernel)
  exact ⟨s, s', hs, hstep, of_decide_eq_true hfound⟩

end LoopBounds
