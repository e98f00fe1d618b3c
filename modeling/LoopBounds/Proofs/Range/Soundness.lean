import LoopBounds.Proofs.Classify.Soundness
import LoopBounds.Proofs.Range.Query
import LoopBounds.Proofs.Range.TripCount

/-!
# Ranges are sound

As long as no exact result leaves the word range, a run can be read in the integers. There
the range of a value at the end of a block contains the value.
-/

namespace LoopBounds

open Descriptor

namespace Setting

variable {S : Setting ℤ} {s : State} {context : InstrId}

/-- The trip count of the loop bounds the number of the current iteration. -/
theorem AtEnd.within (hs : S.AtEnd s context)
    (hl : S.id.index < S.func.flow.loopForest.loops.size) {ρ : InstrId → ℤ} (hρ : S.Fetches s ρ) :
    Within ((Analysis.ofFunc S.func).tripCount? S.func S.id) (s.here ≠ S.loop.header) ρ
      (S.iteration s) := by
  cases ht : (Analysis.ofFunc S.func).tripCount? S.func S.id with
  | none => exact fun t h => by cases h
  | some t =>
    obtain ⟨control, hcontrol, htrip⟩ := exists_control hl ht
    obtain ⟨a, b, cmp, stride, lower, upper, towards, htest, h⟩ := exists_linearTest htrip
    obtain ⟨ha, hb, hpassed⟩ := hs.passed hcontrol htest h.linear hρ
    refine h.within ha hb fun k hk => h.passes ha hb ℤ ρ k (hpassed k ?_)
    simpa using hk

end Setting

/-- The range of a value at the terminator of a block in a loop contains the value, in
every run in which results are exact. -/
theorem Func.contains_of_range? {f : Func} (hf : f.Valid) {args : Nat → Int32} {s : State}
    (hs : f.Run args f.InRange s) {context x : InstrId} {rest : List InstrId}
    (hrest : s.rest = context :: rest) (hcontext : (f.instr context).isTerminator = true)
    (hx : f.AvailableAtEnd s.here x) {r : ValueRange}
    (hr : (Analysis.ofFunc f).range? f context x = some r) :
    (∀ z, r.bounds.lower.read? (s.reading ℤ) = some z → z ≤ (s.env x).toInt) ∧
      ∀ z, r.bounds.upper.read? (s.reading ℤ) = some z → (s.env x).toInt ≤ z := by
  obtain ⟨l, d, hl, hmem, hd, rfl⟩ := Analysis.range?_eq_some hf.flow.finished hr
  let S := Setting.integers hf args hl
  obtain ⟨hhome, hend⟩ : f.home context = s.here ∧ S.AtEnd s context :=
    S.atEnd_of_isTerminator hs hrest hcontext hmem
  have hfetch : S.Fetches s (s.reading ℤ) := fun _ _ => rfl
  obtain ⟨hwell, hdesc⟩ := hend.describes hl hx hd
  have hwithin := hend.within hl hfetch
  rw [hhome]
  have hentered : Entered ((Analysis.ofFunc f).tripCount? f l)
      (s.here ≠ ((Analysis.ofFunc f).forest.get l).header) (s.reading ℤ) := by
    intro hbody count hcount
    obtain ⟨t, ht, hcount⟩ := Option.bind_eq_some_iff.mp hcount
    obtain ⟨kind, count', -, hcount', -, hk⟩ := hwithin t ht
    obtain rfl := Option.some.inj (hcount.symm.trans hcount')
    have := hk.body hbody
    omega
  have := hwell.contains_bounds hentered (fun _ => hwithin) (hdesc _ hfetch)
  dsimp only [Query.range]
  exact ⟨this.lower, this.upper⟩

/-- In the second iteration of the body the variable lies in its range. -/
theorem scaled_contains : ∃ s, scaled.Run (fun _ => 0) scaled.InRange s ∧ s.rest = [⟨10⟩] ∧
    s.env ⟨5⟩ = 2 ^ 28 ∧ 0 ≤ (s.env ⟨5⟩).toInt ∧ (s.env ⟨5⟩).toInt ≤ 805306368 := by
  obtain ⟨s, s', hs, -, hfound⟩ := scaled.exists_step_of_after (fun _ => 0) scaled.InRange 10
    (fun s _ => s.rest = [⟨10⟩] ∧ s.here = ⟨2⟩ ∧ s.env ⟨5⟩ = 2 ^ 28) (by decide +kernel)
  obtain ⟨hrest, hhere, henv⟩ := of_decide_eq_true hfound
  have hx : scaled.AvailableAtEnd s.here ⟨5⟩ := by
    rw [hhere]
    exact Func.availableAtEnd_of_check scaled_valid.flow (by decide +kernel)
  obtain ⟨hlo, hhi⟩ := Func.contains_of_range? scaled_valid hs hrest (by decide +kernel) hx
    (r := ⟨⟨.constant 0, .constant 805306368⟩, false⟩) (by decide +kernel)
  exact ⟨s, hs, hrest, henv, hlo 0 (Affine.read?_constant 0),
    hhi 805306368 (Affine.read?_constant 805306368)⟩

end LoopBounds
