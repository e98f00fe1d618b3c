import LoopBounds.Classify.Cycle
import LoopBounds.Proofs.Descriptor.Transfer
import LoopBounds.Proofs.Flow.LoopForest
import LoopBounds.Proofs.Run.Lap

/-!
# Values that follow a claim

A claim relates a value of a loop to the number of the iteration and to what the loop
fetches from outside. A value follows its claim when the claim holds in every state of a
run in which the value is current. For a family of claims it is enough that each of them
holds whenever its instruction is executed in a state that meets the others; the rest is
one induction on the run.
-/

namespace LoopBounds

/-- A loop of a valid function, and runs of it whose results the ring reads. -/
structure Setting (R : Type) [Arithmetic R] where
  func : Func
  valid : func.Valid
  args : Nat → Int32
  allowed : State → Prop
  reads : ∀ s, allowed s → func.Reads R s
  id : LoopId
  natural : (func.flow.loopForest.get id).Natural func.flow

section Readings

variable {f : Func} (hf : f.Valid) (args : Nat → Int32) {l : LoopId}

/-- All runs of a function, read in the words, seen from one of its loops. -/
def Setting.words (hl : l.index < f.flow.loopForest.loops.size) : Setting Int32 where
  func := f
  valid := hf
  args := args
  allowed _ := True
  reads s _ := f.reads_int32 s
  id := l
  natural := hf.flow.natural (LoopForest.mem_ids.mpr hl)

/-- The runs of a function in which results are exact, read in the integers. -/
def Setting.integers (hl : l.index < f.flow.loopForest.loops.size) : Setting ℤ where
  func := f
  valid := hf
  args := args
  allowed := f.InRange
  reads _ h := h
  id := l
  natural := hf.flow.natural (LoopForest.mem_ids.mpr hl)

end Readings

/-- A claim about a value: what is fetched, the number of the iteration, the value. -/
abbrev Claim (R : Type) := (InstrId → R) → ℕ → R → Prop

namespace Setting

variable {R : Type} [Arithmetic R] (S : Setting R)

def view : LoopView := ⟨S.func, S.func.flow.loopForest, S.id⟩

def loop : Loop := S.view.loop

def Run (s : State) : Prop := S.func.Run S.args S.allowed s

def iteration (s : State) : ℕ := S.loop.iteration s.trail

/-- The function `ρ` reads what the loop fetches in state `s`. -/
def Fetches (s : State) (ρ : InstrId → R) : Prop :=
  ∀ y, S.view.isOutside y = true → ρ y = s.reading R y

/-- The claim holds of the value of `x` in state `s`. -/
def Meets (s : State) (x : InstrId) (φ : Claim R) : Prop :=
  ∀ ρ, S.Fetches s ρ → φ ρ (S.iteration s) (s.reading R x)

/-- The claim holds of `x` wherever `x` is current. -/
def Follows (x : InstrId) (φ : Claim R) : Prop :=
  ∀ s, S.Run s → s.here ∈ S.loop.blocks → S.loop.Current S.func s x → S.Meets s x φ

def Ready (s : State) (x : InstrId) : Prop :=
  S.view.isOutside x = true ∨ S.loop.Current S.func s x

variable {S}

theorem contains_iff {b : BlockId} : S.view.contains b = true ↔ b ∈ S.loop.blocks :=
  S.valid.flow.finished.recorded S.id b

theorem contains_eq_false_iff {b : BlockId} : S.view.contains b = false ↔ b ∉ S.loop.blocks := by
  rw [← contains_iff, Bool.not_eq_true]

theorem isOutside_iff {x : InstrId} : S.view.isOutside x = true ↔
    (S.func.instr x).isLeaf = true ∨ S.func.home x ∉ S.loop.blocks := by
  rw [← contains_iff, Bool.not_eq_true]
  simp [LoopView.isOutside, view]

theorem isOutside_eq_false_iff {x : InstrId} : S.view.isOutside x = false ↔
    (S.func.instr x).isLeaf = false ∧ S.func.home x ∈ S.loop.blocks := by
  rw [← Bool.not_eq_true, isOutside_iff]
  simp

theorem loop_natural : S.loop.Natural S.func.flow := S.natural

variable {s s' : State}

theorem Run.placed (hs : S.Run s) : S.func.Placed s := Func.Run.placed S.valid hs

theorem Fetches.of_step (hs : S.Run s) (h : S.func.step? s = some s')
    (hin : s'.here ∈ S.loop.blocks) {ρ : InstrId → R} (hρ : S.Fetches s' ρ) :
    S.Fetches s ρ := by
  intro y hy
  rw [hρ y hy, State.reading, State.reading,
    hs.placed.env_eq_of_outside S.valid h hin (isOutside_iff.mp hy)]

/-- If each claim holds when its instruction is executed in a state that meets all of
them, they all hold in every state. -/
theorem follows_of_step (G : InstrId → Claim R → Prop) (hG : ∀ x φ, G x φ → S.func.Listed x)
    (hstep : ∀ s s', S.Run s → S.allowed s → S.func.step? s = some s' →
      s'.here ∈ S.loop.blocks →
      (s.here ∈ S.loop.blocks → ∀ y ψ, G y ψ → S.loop.Current S.func s y → S.Meets s y ψ) →
      ∀ x φ, G x φ → x ∈ S.func.executed s s' → S.Meets s' x φ) :
    ∀ x φ, G x φ → S.Follows x φ := by
  suffices h : ∀ s, S.Run s → s.here ∈ S.loop.blocks → ∀ x φ, G x φ →
      S.loop.Current S.func s x → S.Meets s x φ from
    fun x φ hx s hs hin hcur => h s hs hin x φ hx hcur
  intro s hs
  induction hs with
  | start =>
    intro hin
    exact absurd hin (loop_natural.entry_not_mem (Func.entry_not_mem_succs S.valid))
  | @step s s' hs hallowed h ih =>
    intro hin x φ hx hcur
    have hrun : S.Run s := hs
    rcases hrun.placed.current_step S.valid loop_natural h hin (hG x φ hx) hcur with
      hexec | ⟨hin', hcur', hiter, henv⟩
    · exact hstep s s' hs hallowed h hin ih x φ hx hexec
    · intro ρ hρ
      have := ih hin' x φ hx hcur' ρ (hρ.of_step hrun h hin)
      rwa [iteration, hiter, State.reading, henv]

/-- How the source `y` of a phi `x` comes to it in the step from `s` to `s'`: inside an
iteration, from one iteration to the next, or from outside the loop. -/
inductive Arrival (S : Setting R) (s s' : State) (x y : InstrId) : Prop
  | inside : S.func.home x ≠ S.loop.header → s.here ∈ S.loop.blocks →
      S.iteration s' = S.iteration s → S.Ready s y → Arrival S s s' x y
  | around : S.func.home x = S.loop.header → s.here ∈ S.loop.blocks →
      S.iteration s' = S.iteration s + 1 → S.Ready s y → Arrival S s s' x y
  | outside : S.func.home x = S.loop.header → s.here ∉ S.loop.blocks →
      S.iteration s' = 0 → S.view.isOutside y = true → s'.reading R y = s.reading R y →
      Arrival S s s' x y

/-- What an ordinary instruction `x` of value `v` finds in the step from `s` to `s'`. -/
structure Computed (S : Setting R) (s s' : State) (x : InstrId) (v : Int32) : Prop where
  rest : ∃ rest, s.rest = x :: rest
  value : (S.func.instr x).value? s.env = some v
  reading : s'.reading R x = ofWord R v
  here : s.here ∈ S.loop.blocks
  iteration : S.iteration s' = S.iteration s
  ready : ∀ y ∈ (S.func.instr x).operands, S.Ready s y

section Executed

variable (hs : S.Run s) (h : S.func.step? s = some s') (hin : s'.here ∈ S.loop.blocks)

include hs h hin

theorem computed_of_executed {x : InstrId} (hx : x ∈ S.func.executed s s')
    (hphi : (S.func.instr x).isPhi = false) : ∃ v, S.Computed s s' x v := by
  rcases Func.step_cases h with ⟨z, rest, v, hrest, -, hv, he, rfl⟩ | ⟨z, rest, c, -, -, -, he, -⟩
  · obtain rfl : x = z := by simpa [he] using hx
    refine ⟨v, ⟨rest, hrest⟩, hv, by simp [State.reading], hin, rfl, ?_⟩
    intro y hy
    by_cases hout : S.view.isOutside y = true
    · exact .inl hout
    · rw [Bool.not_eq_true, isOutside_eq_false_iff] at hout
      obtain ⟨done, heq⟩ := hs.placed.instrs_eq
      have hav := S.valid.operand_available _ done x rest (hrest ▸ heq) hphi y hy
      exact .inr (hs.placed.current_of_availableAfter S.valid loop_natural hin heq hav
        hout.1 hout.2)
  · obtain ⟨sources, hsources⟩ := S.valid.phi c x (he ▸ hx)
    simp [hsources, Instr.isPhi] at hphi

theorem arrival_of_executed {x : InstrId} {sources : List (InstrId × BlockId)}
    (hx : x ∈ S.func.executed s s') (hphi : S.func.instr x = .phi sources) :
    ∃ y b, (y, b) ∈ sources ∧ s'.reading R x = s.reading R y ∧ b = s.here ∧
      S.Arrival s s' x y := by
  rcases Func.step_cases h with ⟨z, rest, v, hrest, hz, -, he, rfl⟩ |
    ⟨z, rest, c, hrest, hz, hc, he, rfl⟩
  · obtain rfl : x = z := by simpa [he] using hx
    have := (S.valid.body _ x (hs.placed.mem_body_of_not_isTerminator S.valid hrest hz)).1
    simp [hphi, Instr.isPhi] at this
  rw [he] at hx
  have hhome : S.func.home x = c := S.valid.home_of_mem_phis hx
  have hedge : c ∈ S.func.flow.succs s.here := hs.placed.edge S.valid hrest hz hc
  have hpred : s.here ∈ sources.map Prod.snd :=
    ((S.valid.sources c x hx sources hphi).2 s.here).mpr
      ((S.valid.flow.edges s.here c).mp hedge)
  obtain ⟨⟨y, b⟩, hfind⟩ : ∃ t, sources.find? (·.2 = s.here) = some t := by
    rw [← Option.isSome_iff_exists, List.find?_isSome]
    obtain ⟨t, ht, heq⟩ := List.mem_map.mp hpred
    exact ⟨t, ht, decide_eq_true heq⟩
  have hmem : (y, b) ∈ sources := List.mem_of_find?_eq_some hfind
  obtain rfl : b = s.here := by simpa using List.find?_some hfind
  have hav : S.func.AvailableAtEnd s.here y := S.valid.source_available c x hx sources hphi _ hmem
  have hread : (S.func.enter s c).reading R x = s.reading R y := by
    simp [State.reading, Func.enter, hx, hphi, Instr.incoming, hfind]
  refine ⟨y, s.here, hmem, hread, rfl, ?_⟩
  have hready (hhere : s.here ∈ S.loop.blocks) : S.Ready s y := by
    by_cases hout : S.view.isOutside y = true
    · exact .inl hout
    · rw [Bool.not_eq_true, isOutside_eq_false_iff] at hout
      exact .inr (hs.placed.current_of_availableAtEnd S.valid loop_natural hhere hrest hz hav
        hout.1 hout.2)
  by_cases hch : c = S.loop.header
  · have hiter : S.iteration (S.func.enter s c) =
        if s.here ∈ S.loop.latches then S.iteration s + 1 else 0 := by
      rw [hch]
      exact Func.iteration_enter_header
    have hlatch : s.here ∈ S.loop.latches ↔ s.here ∈ S.loop.blocks :=
      loop_natural.mem_latches_iff hs.placed.reachable (hch ▸ hedge)
    by_cases hhere : s.here ∈ S.loop.blocks
    · rw [if_pos (hlatch.mpr hhere)] at hiter
      exact .around (hhome.trans hch) hhere hiter (hready hhere)
    · rw [if_neg (mt hlatch.mp hhere)] at hiter
      have hout : S.view.isOutside y = true := by
        refine isOutside_iff.mpr (hav.imp (fun h => h) fun hd => ?_)
        exact loop_natural.not_mem_of_dominates hs.placed.reachable (hch ▸ hedge) hhere hd.2
      refine .outside (hhome.trans hch) hhere hiter hout ?_
      rw [State.reading, State.reading,
        hs.placed.env_eq_of_outside S.valid h hin (isOutside_iff.mp hout)]
  · have hhere : s.here ∈ S.loop.blocks :=
      loop_natural.entered _ _ hin hch hs.placed.reachable hedge
    exact .inside (hhome ▸ hch) hhere (Func.iteration_enter hch) (hready hhere)

end Executed

end Setting

end LoopBounds
