import LoopBounds.Proofs.Run.Basic

/-!
# Values of the current lap

A value of a loop is current when its instruction has been executed since control last
came to the header. Where a definition in the loop dominates a use there, the use reads a
current value. One step makes the values current that it executes, and apart from them
nothing is current that has not been so before.
-/

namespace LoopBounds

/-- The instruction `x` has been executed in the current lap of the loop. -/
def Loop.Current (l : Loop) (f : Func) (s : State) (x : InstrId) : Prop :=
  (f.home x = s.here ∧ x ∉ s.rest) ∨ (s.here ≠ l.header ∧ f.home x ∈ l.lap s.past)

namespace Func

section Enter

variable {f : Func} {s : State} {l : Loop}

theorem iteration_enter {c : BlockId} (hc : c ≠ l.header) :
    l.iteration (f.enter s c).trail = l.iteration s.trail := by
  simp [enter, State.trail, Loop.iteration, hc]

theorem iteration_enter_header :
    l.iteration (f.enter s l.header).trail =
      if s.here ∈ l.latches then l.iteration s.trail + 1 else 0 := by
  simp [enter, State.trail, Loop.iteration]

theorem mem_phis_of_not_mem_ordinary {c : BlockId} {x : InstrId} (hx : f.Listed x)
    (hhome : f.home x = c) (hrest : x ∉ (f.block c).ordinary) : x ∈ (f.block c).phis := by
  rw [Listed, hhome] at hx
  rcases List.mem_append.mp hx with hx | hx
  · exact hx
  · exact absurd (List.mem_append_left _ hx) hrest

end Enter

end Func

namespace Func.Placed

variable {f : Func} {s s' : State} {l : Loop}
variable (hf : f.Valid) (hs : f.Placed s) (hl : l.Natural f.flow)

include hs hl

theorem current_of_dominates {y : InstrId} (hin : s.here ∈ l.blocks)
    (hy : f.home y ∈ l.blocks) (hne : f.home y ≠ s.here)
    (hd : f.flow.Dominates (f.home y) s.here) : l.Current f s y := by
  have hlap := hl.mem_lap_of_dominates hs.trail hin hy hd
  unfold Loop.lap at hlap
  split at hlap
  · exact absurd (List.mem_singleton.mp hlap) hne
  · rename_i hh
    exact .inr ⟨hh, (List.mem_cons.mp hlap).resolve_left hne⟩

include hf

theorem current_of_availableAfter {y : InstrId} {done : List InstrId}
    (hin : s.here ∈ l.blocks) (heq : (f.block s.here).instrs = done ++ s.rest)
    (hav : f.AvailableAfter done s.here y) (hleaf : (f.instr y).isLeaf = false)
    (hy : f.home y ∈ l.blocks) : l.Current f s y := by
  rcases hav with h | h | ⟨-, hne, hd⟩
  · rw [hleaf] at h
    cases h
  · have hnodup := hf.nodup s.here
    rw [heq] at hnodup
    refine .inl ⟨hf.home _ y (heq ▸ List.mem_append_left _ h), fun hrest => ?_⟩
    exact (List.nodup_append.mp hnodup).2.2 y h y hrest rfl
  · exact hs.current_of_dominates hl hin hy hne hd

/-- At the end of a block of the loop all values from inside that dominate it are
current. -/
theorem current_of_availableAtEnd {x y : InstrId} {rest : List InstrId}
    (hin : s.here ∈ l.blocks) (hrest : s.rest = x :: rest)
    (hx : (f.instr x).isTerminator = true) (hav : f.AvailableAtEnd s.here y)
    (hleaf : (f.instr y).isLeaf = false) (hy : f.home y ∈ l.blocks) : l.Current f s y := by
  rcases hav with h | ⟨hlisted, hd⟩
  · rw [hleaf] at h
    cases h
  · by_cases hne : f.home y = s.here
    · refine .inl ⟨hne, fun hmem => ?_⟩
      rw [hrest, (hs.rest_of_isTerminator hf hrest hx).1, List.mem_singleton] at hmem
      have := hf.not_isTerminator_of_mem_values hlisted
      rw [hmem, hx] at this
      cases this
    · exact hs.current_of_dominates hl hin hy hne hd

/-- What is current after a step has been executed by it or was current before. -/
theorem current_step (h : f.step? s = some s') (hin : s'.here ∈ l.blocks) {x : InstrId}
    (hx : f.Listed x) (hcur : l.Current f s' x) :
    x ∈ f.executed s s' ∨ (s.here ∈ l.blocks ∧ l.Current f s x ∧
      l.iteration s'.trail = l.iteration s.trail ∧ s'.env x = s.env x) := by
  by_cases hexec : x ∈ f.executed s s'
  · exact .inl hexec
  refine .inr ?_
  rcases step_cases h with ⟨z, rest, v, hrest, hz, -, he, rfl⟩ |
    ⟨z, rest, c, hrest, hz, hc, he, rfl⟩
  · have hne : x ≠ z := fun heq => hexec (he ▸ heq ▸ List.mem_cons_self)
    refine ⟨hin, ?_, rfl, Function.update_of_ne hne _ _⟩
    refine hcur.imp (fun ⟨hhome, hmem⟩ => ⟨hhome, ?_⟩) id
    rw [hrest]
    exact fun h => hmem ((List.mem_cons.mp h).resolve_left hne)
  · rw [he] at hexec
    have henv : (f.enter s c).env x = s.env x := if_neg hexec
    by_cases hch : c = l.header
    · rcases hcur with ⟨hhome, hmem⟩ | ⟨hh, -⟩
      · exact absurd (mem_phis_of_not_mem_ordinary hx hhome hmem) hexec
      · exact absurd hch hh
    · have hhere : s.here ∈ l.blocks :=
        hl.entered _ _ hin hch hs.reachable (hs.edge hf hrest hz hc)
      refine ⟨hhere, ?_, iteration_enter hch, henv⟩
      rcases hcur with ⟨hhome, hmem⟩ | ⟨-, hmem⟩
      · exact absurd (mem_phis_of_not_mem_ordinary hx hhome hmem) hexec
      · have hterm : x ∉ s.rest := fun hmem => by
          rw [hrest, (hs.rest_of_isTerminator hf hrest hz).1, List.mem_singleton] at hmem
          have := hf.not_isTerminator_of_mem_values hx
          rw [hmem, hz] at this
          cases this
        change f.home x ∈ l.lap (s.here :: s.past) at hmem
        unfold Loop.lap at hmem
        split at hmem
        · exact .inl ⟨List.mem_singleton.mp hmem, hterm⟩
        · rename_i hh
          rcases List.mem_cons.mp hmem with hmem | hmem
          · exact .inl ⟨hmem, hterm⟩
          · exact .inr ⟨hh, hmem⟩

omit hl in
/-- A step that stays in or comes into the loop leaves everything outside alone. -/
theorem env_eq_of_outside (h : f.step? s = some s') (hin : s'.here ∈ l.blocks) {x : InstrId}
    (hx : (f.instr x).isLeaf = true ∨ f.home x ∉ l.blocks) : s'.env x = s.env x := by
  have houtside {b : BlockId} (hb : b ∈ l.blocks) : x ∉ (f.block b).values := fun hmem => by
    rcases hx with hx | hx
    · rw [hf.not_isLeaf_of_mem_values hmem] at hx
      cases hx
    · exact hx (hf.home b x (List.mem_append_left _ hmem) ▸ hb)
  rcases step_cases h with ⟨z, rest, v, hrest, hz, -, -, rfl⟩ | ⟨z, rest, c, -, -, -, -, rfl⟩
  · have hbody := hs.mem_body_of_not_isTerminator hf hrest hz
    have hne : x ≠ z := by
      rintro rfl
      exact houtside hin (List.mem_append_right _ hbody)
    exact Function.update_of_ne hne _ _
  · exact if_neg fun hmem => houtside hin (List.mem_append_left _ hmem)

end Func.Placed

namespace Func

variable {f : Func} (hf : f.Valid) {args : Nat → Int32} {allowed : State → Prop} {s : State}

theorem placed_initial : f.Placed (f.initial args) :=
  ⟨.entry, ⟨[], rfl⟩, fun x v h => by simp [initial, initialEnv, h]⟩

include hf

theorem Run.placed (h : f.Run args allowed s) : f.Placed s := by
  induction h with
  | start => exact placed_initial
  | step _ _ h ih => exact ih.step hf h

theorem entry_not_mem_succs (b : BlockId) : BlockId.entry ∉ f.flow.succs b := fun h => by
  have : b ∈ (f.block .entry).preds := (hf.flow.edges b .entry).mp h
  rw [hf.entry] at this
  cases this

/-- What holds at the end of every block from which control comes into the loop, and is about
values from outside only, holds in the loop throughout. -/
theorem Run.of_ways_in {l : Loop} {φ : Env → Prop} (hl : l.Natural f.flow)
    (hcongr : ∀ env env', (∀ y, (f.instr y).isLeaf = true ∨ f.home y ∉ l.blocks →
      env' y = env y) → φ env → φ env')
    (hway : ∀ s x rest, f.Run args allowed s → s.here ∉ l.blocks →
      l.header ∈ f.flow.succs s.here → s.rest = x :: rest → (f.instr x).isTerminator = true →
      φ s.env)
    (hs : f.Run args allowed s) (hin : s.here ∈ l.blocks) : φ s.env := by
  induction hs with
  | start => exact absurd hin (hl.entry_not_mem (entry_not_mem_succs hf))
  | @step s s' hs _ hstep ih =>
    have hplaced := hs.placed hf
    refine hcongr s.env s'.env (fun y hy => hplaced.env_eq_of_outside hf hstep hin hy) ?_
    by_cases hhere : s.here ∈ l.blocks
    · exact ih hhere
    · rcases step_cases hstep with ⟨x, rest, v, -, -, -, -, rfl⟩ |
        ⟨x, rest, c, hrest, hx, hc, -, rfl⟩
      · exact absurd hin hhere
      · have hedge := hplaced.edge hf hrest hx hc
        have hheader : c = l.header := hl.eq_header_of_edge hplaced.reachable hedge hin hhere
        exact hway s x rest hs hhere (hheader ▸ hedge) hrest hx

end Func

end LoopBounds
