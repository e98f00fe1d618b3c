import LoopBounds.Proofs.Func.Growth
import LoopBounds.Proofs.Run.Arithmetic

/-!
# Added code changes no behaviour

The code that a function has grown by computes values that no old instruction reads, and it
cannot fail. So a run of the grown function goes through the same blocks as a run of the old
one, with the same old values, and only stops on the way at new code.
-/

namespace LoopBounds

namespace Instr

variable {env env' : Env} {i : Instr}

theorem IsCode.exists_value (h : i.IsCode) (env : Env) : ∃ v, i.value? env = some v := by
  cases i with
  | arith op x y => rcases h with rfl | rfl <;> exact ⟨_, rfl⟩
  | neg x => exact ⟨_, rfl⟩
  | compare op x y => exact ⟨_, rfl⟩
  | _ => cases h

theorem value?_congr (h : ∀ y ∈ i.operands, env' y = env y) : i.value? env' = i.value? env := by
  cases i with
  | arith | neg | compare => simp_all [operands, value?]
  | _ => rfl

theorem next?_congr (h : ∀ y ∈ i.operands, env' y = env y) : i.next? env' = i.next? env := by
  cases i with
  | branch => simp_all [operands, next?]
  | _ => rfl

theorem incoming_congr (h : ∀ y ∈ i.operands, env' y = env y) (b : BlockId) :
    i.incoming env' b = i.incoming env b := by
  cases i with
  | phi sources =>
    simp only [incoming]
    cases hfind : sources.find? (·.2 = b) with
    | none => rfl
    | some s => exact h s.1 (List.mem_map_of_mem (List.mem_of_find?_eq_some hfind))
  | _ => rfl

end Instr

namespace Func

/-- Some run goes through the blocks `t`, the latest first. -/
def Visits (f : Func) (args : Nat → Int32) (t : List BlockId) : Prop :=
  ∃ s, f.Run args (fun _ => True) s ∧ s.trail = t

/-- The run that has gone through the blocks `t` returns `v`. -/
def Returns (f : Func) (args : Nat → Int32) (t : List BlockId) (v : Option Int32) : Prop :=
  ∃ s x rest, f.Run args (fun _ => True) s ∧ s.trail = t ∧ s.rest = x :: rest ∧
    ∃ r, f.instr x = .ret r ∧ v = r.map s.env

/-- The run that has gone through the blocks `t` stops at a division by zero. -/
def Stops (f : Func) (args : Nat → Int32) (t : List BlockId) : Prop :=
  ∃ s x rest, f.Run args (fun _ => True) s ∧ s.trail = t ∧ s.rest = x :: rest ∧
    (f.instr x).isTerminator = false ∧ (f.instr x).value? s.env = none

/-- For all arguments both functions go through the same blocks, return the same values and
stop at a division in the same places. -/
structure SameBehaviour (f g : Func) : Prop where
  visits : ∀ args t, g.Visits args t ↔ f.Visits args t
  returns : ∀ args t v, g.Returns args t v ↔ f.Returns args t v
  stops : ∀ args t, g.Stops args t ↔ f.Stops args t

variable {f g : Func} {args : Nat → Int32} {s t : State} {x : InstrId}

theorem Valid.operand_index_lt (hf : f.Valid) (hfill : f.Filled) {b : BlockId}
    (hx : x ∈ (f.block b).instrs) : ∀ y ∈ (f.instr x).operands, y.index < f.nodes.size :=
  fun _ hy => hf.linked.operand_index_lt hfill hx hy

/-- State `t` of the grown function is state `s` of the old one, with new code before the
terminator still to be executed. -/
structure Matches (f g : Func) (s t : State) : Prop where
  here : t.here = s.here
  past : t.past = s.past
  env : ∀ x, x.index < f.nodes.size → t.env x = s.env x
  rest : ∃ body code, s.rest = body ++ (f.block s.here).terminator.toList ∧
    t.rest = body ++ code ++ (f.block s.here).terminator.toList ∧
    body ⊆ (f.block s.here).body ∧ ∀ z ∈ code, f.nodes.size ≤ z.index ∧ (g.instr z).IsCode

namespace Extends

variable (hfg : f.Extends g)

include hfg

theorem exists_ordinary (c : BlockId) : ∃ code,
    (g.block c).ordinary = (f.block c).body ++ code ++ (f.block c).terminator.toList ∧
      ∀ z ∈ code, f.nodes.size ≤ z.index ∧ (g.instr z).IsCode := by
  obtain ⟨code, hcode⟩ := hfg.block c
  refine ⟨code, ?_, fun z hz => ⟨(hcode.new z hz).1, hcode.isCode z hz⟩⟩
  rw [Block.ordinary, hcode.block]

theorem matches_initial (args : Nat → Int32) : f.Matches g (f.initial args) (g.initial args) where
  here := rfl
  past := rfl
  env x hx := by simp only [initial, initialEnv, hfg.instr hx]
  rest := by
    obtain ⟨code, hord, hcode⟩ := hfg.exists_ordinary .entry
    exact ⟨_, code, rfl, hord, List.Subset.refl _, hcode⟩

end Extends

namespace Matches

variable (h : f.Matches g s t)

include h

theorem trail : t.trail = s.trail := by
  rw [State.trail, State.trail, h.here, h.past]

theorem mem_instrs (hx : s.rest.head? = some x) : x ∈ (f.block s.here).instrs := by
  obtain ⟨body, code, hs, -, hbody, -⟩ := h.rest
  have hmem : x ∈ body ++ (f.block s.here).terminator.toList :=
    hs ▸ List.mem_of_mem_head? hx
  rcases List.mem_append.mp hmem with h | h
  · exact List.mem_append_left _ (List.mem_append_right _ (hbody h))
  · exact List.mem_append_right _ h

/-- The grown function executes next what the old one does, or new code. -/
theorem head_cases (hx : t.rest.head? = some x) :
    s.rest.head? = some x ∨ f.nodes.size ≤ x.index ∧ (g.instr x).IsCode := by
  obtain ⟨body, code, hs, heq, -, hcode⟩ := h.rest
  rw [hs]
  rw [heq] at hx
  cases body with
  | cons y body => exact .inl hx
  | nil =>
    cases code with
    | nil => exact .inl hx
    | cons y code =>
      obtain rfl : y = x := Option.some.inj hx
      exact .inr (hcode y List.mem_cons_self)

theorem skip (hfill : f.Filled) {z : InstrId} {w : List InstrId} (ht : t.rest = z :: w)
    (hz : f.nodes.size ≤ z.index) : ∃ t', g.step? t = some t' ∧ f.Matches g s t' ∧ t'.rest = w := by
  have hnot : s.rest.head? ≠ some z := fun hz' =>
    absurd (hfill _ z (h.mem_instrs hz')) (Nat.not_lt.mpr hz)
  obtain ⟨body, code, hs, heq, hbody, hcode⟩ := h.rest
  obtain rfl : body = [] := by
    cases body with
    | nil => rfl
    | cons y body =>
      rw [ht] at heq
      obtain ⟨rfl, -⟩ := List.cons.inj heq
      exact absurd (by rw [hs]; rfl) hnot
  rw [List.nil_append] at hs heq
  cases code with
  | nil => exact absurd (by rw [hs, ← List.nil_append (Option.toList _), ← heq, ht]; rfl) hnot
  | cons y code =>
    rw [ht] at heq
    obtain ⟨rfl, hw⟩ := List.cons.inj heq
    have hz' := (hcode z List.mem_cons_self).2
    obtain ⟨v, hv⟩ := hz'.exists_value t.env
    refine ⟨{ t with rest := w, env := Function.update t.env z v }, ?_, ⟨h.here, h.past, ?_, ?_⟩,
      rfl⟩
    · simp [step?, ht, hz'.kind.2.1, hv]
    · intro x hx
      have hne : x ≠ z := by
        rintro rfl
        exact absurd hx (Nat.not_lt.mpr hz)
      rw [← h.env x hx]
      exact Function.update_of_ne hne _ _
    · exact ⟨[], code, hs, hw, hbody, fun y hy => hcode y (List.mem_cons_of_mem _ hy)⟩

/-- The grown function comes to the instruction that the old one executes next. -/
theorem exists_ready (hfill : f.Filled) (ht : g.Run args (fun _ => True) t) :
    ∃ t', g.Run args (fun _ => True) t' ∧
    f.Matches g s t' ∧ t'.rest.head? = s.rest.head? := by
  obtain ⟨body, code, hs, heq, hbody, hcode⟩ := h.rest
  cases body with
  | cons y body => exact ⟨t, ht, h, by rw [hs, heq]; rfl⟩
  | nil =>
    rw [List.nil_append] at hs heq
    induction code generalizing t with
    | nil => exact ⟨t, ht, h, by rw [hs, heq]; rfl⟩
    | cons z code ih =>
      obtain ⟨t', hstep, hmatch, hrest⟩ := h.skip hfill heq (hcode z List.mem_cons_self).1
      exact ih hmatch (ht.step trivial hstep) (fun y hy => hcode y (List.mem_cons_of_mem _ hy))
        hrest

/-- The operands of what is executed next have the same values in both functions. -/
theorem env_operands (hf : f.Valid) (hfill : f.Filled) (hx : s.rest.head? = some x) :
    ∀ y ∈ (f.instr x).operands, t.env y = s.env y :=
  fun y hy => h.env y (hf.operand_index_lt hfill (h.mem_instrs hx) y hy)

theorem value (hf : f.Valid) {r w : List InstrId} {v : Int32} (hr : s.rest = x :: r)
    (hw : t.rest = x :: w) (hterm : (f.instr x).isTerminator = false) :
    f.Matches g { s with rest := r, env := Function.update s.env x v }
      { t with rest := w, env := Function.update t.env x v } := by
  obtain ⟨body, code, hs, heq, hbody, hcode⟩ := h.rest
  refine ⟨h.here, h.past, fun y hy => ?_, ?_⟩
  · by_cases hyx : y = x
    · simp [hyx]
    · simpa [Function.update_of_ne hyx] using h.env y hy
  · cases body with
    | nil =>
      have hmem : x ∈ (f.block s.here).terminator.toList := by
        rw [List.nil_append] at hs
        rw [← hs, hr]
        exact List.mem_cons_self
      rw [hf.terminator _ x (by simpa using hmem)] at hterm
      cases hterm
    | cons y body =>
      rw [hr] at hs
      rw [hw] at heq
      exact ⟨body, code, (List.cons.inj hs).2, (List.cons.inj heq).2,
        fun y hy => hbody (List.mem_cons_of_mem _ hy), hcode⟩

end Matches

namespace Extends

variable (hfg : f.Extends g) (hfill : f.Filled) (h : f.Matches g s t) (hf : f.Valid)

include hfg hfill h hf

theorem matches_enter (c : BlockId) : f.Matches g (f.enter s c) (g.enter t c) where
  here := rfl
  past := by simp [enter, h.here, h.past]
  env y hy := by
    simp only [enter, hfg.phis, hfg.instr hy]
    split_ifs with hphi
    · have hmem : y ∈ (f.block c).instrs := List.mem_append_left _ (List.mem_append_left _ hphi)
      rw [h.here]
      exact Instr.incoming_congr (fun z hz => h.env z (hf.operand_index_lt hfill hmem z hz)) _
    · exact h.env y hy
  rest := by
    obtain ⟨code, hord, hcode⟩ := hfg.exists_ordinary c
    exact ⟨_, code, rfl, hord, List.Subset.refl _, hcode⟩

/-- Both functions execute an old instruction in the same way. -/
theorem matches_step (hx : s.rest.head? = some x) (ht : t.rest.head? = some x) :
    (f.step? s = none ∧ g.step? t = none) ∨
      ∃ s' t', f.step? s = some s' ∧ g.step? t = some t' ∧ f.Matches g s' t' := by
  obtain ⟨r, hr⟩ := List.head?_eq_some_iff.mp hx
  obtain ⟨w, hw⟩ := List.head?_eq_some_iff.mp ht
  have hinstr := hfg.instr (hfill _ x (h.mem_instrs hx))
  have hops := h.env_operands hf hfill hx
  cases hterm : (f.instr x).isTerminator with
  | true =>
    have hnext := Instr.next?_congr hops
    cases hc : (f.instr x).next? s.env with
    | none => exact .inl (by simp [step?, hr, hw, hinstr, hterm, hnext, hc])
    | some c =>
      refine .inr ⟨f.enter s c, g.enter t c, ?_, ?_, hfg.matches_enter hfill h hf c⟩
      · simp [step?, hr, hterm, hc]
      · simp [step?, hw, hinstr, hterm, hnext, hc]
  | false =>
    have hvalue := Instr.value?_congr hops
    cases hv : (f.instr x).value? s.env with
    | none => exact .inl (by simp [step?, hr, hw, hinstr, hterm, hvalue, hv])
    | some v =>
      refine .inr ⟨_, _, ?_, ?_, h.value hf hr hw hterm (v := v)⟩
      · simp [step?, hr, hterm, hv]
      · simp [step?, hw, hinstr, hterm, hvalue, hv]

omit h

theorem exists_matches (hs : f.Run args (fun _ => True) s) :
    ∃ t, g.Run args (fun _ => True) t ∧ f.Matches g s t ∧ t.rest.head? = s.rest.head? := by
  induction hs with
  | start => exact (hfg.matches_initial args).exists_ready hfill .start
  | @step s s' hs _ hstep ih =>
    obtain ⟨t, ht, hmatch, hhead⟩ := ih
    cases hrest : s.rest with
    | nil => simp [step?, hrest] at hstep
    | cons x r =>
      have hx : s.rest.head? = some x := by rw [hrest]; rfl
      rcases hfg.matches_step hfill hmatch hf hx (hhead.trans hx) with
        ⟨hnone, -⟩ | ⟨s'', t', hstep', ht', hmatch'⟩
      · rw [hnone] at hstep
        cases hstep
      · obtain rfl : s'' = s' := Option.some.inj (hstep'.symm.trans hstep)
        exact hmatch'.exists_ready hfill (ht.step trivial ht')

theorem exists_matched (ht : g.Run args (fun _ => True) t) :
    ∃ s, f.Run args (fun _ => True) s ∧ f.Matches g s t := by
  induction ht with
  | start => exact ⟨_, .start, hfg.matches_initial args⟩
  | @step t t' _ _ hstep ih =>
    obtain ⟨s, hs, hmatch⟩ := ih
    cases hrest : t.rest with
    | nil => simp [step?, hrest] at hstep
    | cons z w =>
      have hz : t.rest.head? = some z := by rw [hrest]; rfl
      rcases hmatch.head_cases hz with hhead | ⟨hnew, -⟩
      · rcases hfg.matches_step hfill hmatch hf hhead hz with
          ⟨-, hnone⟩ | ⟨s', t'', hs', hstep', hmatch'⟩
        · rw [hnone] at hstep
          cases hstep
        · obtain rfl : t'' = t' := Option.some.inj (hstep'.symm.trans hstep)
          exact ⟨s', hs.step trivial hs', hmatch'⟩
      · obtain ⟨t'', hstep', hmatch', -⟩ := hmatch.skip hfill hrest hnew
        obtain rfl : t'' = t' := Option.some.inj (hstep'.symm.trans hstep)
        exact ⟨s, hs, hmatch'⟩

/-- Whatever can be said of the next instruction and its operands where it is old, and not of
new code, can be said after the same blocks in both functions. -/
theorem exists_run_iff {trail : List BlockId} {P : Instr → Env → Prop}
    (hcode : ∀ i env, i.IsCode → ¬ P i env)
    (hcongr : ∀ i env env', (∀ y ∈ i.operands, env' y = env y) → P i env → P i env') :
    (∃ t x rest, g.Run args (fun _ => True) t ∧ t.trail = trail ∧ t.rest = x :: rest ∧
      P (g.instr x) t.env) ↔
    ∃ s x rest, f.Run args (fun _ => True) s ∧ s.trail = trail ∧ s.rest = x :: rest ∧
      P (f.instr x) s.env := by
  constructor
  · rintro ⟨t, x, rest, ht, rfl, hrest, hP⟩
    obtain ⟨s, hs, hmatch⟩ := hfg.exists_matched hfill hf ht
    have hx : t.rest.head? = some x := by rw [hrest]; rfl
    rcases hmatch.head_cases hx with hhead | ⟨-, hnew⟩
    · obtain ⟨r, hr⟩ := List.head?_eq_some_iff.mp hhead
      rw [hfg.instr (hfill _ x (hmatch.mem_instrs hhead))] at hP
      refine ⟨s, x, r, hs, hmatch.trail.symm, hr, hcongr _ _ _ (fun y hy => ?_) hP⟩
      exact (hmatch.env_operands hf hfill hhead y hy).symm
    · exact absurd hP (hcode _ _ hnew)
  · rintro ⟨s, x, rest, hs, rfl, hrest, hP⟩
    obtain ⟨t, ht, hmatch, hhead⟩ := hfg.exists_matches hfill hf hs
    have hx : s.rest.head? = some x := by rw [hrest]; rfl
    obtain ⟨w, hw⟩ := List.head?_eq_some_iff.mp (hhead.trans hx)
    refine ⟨t, x, w, ht, hmatch.trail, hw, ?_⟩
    rw [hfg.instr (hfill _ x (hmatch.mem_instrs hx))]
    exact hcongr _ _ _ (hmatch.env_operands hf hfill hx) hP

/-- Growing by code changes no behaviour. -/
theorem sameBehaviour : f.SameBehaviour g where
  visits args trail := by
    constructor
    · rintro ⟨t, ht, rfl⟩
      obtain ⟨s, hs, hmatch⟩ := hfg.exists_matched hfill hf ht
      exact ⟨s, hs, hmatch.trail.symm⟩
    · rintro ⟨s, hs, rfl⟩
      obtain ⟨t, ht, hmatch, -⟩ := hfg.exists_matches hfill hf hs
      exact ⟨t, ht, hmatch.trail⟩
  returns args trail v := by
    refine hfg.exists_run_iff hfill hf (P := fun i env => ∃ r, i = .ret r ∧ v = r.map env) ?_ ?_
    · rintro _ env hcode ⟨r, rfl, -⟩
      cases hcode
    · rintro _ env env' henv ⟨r, rfl, rfl⟩
      refine ⟨r, rfl, ?_⟩
      cases r with
      | none => rfl
      | some y => simp [henv y (by simp [Instr.operands])]
  stops args trail := by
    refine hfg.exists_run_iff hfill hf
      (P := fun i env => i.isTerminator = false ∧ i.value? env = none) ?_ ?_
    · rintro i env hcode ⟨-, hnone⟩
      obtain ⟨v, hv⟩ := hcode.exists_value env
      rw [hv] at hnone
      cases hnone
    · rintro i env env' henv ⟨hterm, hnone⟩
      exact ⟨hterm, (Instr.value?_congr henv).trans hnone⟩

end Extends

end Func

end LoopBounds
