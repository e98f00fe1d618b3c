import LoopBounds.Proofs.Func.Appended
import LoopBounds.Proofs.Run.Growth
import Mathlib.Logic.Relation

/-!
# Executing added code

Added code cannot fail, so a run that comes to it gets to its end. As each instruction reads
only what comes before it, the values at the end solve the equations of all instructions at
once: each has the value that it computes from the values at the end.
-/

namespace LoopBounds.Func

variable {f g h : Func} {s : State} {x : InstrId} {xs rest : List InstrId} {env : Env}
variable {n m : ℕ}

/-- Some steps lead from one state to the other. -/
def Reaches (f : Func) : State → State → Prop :=
  Relation.ReflTransGen fun s s' => f.step? s = some s'

/-- Constants have their values, and the code from position `n` up to `m` has the values that it
computes. -/
structure Settled (f : Func) (n m : ℕ) (env : Env) : Prop where
  constant : ∀ x v, f.instr x = .constant v → env x = v
  code : ∀ x, n ≤ x.index → x.index < m → (f.instr x).IsCode →
    (f.instr x).value? env = some (env x)

theorem Settled.mono {n' m' : ℕ} (hs : f.Settled n m env) (hn : n ≤ n') (hm : m' ≤ m) :
    f.Settled n' m' env :=
  ⟨hs.constant, fun x hx hlt => hs.code x (hn.trans hx) (hlt.trans_le hm)⟩

/-- Code whose instructions read only what comes before them is executed to its end, and then
all its instructions have the values that they compute. -/
theorem exists_reaches_of_code (hcode : ∀ x ∈ xs, (f.instr x).IsCode)
    (hsorted : xs.Pairwise (·.index < ·.index))
    (hops : ∀ x ∈ xs, ∀ y ∈ (f.instr x).operands, y.index < x.index)
    (hrest : s.rest = xs ++ rest) : ∃ env, f.Reaches s { s with rest := rest, env := env } ∧
      (∀ y ∉ xs, env y = s.env y) ∧ ∀ x ∈ xs, (f.instr x).value? env = some (env x) := by
  induction xs generalizing s with
  | nil =>
    rw [List.nil_append] at hrest
    subst hrest
    exact ⟨s.env, .refl, fun _ _ => rfl, fun x hx => absurd hx List.not_mem_nil⟩
  | cons x xs ih =>
    obtain ⟨hlt, hsorted⟩ := List.pairwise_cons.mp hsorted
    obtain ⟨hx, hcode⟩ := List.forall_mem_cons.mp hcode
    obtain ⟨hopsx, hops⟩ := List.forall_mem_cons.mp hops
    obtain ⟨v, hv⟩ := hx.exists_value s.env
    have hstep : f.step? s =
        some { s with rest := xs ++ rest, env := Function.update s.env x v } := by
      simp [step?, hrest, hx.kind.2.1, hv]
    obtain ⟨env, hreach, hold, hnew⟩ := ih
      (s := { s with rest := xs ++ rest, env := Function.update s.env x v }) hcode hsorted hops rfl
    have hnot {y : InstrId} (hy : y.index ≤ x.index) : y ∉ xs := fun hmem =>
      absurd (hlt y hmem) (Nat.not_lt.mpr hy)
    refine ⟨env, .head hstep hreach, fun y hy => ?_, List.forall_mem_cons.mpr ⟨?_, hnew⟩⟩
    · rw [List.mem_cons, not_or] at hy
      rw [hold y hy.2]
      exact Function.update_of_ne hy.1 _ _
    · have henvx : env x = v := by
        rw [hold x (hnot le_rfl)]
        exact Function.update_self ..
      have hsame : ∀ y ∈ (f.instr x).operands, env y = s.env y := fun y hy => by
        have hyx := hopsx y hy
        rw [hold y (hnot hyx.le)]
        refine Function.update_of_ne ?_ _ _
        rintro rfl
        exact lt_irrefl _ hyx
      rw [Instr.value?_congr hsame, hv, henvx]

theorem Appends.exists_reaches {b : BlockId} (hg : f.Appends (· = b) g)
    (hrest : s.rest = f.added g b ++ rest)
    (hconst : ∀ x v, g.instr x = .constant v → s.env x = v) :
    ∃ env, g.Reaches s { s with rest := rest, env := env } ∧
      g.Settled f.nodes.size g.nodes.size env ∧ ∀ y, y.index < f.nodes.size → env y = s.env y := by
  have hnew := (hg.extendsBlock_added b).new
  obtain ⟨env, hreach, hold, hvalue⟩ :=
    exists_reaches_of_code (fun x hx => hg.isCode hx) (hg.sorted b) (hg.operand b) hrest
  refine ⟨env, hreach, ⟨fun x v hx => ?_, fun x hx hlt hcode => ?_⟩, fun y hy => ?_⟩
  · rw [hold x fun hmem => ?_, hconst x v hx]
    have hcode := hg.isCode hmem
    rw [hx] at hcode
    exact hcode
  · rcases hg.fresh x hx hlt with ⟨v, hv⟩ | hmem
    · rw [hv] at hcode
      exact hcode.elim
    · rw [hg.confined _ (List.ne_nil_of_mem hmem)] at hmem
      exact hvalue x hmem
  · exact hold y fun hmem => absurd hy (Nat.not_lt.mpr (hnew y hmem).1)

/-- What has been executed of the body of the current block has the values that it computes. -/
def Evaluated (f : Func) (s : State) : Prop :=
  ∀ z ∈ (f.block s.here).body, z ∉ s.rest → (f.instr z).value? s.env = some (s.env z)

section Valid

variable {args : Nat → Int32} {allowed : State → Prop} {s' : State} {b p : BlockId}
variable (hf : f.Valid)

include hf

/-- No instruction reads what is executed together with it or later in its block. -/
theorem Valid.operand_not_mem {before after : List InstrId} {y z : InstrId}
    (heq : (f.block b).instrs = before ++ z :: after) (hz : (f.instr z).isPhi = false)
    (hy : y ∈ (f.instr z).operands) : y ∉ z :: after := by
  intro hmem
  have hinstrs : y ∈ (f.block b).instrs := heq ▸ List.mem_append_right _ hmem
  rcases hf.operand_available b before z after heq hz y hy with hleaf | hbefore | ⟨-, hne, -⟩
  · rw [hf.not_isLeaf_of_mem_instrs hinstrs] at hleaf
    cases hleaf
  · have hnodup := hf.nodup b
    rw [heq] at hnodup
    exact (List.nodup_append.mp hnodup).2.2 y hbefore y hmem rfl
  · exact hne (hf.home b y hinstrs)

theorem Evaluated.step (hs : f.Evaluated s) (hplaced : f.Placed s) (h : f.step? s = some s') :
    f.Evaluated s' := by
  rcases step_cases h with ⟨x, rest, v, hrest, hx, hv, -, rfl⟩ | ⟨x, rest, c, -, -, -, -, rfl⟩
  · intro z hz hzrest
    obtain ⟨done, heq⟩ := hplaced.instrs_eq
    rw [hrest] at heq
    have hphi : (f.instr z).isPhi = false := (hf.body _ z hz).1
    -- The instruction `z` is `x` or comes before it, so it does not read `x`.
    have hsame : (f.instr z).value? (Function.update s.env x v) = (f.instr z).value? s.env := by
      refine Instr.value?_congr fun y hy => Function.update_of_ne ?_ _ _
      by_cases hzx : z = x
      · have := hf.operand_not_mem (hzx ▸ heq) hphi hy
        exact fun hyx => this (hyx ▸ hzx ▸ List.mem_cons_self)
      · have hdone : z ∈ done := by
          have hmem : z ∈ (f.block s.here).instrs :=
            List.mem_append_left _ (List.mem_append_right _ hz)
          rw [heq] at hmem
          exact (List.mem_append.mp hmem).resolve_right fun hmem =>
            (List.mem_cons.mp hmem).elim hzx hzrest
        obtain ⟨u, w, rfl⟩ := List.append_of_mem hdone
        rw [List.append_assoc, List.cons_append] at heq
        have := hf.operand_not_mem heq hphi hy
        rintro rfl
        exact this (List.mem_cons_of_mem _ (List.mem_append_right _ List.mem_cons_self))
    by_cases hzx : z = x
    · rw [hsame, hzx, hv]
      exact congrArg some (Function.update_self x v s.env).symm
    · rw [hsame, hs z hz (by simpa [hrest, hzx] using hzrest)]
      exact congrArg some (Function.update_of_ne hzx v s.env).symm
  · intro z hz hzrest
    exact absurd (List.mem_append_left _ hz) hzrest

theorem Run.evaluated (h : f.Run args allowed s) : f.Evaluated s := by
  induction h with
  | start => exact fun z hz hzrest => absurd (List.mem_append_left _ hz) hzrest
  | step h _ hstep ih => exact ih.step hf (h.placed hf) hstep

end Valid

/-- At the end of a block the code that has been appended there has the values that it
computes. -/
theorem Appends.settled {args : Nat → Int32} {allowed : State → Prop} {p : BlockId} {z : InstrId}
    (hg : f.Appends (· = p) g) (hgh : g.Extends h) (hh : h.Valid) (hs : h.Run args allowed s)
    (hhere : s.here = p) (hrest : s.rest = z :: rest) (hz : (h.instr z).isTerminator = true) :
    h.Settled f.nodes.size g.nodes.size s.env := by
  refine ⟨(hs.placed hh).constant, fun x hx hlt hcode => ?_⟩
  have hbody : x ∈ (h.block p).body := by
    rcases hg.fresh x hx hlt with ⟨v, hv⟩ | hmem
    · rw [hgh.instr hlt, hv] at hcode
      exact hcode.elim
    · have hhome := hg.confined _ (List.ne_nil_of_mem hmem)
      rw [hhome] at hmem
      exact hgh.body_subset p (List.mem_of_mem_drop hmem)
  refine hs.evaluated hh x (hhere ▸ hbody) fun hmem => ?_
  obtain ⟨hnil, -⟩ := (hs.placed hh).rest_of_isTerminator hh hrest hz
  rw [hrest, hnil, List.mem_singleton] at hmem
  rw [← hmem, (hh.body p x hbody).2.1] at hz
  cases hz

end LoopBounds.Func
