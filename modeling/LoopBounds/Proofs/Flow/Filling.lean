import LoopBounds.Proofs.Flow.Search

/-!
# What is filled in after the search

Levels, subloops, blocks and preheaders are filled in one after the other, and nothing of this
touches a pointer. So a level is the length of the way out, whichever levels were known before;
a loop is among the subloops of the loop that its pointer leads to; and a block is recorded in
the loops that its way out passes.
-/

namespace LoopBounds

open FlowGraph

namespace LoopForest

variable {F G : LoopForest} {g : FlowGraph} {l m : LoopId} {b : BlockId}

/-- How many loops the way out of `l` passes, `l` included. -/
def height (F : LoopForest) (l : LoopId) : ℕ := (F.wayOut (some l)).length

section Nesting

variable {known done : List LoopId}

/-- The levels of the loops `known` are known, and the loops `done` are listed in the loops
around them. -/
structure Nested (F : LoopForest) (known done : List LoopId) (G : LoopForest) : Prop where
  shape : F.SameShape G
  get : ∀ l ∈ F.ids, G.get l = { F.get l with
    level := if l ∈ known then (F.height l : ℤ) else -1
    subloops := done.filter fun m => F.outer? m = some l }

variable (hF : F.Climbable) (hG : F.Nested known done G)

include hG in
theorem Nested.level_eq (hl : l ∈ F.ids) :
    G.level l = if l ∈ known then (F.height l : ℤ) else -1 := congrArg Loop.level (hG.get l hl)

include hG in
theorem Nested.setLevel :
    F.Nested (l :: known) done (G.update l ({ · with level := (F.height l : ℤ) })) where
  shape := hG.shape.trans (.update (fun _ => rfl) fun _ => rfl)
  get m hm := by
    rw [get_update (hG.shape.ids_eq ▸ hm), hG.get m hm]
    by_cases hml : m = l
    · simp [hml]
    · simp [hml]

include hF hG

theorem Nested.calcLevel {depth : ℕ} (hl : l ∈ F.ids) (hdepth : F.loops.size ≤ l.index + depth) :
    ∃ known', (∀ m ∈ l :: known, m ∈ known') ∧
      F.Nested known' done (LoopForest.calcLevel depth G l).1 ∧
      (LoopForest.calcLevel depth G l).2 = F.height l := by
  have hlt := mem_ids.mp hl
  induction depth generalizing l with
  | zero => omega
  | succ depth ih =>
    unfold LoopForest.calcLevel
    rw [hG.level_eq hl, hG.shape.outer]
    by_cases hknown : l ∈ known
    · rw [if_pos hknown, if_pos (by omega)]
      exact ⟨known, List.forall_mem_cons.mpr ⟨hknown, fun _ hm => hm⟩, hG, rfl⟩
    · rw [if_neg hknown, if_neg (by decide)]
      cases ho : F.outer? l with
      | none =>
        have hone : (F.height l : ℤ) = 1 := by
          rw [height, hF.wayOut_some hl, ho]
          simp [wayOut, climb_none]
        exact ⟨l :: known, fun _ hm => hm, hone ▸ hG.setLevel, hone.symm⟩
      | some m =>
        obtain ⟨hlm, hm⟩ := hF.outer l m ho
        obtain ⟨known', hsub, hG', hlevel⟩ := ih hm (by omega) (mem_ids.mp hm)
        have hnext : (F.height l : ℤ) = F.height m + 1 := by
          rw [height, hF.wayOut_some hl, ho, height]
          simp
        refine ⟨l :: known', ?_, ?_, ?_⟩
        · intro k hk
          rcases List.mem_cons.mp hk with rfl | hk
          · exact List.mem_cons_self
          · exact List.mem_cons_of_mem l (hsub k (List.mem_cons_of_mem m hk))
        · dsimp only
          rw [hlevel, ← hnext]
          exact hG'.setLevel
        · dsimp only
          rw [hlevel, hnext]

theorem Nested.nest (hl : l ∈ F.ids) :
    ∃ known', (∀ m ∈ l :: known, m ∈ known') ∧ F.Nested known' (done ++ [l]) (G.nest l) := by
  have hdepth : F.loops.size ≤ l.index + G.loops.size := by
    rw [hG.shape.size]
    omega
  obtain ⟨known', hsub, hG', -⟩ := hG.calcLevel hF hl hdepth
  refine ⟨known', hsub, hG.shape.trans sameShape_nest, fun m hm => ?_⟩
  unfold LoopForest.nest
  dsimp only
  generalize (LoopForest.calcLevel G.loops.size G l).1 = G' at hG'
  rw [hG'.shape.outer]
  cases ho : F.outer? l with
  | none =>
    rw [hG'.get m hm, List.filter_append]
    simp [ho]
  | some k =>
    rw [get_update (hG'.shape.ids_eq ▸ hm), hG'.get m hm, List.filter_append]
    by_cases hmk : m = k
    · simp [ho, hmk]
    · simp [ho, hmk, Ne.symm hmk]

theorem Nested.foldl {ls : List LoopId} (hls : ∀ l ∈ ls, l ∈ F.ids)
    (hdone : ∀ l ∈ done, l ∈ known) :
    ∃ known', (∀ l ∈ done ++ ls, l ∈ known') ∧
      F.Nested known' (done ++ ls) (ls.foldl LoopForest.nest G) := by
  induction ls generalizing known done G with
  | nil => exact ⟨known, by simpa using hdone, by simpa using hG⟩
  | cons l ls ih =>
    obtain ⟨known', hsub, hG'⟩ := hG.nest hF (hls l List.mem_cons_self)
    have hdone' : ∀ m ∈ done ++ [l], m ∈ known' := by
      intro m hm
      rcases List.mem_append.mp hm with hm | hm
      · exact hsub m (List.mem_cons_of_mem l (hdone m hm))
      · exact hsub m (List.mem_singleton.mp hm ▸ List.mem_cons_self)
    have := ih hG' (fun m hm => hls m (List.mem_cons_of_mem l hm)) hdone'
    rwa [List.append_assoc, List.singleton_append] at this

end Nesting

section Blocks

variable {done : List BlockId}

/-- The blocks `done` are recorded in the loops around them. -/
structure Recorded (F : LoopForest) (done : List BlockId) (G : LoopForest) : Prop where
  shape : F.SameShape G
  get : ∀ l ∈ F.ids, G.get l = { F.get l with blocks := done.filter (F.contains l) }

/-- A climb that changes every loop it passes changes each of them once. -/
theorem get_foldl_update {change : Loop → Loop} {ls : List LoopId} (hls : ls.Nodup)
    (hm : m ∈ F.ids) : (ls.foldl (fun F l => F.update l change) F).get m =
      if m ∈ ls then change (F.get m) else F.get m := by
  induction ls generalizing F with
  | nil => rfl
  | cons l ls ih =>
    obtain ⟨hl, hls⟩ := List.nodup_cons.mp hls
    rw [List.foldl_cons, ih hls (by rwa [ids_update]), get_update hm]
    by_cases hml : m = l
    · simp [hml, hl]
    · simp [hml]

theorem Climbable.nodup_wayOut (hF : F.Climbable) : (F.wayOut (F.innermost? b)).Nodup := by
  cases hb : F.innermost? b with
  | none => simp [wayOut, climb_none]
  | some l =>
    refine (hF.pairwise_wayOut (hF.mapped b l hb)).imp fun hlt heq => ?_
    exact Nat.lt_irrefl _ (heq ▸ hlt)

variable (hF : F.Climbable)

include hF

theorem Recorded.recordBlock (hG : F.Recorded done G) :
    F.Recorded (done ++ [b]) (G.recordBlock b) := by
  refine ⟨hG.shape.trans sameShape_recordBlock, fun l hl => ?_⟩
  unfold LoopForest.recordBlock
  rw [get_foldl_update (hG.shape.climbable hF).nodup_wayOut (hG.shape.ids_eq ▸ hl), hG.get l hl,
    hG.shape.wayOut_eq, hG.shape.innermost, List.filter_append]
  by_cases hmem : l ∈ F.wayOut (F.innermost? b)
  · simp [hmem, contains]
  · simp [hmem, contains]

theorem Recorded.foldl {bs : List BlockId} (hG : F.Recorded done G) :
    F.Recorded (done ++ bs) (bs.foldl LoopForest.recordBlock G) := by
  induction bs generalizing done G with
  | nil => simpa using hG
  | cons b bs ih =>
    have := ih (hG.recordBlock hF (b := b))
    rwa [List.append_assoc, List.singleton_append] at this

end Blocks

section Preheaders

variable {done : List LoopId}

/-- The loops `done` know their preheaders. -/
structure Entered (F : LoopForest) (g : FlowGraph) (done : List LoopId) (G : LoopForest) :
    Prop where
  shape : F.SameShape G
  get : ∀ l ∈ F.ids, G.get l = { F.get l with
    preheader := if l ∈ done then g.preheader? (F.get l).header (F.contains l)
      else (F.get l).preheader }

theorem Entered.recordPreheader (hG : F.Entered g done G) :
    F.Entered g (done ++ [l]) (G.recordPreheader g l) := by
  refine ⟨hG.shape.trans sameShape_recordPreheader, fun m hm => ?_⟩
  unfold LoopForest.recordPreheader
  rw [get_update (hG.shape.ids_eq ▸ hm), hG.get m hm, hG.shape.header, hG.shape.contains_eq]
  by_cases hml : m = l
  · simp [hml]
  · simp [hml]

theorem Entered.foldl {ls : List LoopId} (hG : F.Entered g done G) :
    F.Entered g (done ++ ls) (ls.foldl (LoopForest.recordPreheader · g) G) := by
  induction ls generalizing done G with
  | nil => simpa using hG
  | cons l ls ih =>
    have := ih (hG.recordPreheader (l := l))
    rwa [List.append_assoc, List.singleton_append] at this

end Preheaders

/-- The forest is that of the search, with everything filled in. -/
structure Filled (F : LoopForest) (g : FlowGraph) (G : LoopForest) : Prop where
  shape : F.SameShape G
  get : ∀ l ∈ F.ids, G.get l = { F.get l with
    level := (F.height l : ℤ)
    subloops := F.ids.filter fun m => F.outer? m = some l
    blocks := g.blocks.filter (F.contains l)
    preheader := g.preheader? (F.get l).header (F.contains l) }

theorem Discovered.nested (hF : F.Discovered g) : F.Nested [] [] F where
  shape := .refl
  get l hl := by
    obtain ⟨hlevel, hsubloops, -⟩ := hF.unfilled l hl
    generalize F.get l = x at *
    cases x
    simp_all

/-- The forest of a graph is what the search has found, with everything filled in. -/
theorem filled_loopForest (hg : g.Coherent) : g.foundLoops.Filled g g.loopForest := by
  set F := g.foundLoops
  let N := F.ids.foldl nest F
  let B := g.blocks.foldl recordBlock N
  have hF : F.Discovered g := (discovered_foundLoops hg).1
  have hclimb := hF.climbable hg
  obtain ⟨known, hknown, hN⟩ : ∃ known, (∀ l ∈ [] ++ F.ids, l ∈ known) ∧
      F.Nested known ([] ++ F.ids) N :=
    hF.nested.foldl hclimb (fun _ hl => hl) fun _ hl => absurd hl List.not_mem_nil
  have hblank : N.Recorded [] N := by
    refine ⟨.refl, fun l hl => ?_⟩
    rw [hN.get l (hN.shape.ids_eq ▸ hl)]
    simp [(hF.unfilled l (hN.shape.ids_eq ▸ hl)).2.2]
  have hB : N.Recorded ([] ++ g.blocks) B := hblank.foldl (hN.shape.climbable hclimb)
  have hshape := hN.shape.trans hB.shape
  have hunknown : B.Entered g [] B := ⟨.refl, fun l _ => by simp⟩
  have hQ : B.Entered g ([] ++ B.ids) g.loopForest := hunknown.foldl
  refine ⟨hshape.trans hQ.shape, fun l hl => ?_⟩
  have hlN : l ∈ N.ids := hN.shape.ids_eq ▸ hl
  have hlB : l ∈ B.ids := hB.shape.ids_eq ▸ hlN
  rw [hQ.get l hlB, hB.get l hlN, hN.get l hl, hshape.contains_eq, hN.shape.contains_eq]
  simp [hlB, hknown l hl]

end LoopForest

end LoopBounds
