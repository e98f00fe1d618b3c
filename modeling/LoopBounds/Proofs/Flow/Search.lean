import LoopBounds.Proofs.Flow.Discovery

/-!
# The search finds the natural loops

When a header is met, all headers that it dominates have been. The search for the new loop keeps
track of the blocks that it has gone through one by one: blocks that were in no loop, and
headers of loops that it has jumped over. Every edge into one of them, the new header apart,
comes from a block that is taken, itself or together with the loop around it, or is still on
the stack. When the stack is empty, what is taken is therefore the natural loop of the header.
-/

namespace LoopBounds

open FlowGraph

namespace LoopForest

variable {F G : LoopForest} {g : FlowGraph} {l m : LoopId} {b h : BlockId}
variable {seen work : List BlockId}

/-- Block `b` belongs to the new loop once the blocks `seen` do: it is one of them, or in an
outermost loop whose header is one of them. -/
def Taken (F : LoopForest) (seen : List BlockId) (b : BlockId) : Prop :=
  b ∈ seen ∨ ∃ l, F.innermost? b = some l ∧ (F.get (F.outermost l)).header ∈ seen

/-- The search for the loop of header `h`, which follows the loops of `F`, has come to the
forest `G`. It has gone through the blocks `seen` one by one, and `work` is on its stack. -/
structure Collecting (F : LoopForest) (g : FlowGraph) (h : BlockId) (seen work : List BlockId)
    (G : LoopForest) : Prop where
  size : G.loops.size = F.loops.size + 1
  innermost : ∀ b, G.innermost? b =
    (F.innermost? b).or (if b ∈ seen then some F.nextId else none)
  old : ∀ l ∈ F.ids, G.get l = { F.get l with
    outer := (F.outer? l).or (if (F.get l).header ∈ seen then some F.nextId else none) }
  new : G.get F.nextId = { Loop.start F.nextId h (g.latches g.dominators h) with
    noInner := G.hasNoInner F.nextId }
  noInner : G.hasNoInner F.nextId = true ↔
    ∀ l ∈ F.ids, F.outer? l = none → (F.get l).header ∉ seen
  sound : ∀ b ∈ seen, b ∈ g.loopBlocks h
  pending : ∀ b ∈ work, b ∈ g.loopBlocks h
  frontier : ∀ p, (p ∈ g.latches g.dominators h ∨
      ∃ b ∈ seen, b ≠ h ∧ p ∈ g.reachablePreds g.dominators b) →
    F.Taken seen p ∨ p ∈ work

theorem Taken.cons {a : BlockId} (h : F.Taken seen b) : F.Taken (a :: seen) b :=
  h.imp (List.mem_cons_of_mem a) fun ⟨l, hb, hmem⟩ => ⟨l, hb, List.mem_cons_of_mem a hmem⟩

theorem mem_reachablePreds (hg : g.Coherent) {p : BlockId} :
    p ∈ g.reachablePreds g.dominators b ↔ b ∈ g.succs p ∧ g.Reachable p := by
  rw [reachablePreds, List.mem_filter, ← hg.edges, Dominators.isReachable, decide_eq_true_eq,
    show g.dominators.reachable = g.reachable from rfl, hg.mem_reachable]

section Search

variable (hF : F.Discovered g) (hg : g.Coherent)
variable (hh : g.latches g.dominators h ≠ [])
variable (hnew : ∀ l ∈ F.ids, ¬ g.Dominates (F.get l).header h)

include hF hg in
theorem Discovered.isSome_innermost?_header (hl : l ∈ F.ids) :
    (F.innermost? (F.get l).header).isSome = true := by
  obtain ⟨m, hm, -⟩ := (hF.climbable hg).contains_iff.mp
    ((hF.contains_iff hg hl).mpr (hF.header_mem hg hl))
  rw [hm, Option.isSome_some]

include hF hg hnew in
theorem Discovered.not_mem_body (hl : l ∈ F.ids) : h ∉ F.body g l :=
  fun hmem => hnew l hl ((hF.natural hg hl).dominates h hmem)

namespace Collecting

include hg hh in
theorem start : F.Collecting g h [] (g.latches g.dominators h).reverse
    (F.push (.start F.nextId h (g.latches g.dominators h))) where
  size := by simp [push]
  innermost b := by simp
  old l hl := by
    rw [get_push hl]
    simp [outer?]
  new := by simp [hasNoInner, get_push_self]
  noInner := by simp [hasNoInner, get_push_self, Loop.start]
  sound _ hb := absurd hb List.not_mem_nil
  pending b hb := (hg.natural_naturalLoop hh).latch_mem b (List.mem_reverse.mp hb)
  frontier p hp := .inr (by simpa using hp)

variable (hG : F.Collecting g h seen work G)

include hG

theorem ids_eq : G.ids = F.ids ++ [F.nextId] := by
  rw [ids, hG.size, List.range_succ, List.map_append]
  rfl

theorem mem_ids_iff : l ∈ G.ids ↔ l ∈ F.ids ∨ l = F.nextId := by
  rw [hG.ids_eq, List.mem_append, List.mem_singleton]

theorem mem_ids_old (hl : l ∈ F.ids) : l ∈ G.ids := hG.mem_ids_iff.mpr (.inl hl)

theorem mem_ids_new : F.nextId ∈ G.ids := hG.mem_ids_iff.mpr (.inr rfl)

theorem forall_ids_iff {P : LoopId → Prop} :
    (∀ l ∈ G.ids, P l) ↔ (∀ l ∈ F.ids, P l) ∧ P F.nextId := by
  rw [hG.ids_eq, List.forall_mem_append, List.forall_mem_singleton]

theorem header_old (hl : l ∈ F.ids) : (G.get l).header = (F.get l).header := by
  rw [hG.old l hl]

theorem header_new : (G.get F.nextId).header = h := congrArg Loop.header hG.new

theorem body_old (hl : l ∈ F.ids) : G.body g l = F.body g l := by
  rw [body, body, hG.header_old hl]

theorem body_new : G.body g F.nextId = g.loopBlocks h := by rw [body, hG.header_new]

theorem outer?_old (hl : l ∈ F.ids) : G.outer? l =
    (F.outer? l).or (if (F.get l).header ∈ seen then some F.nextId else none) :=
  congrArg Loop.outer (hG.old l hl)

theorem outer?_new : G.outer? F.nextId = none := congrArg Loop.outer hG.new

theorem innermost?_cases (hb : G.innermost? b = some l) :
    F.innermost? b = some l ∨ b ∈ seen ∧ l = F.nextId := by
  rw [hG.innermost] at hb
  refine (Option.or_eq_some_iff.mp hb).imp_right fun ⟨_, hb⟩ => ?_
  split_ifs at hb with hseen
  exact ⟨hseen, (Option.some.inj hb).symm⟩

theorem outer?_cases (hl : l ∈ F.ids) (ho : G.outer? l = some m) :
    F.outer? l = some m ∨ F.outer? l = none ∧ (F.get l).header ∈ seen ∧ m = F.nextId := by
  rw [hG.outer?_old hl] at ho
  refine (Option.or_eq_some_iff.mp ho).imp_right fun ⟨hroot, ho⟩ => ?_
  split_ifs at ho with hseen
  exact ⟨hroot, hseen, (Option.some.inj ho).symm⟩

include hF hg in
theorem climbable : G.Climbable where
  mapped b l hb := by
    rw [hG.mem_ids_iff]
    exact (hG.innermost?_cases hb).imp ((hF.climbable hg).mapped b l) And.right
  outer l m ho := by
    have hl := mem_ids_of_outer? ho
    rw [hG.mem_ids_iff] at hl ⊢
    rcases hl with hl | rfl
    · rcases hG.outer?_cases hl ho with ho | ⟨-, -, rfl⟩
      · exact ⟨((hF.climbable hg).outer l m ho).1, .inl ((hF.climbable hg).outer l m ho).2⟩
      · exact ⟨mem_ids.mp hl, .inr rfl⟩
    · rw [hG.outer?_new] at ho
      cases ho

include hF hg in
/-- A jump out of an old loop ends at the new one if the outermost loop has been absorbed. -/
theorem outermost_old (hl : l ∈ F.ids) : G.outermost l =
    if (F.get (F.outermost l)).header ∈ seen then F.nextId else F.outermost l := by
  have hclimb := hF.climbable hg
  obtain ⟨haround, hroot⟩ := hclimb.outermost_spec hl
  have hr := hclimb.mem_ids_of_around hl haround
  have hsteps : G.Around l (F.outermost l) := by
    refine Relation.ReflTransGen.mono (fun k m ho => ?_) _ _ haround
    rw [hG.outer?_old (mem_ids_of_outer? ho), ho, Option.some_or]
  have hmem := hG.mem_ids_old hl
  have houter := hG.outer?_old hr
  rw [hroot, Option.none_or] at houter
  split_ifs at houter ⊢ with hseen
  · exact (hG.climbable hF hg).outermost_eq hmem (hsteps.tail houter) hG.outer?_new
  · exact (hG.climbable hF hg).outermost_eq hmem hsteps houter

end Collecting

section Visit

variable {a : BlockId} (hG : F.Collecting g h seen (a :: work) G)

include hG

/-- What a visit leaves on the stack leads to all blocks from which the loop is entered. -/
theorem Collecting.frontier_cons {seen' more : List BlockId} (hsub : ∀ b ∈ seen, b ∈ seen')
    (ha : F.Taken seen' a)
    (hmore : ∀ b ∈ seen', b ∉ seen → b ≠ h → ∀ p ∈ g.reachablePreds g.dominators b, p ∈ more) :
    ∀ p, (p ∈ g.latches g.dominators h ∨
      ∃ b ∈ seen', b ≠ h ∧ p ∈ g.reachablePreds g.dominators b) →
    F.Taken seen' p ∨ p ∈ more.reverse ++ work := by
  intro p hp
  by_cases hold : p ∈ g.latches g.dominators h ∨
      ∃ b ∈ seen, b ≠ h ∧ p ∈ g.reachablePreds g.dominators b
  · rcases hG.frontier p hold with htaken | hmem
    · refine .inl (htaken.imp (hsub p) ?_)
      exact fun ⟨l, hl, hmem⟩ => ⟨l, hl, hsub _ hmem⟩
    · rcases List.mem_cons.mp hmem with rfl | hmem
      · exact .inl ha
      · exact .inr (List.mem_append_right _ hmem)
  · rw [not_or, not_exists] at hold
    obtain ⟨b, hb, hne, hpb⟩ := hp.resolve_left hold.1
    have hfresh : b ∉ seen := fun hmem => hold.2 b ⟨hmem, hne, hpb⟩
    exact .inr (List.mem_append_left _ (List.mem_reverse.mpr (hmore b hb hfresh hne p hpb)))

include hg hh in
/-- Control can only come from inside to a block of the loop other than the header. -/
theorem Collecting.pending_cons {more : List BlockId}
    (hmore : ∀ p ∈ more, ∃ b ∈ g.loopBlocks h, b ≠ h ∧ p ∈ g.reachablePreds g.dominators b) :
    ∀ p ∈ more.reverse ++ work, p ∈ g.loopBlocks h := by
  intro p hp
  rcases List.mem_append.mp hp with hp | hp
  · obtain ⟨b, hb, hne, hp⟩ := hmore p (List.mem_reverse.mp hp)
    obtain ⟨hedge, hreach⟩ := (mem_reachablePreds hg).mp hp
    exact (hg.natural_naturalLoop hh).entered p b hb hne hreach hedge
  · exact hG.pending p (List.mem_cons_of_mem a hp)

include hF hg hh in
theorem Collecting.assign (hb : F.innermost? a = none) (hseen : a ∉ seen) :
    F.Collecting g h (a :: seen)
      ((if a = h then [] else g.reachablePreds g.dominators a).reverse ++ work)
      (G.assign a F.nextId) := by
  have hheader : ∀ l ∈ F.ids, (F.get l).header ∈ a :: seen ↔ (F.get l).header ∈ seen := by
    intro l hl
    refine List.mem_cons.trans (or_iff_right fun heq => ?_)
    have := hF.isSome_innermost?_header hg hl
    rw [heq, hb] at this
    cases this
  have ha := hG.pending a List.mem_cons_self
  refine ⟨hG.size, ?_, ?_, hG.new, hG.noInner.trans ?_, ?_, ?_, ?_⟩
  · intro b
    rw [innermost?_assign, hG.innermost]
    by_cases heq : b = a
    · simp [heq, hb]
    · simp [heq]
  · intro l hl
    rw [get_assign, hG.old l hl]
    simp only [hheader l hl]
  · exact forall₂_congr fun l hl => by rw [hheader l hl]
  · exact List.forall_mem_cons.mpr ⟨ha, hG.sound⟩
  · refine hG.pending_cons hg hh fun p hp => ?_
    split_ifs at hp with heq
    · cases hp
    · exact ⟨a, ha, heq, hp⟩
  · refine hG.frontier_cons (fun b => List.mem_cons_of_mem a) (.inl List.mem_cons_self) ?_
    intro b hb hfresh hne p hp
    obtain rfl := (List.mem_cons.mp hb).resolve_right hfresh
    rwa [if_neg hne]

theorem Collecting.skip (ha : F.Taken seen a) : F.Collecting g h seen work G where
  size := hG.size
  innermost := hG.innermost
  old := hG.old
  new := hG.new
  noInner := hG.noInner
  sound := hG.sound
  pending b hb := hG.pending b (List.mem_cons_of_mem a hb)
  frontier p hp := by
    show F.Taken seen p ∨ p ∈ ([] : List BlockId).reverse ++ work
    exact hG.frontier_cons (fun _ hb => hb) ha (fun b hb hfresh => absurd hb hfresh) p hp

include hF hg hh hnew in
/-- An outermost loop in which the search ends up lies directly inside the new one. -/
theorem Collecting.enclose {r : LoopId} (hb : F.innermost? a = some l) (hlr : F.outermost l = r) :
    F.Collecting g h ((F.get r).header :: seen)
      ((g.reachablePreds g.dominators (F.get r).header).reverse ++ work)
      (G.enclose r F.nextId) := by
  have hclimb := hF.climbable hg
  have hl := hclimb.mapped a l hb
  obtain ⟨haround, hroot⟩ := hlr ▸ hclimb.outermost_spec hl
  have hr := hclimb.mem_ids_of_around hl haround
  have ha : a ∈ F.body g r :=
    (hF.contains_iff hg hr).mp (hclimb.contains_iff.mpr ⟨l, hb, haround⟩)
  have hne : r ≠ F.nextId := ne_nextId hr
  have hout := hF.not_mem_body hg hnew hr
  have hmem : (F.get r).header ∈ g.loopBlocks h := by
    have := (hF.natural hg hr).header_mem_or (hg.natural_naturalLoop hh) ha
      (hG.pending a List.mem_cons_self)
    exact this.resolve_right hout
  have hneh : (F.get r).header ≠ h := fun heq => hout (heq ▸ hF.header_mem hg hr)
  have hnew' : (G.enclose r F.nextId).get F.nextId = { G.get F.nextId with noInner := false } := by
    rw [get_enclose hG.mem_ids_new hne, if_neg hne.symm, if_pos rfl]
  refine ⟨?_, ?_, ?_, ?_, ?_, ?_, ?_, ?_⟩
  · simp [LoopForest.enclose, hG.size]
  · intro b
    show G.innermost? b = _
    rw [hG.innermost]
    by_cases heq : b = (F.get r).header
    · obtain ⟨m, hm⟩ := Option.isSome_iff_exists.mp (hF.isSome_innermost?_header hg hr)
      simp [heq, hm]
    · simp [heq]
  · intro m hm
    rw [get_enclose (hG.mem_ids_old hm) hne, if_neg (ne_nextId hm), hG.old m hm]
    by_cases heq : m = r
    · subst heq
      simp [hroot]
    · have hheader : (F.get m).header ≠ (F.get r).header :=
        fun h => heq (hF.header_injective hg hm hr h)
      simp [heq, hheader]
  · rw [hasNoInner, hnew', hG.new]
  · rw [hasNoInner, hnew']
    refine iff_of_false Bool.false_ne_true ?_
    exact fun h => h r hr hroot List.mem_cons_self
  · exact List.forall_mem_cons.mpr ⟨hmem, hG.sound⟩
  · exact hG.pending_cons hg hh fun p hp => ⟨_, hmem, hneh, hp⟩
  · refine hG.frontier_cons (fun b => List.mem_cons_of_mem _) (.inr ⟨l, hb, ?_⟩) ?_
    · exact hlr ▸ List.mem_cons_self
    · intro b hb hfresh hne p hp
      obtain rfl := (List.mem_cons.mp hb).resolve_right hfresh
      exact hp

include hF hg hh hnew in
/-- A visit goes on as it should, and what it puts on the stack is due to a block that was not
seen before. -/
theorem Collecting.visit : ∃ seen', F.Collecting g h seen'
      ((g.visit g.dominators h F.nextId G a).2.reverse ++ work)
      (g.visit g.dominators h F.nextId G a).1 ∧
    LoopBounds.pending g.preds seen' g.blocks +
      (g.visit g.dominators h F.nextId G a).2.length ≤
        LoopBounds.pending g.preds seen g.blocks := by
  have hreach : ∀ b ∈ g.loopBlocks h, b ∈ g.blocks := fun b hb =>
    mem_blocks.mpr (hg.index_lt_of_reachable ((hg.natural_naturalLoop hh).reachable b hb))
  have hless (b : BlockId) : (g.reachablePreds g.dominators b).length ≤ (g.preds b).length :=
    List.length_filter_le _ _
  unfold FlowGraph.visit
  cases hb : G.innermost? a with
  | none =>
    rw [hG.innermost, Option.or_eq_none_iff] at hb
    have hseen : a ∉ seen := fun hmem => by simp [hmem] at hb
    refine ⟨a :: seen, hG.assign hF hg hh hb.1 hseen, ?_⟩
    have := pending_cons_add_le g.preds hseen (hreach a (hG.pending a List.mem_cons_self))
    have := hless a
    dsimp only
    split_ifs
    · simp only [List.length_nil]
      omega
    · omega
  | some l =>
    dsimp only
    rcases hG.innermost?_cases hb with hb | ⟨hseen, rfl⟩
    · have hl := (hF.climbable hg).mapped a l hb
      have hr := (hF.climbable hg).mem_ids_of_around hl ((hF.climbable hg).outermost_spec hl).1
      have hne : F.outermost l ≠ F.nextId := ne_nextId hr
      rw [hG.outermost_old hF hg hl]
      by_cases hseen : (F.get (F.outermost l)).header ∈ seen
      · rw [if_pos hseen, if_pos rfl]
        exact ⟨seen, hG.skip (.inr ⟨l, hb, hseen⟩), Nat.le_refl _⟩
      · rw [if_neg hseen, if_neg hne, congrArg Loop.header (hG.old _ hr)]
        refine ⟨_, hG.enclose hF hg hh hnew hb rfl, ?_⟩
        have hmem := (hG.enclose hF hg hh hnew hb rfl).sound _ List.mem_cons_self
        have := pending_cons_add_le g.preds hseen (hreach _ hmem)
        have := hless (F.get (F.outermost l)).header
        dsimp only
        omega
    · have hroot := (hG.climbable hF hg).outermost_of_none hG.mem_ids_new hG.outer?_new
      rw [if_pos hroot]
      exact ⟨seen, hG.skip (.inl hseen), Nat.le_refl _⟩

end Visit

include hF hg hh hnew in
/-- With as many visits as there can be, the search comes to its end. -/
theorem Collecting.collect {fuel : ℕ} (hG : F.Collecting g h seen work G)
    (hfuel : LoopBounds.pending g.preds seen g.blocks + work.length ≤ fuel) :
    ∃ seen', F.Collecting g h seen' [] (g.collect g.dominators h F.nextId fuel G work) := by
  induction fuel generalizing seen work G with
  | zero =>
    obtain rfl := List.length_eq_zero_iff.mp (Nat.le_zero.mp (by omega : work.length ≤ 0))
    exact ⟨seen, hG⟩
  | succ fuel ih =>
    cases work with
    | nil => exact ⟨seen, hG⟩
    | cons a work =>
      obtain ⟨seen', hG', hless⟩ := hG.visit hF hg hh hnew
      have hend := ih hG' (by
        simp only [List.length_append, List.length_reverse, List.length_cons] at hfuel ⊢
        omega)
      exact hend

section Collected

variable (hG : F.Collecting g h seen [] G)

include hF hg hh hnew hG

omit hh hnew in
/-- Control comes to what is taken from what is taken, as long as it is not the header. -/
theorem Collecting.taken_pred {p : BlockId} (hb : F.Taken seen b) (hne : b ≠ h)
    (hp : p ∈ g.reachablePreds g.dominators b) : F.Taken seen p := by
  have hseen {c : BlockId} (hc : c ∈ seen) (hne : c ≠ h)
      (hp : p ∈ g.reachablePreds g.dominators c) : F.Taken seen p :=
    (hG.frontier p (.inr ⟨c, hc, hne, hp⟩)).resolve_right List.not_mem_nil
  rcases hb with hb | ⟨l, hl, hheader⟩
  · exact hseen hb hne hp
  · have hclimb := hF.climbable hg
    obtain ⟨haround, hroot⟩ := hclimb.outermost_spec (hclimb.mapped b l hl)
    have hr := hclimb.mem_ids_of_around (hclimb.mapped b l hl) haround
    by_cases heq : b = (F.get (F.outermost l)).header
    · exact hseen (heq ▸ hheader) hne hp
    · have hmem := (hF.contains_iff hg hr).mp (hclimb.contains_iff.mpr ⟨l, hl, haround⟩)
      obtain ⟨hedge, hreach⟩ := (mem_reachablePreds hg).mp hp
      have hmem := (hF.natural hg hr).entered p b hmem heq hreach hedge
      obtain ⟨k, hk, hkr⟩ := hclimb.contains_iff.mp ((hF.contains_iff hg hr).mpr hmem)
      refine .inr ⟨k, hk, ?_⟩
      rwa [hclimb.outermost_eq (hclimb.mapped p k hk) hkr hroot]

/-- What has been taken when the stack is empty is the loop. -/
theorem Collecting.taken_iff : F.Taken seen b ↔ b ∈ g.loopBlocks h := by
  have hnat := hg.natural_naturalLoop hh
  have hclimb := hF.climbable hg
  constructor
  · rintro (hb | ⟨l, hl, hheader⟩)
    · exact hG.sound b hb
    · obtain ⟨haround, -⟩ := hclimb.outermost_spec (hclimb.mapped b l hl)
      have hr := hclimb.mem_ids_of_around (hclimb.mapped b l hl) haround
      have hmem := (hF.contains_iff hg hr).mp (hclimb.contains_iff.mpr ⟨l, hl, haround⟩)
      exact hg.loopBlocks_subset hnat (hG.sound _ hheader) b hmem
  · intro hb
    have hlatch {t : BlockId} (ht : t ∈ g.latches g.dominators h) : F.Taken seen t :=
      (hG.frontier t (.inl ht)).resolve_right List.not_mem_nil
    rcases (hg.mem_loopBlocks.mp hb).2 with rfl | hreached
    · -- Backwards along a trail to a latch the search must come to the header.
      obtain ⟨t, ht⟩ := List.exists_mem_of_ne_nil _ hh
      obtain ⟨-, -, ⟨w, hw⟩, hdom⟩ := hg.mem_latches.mp ht
      have hback : ∀ w c, g.Trail (c :: w) → F.Taken seen c → b ∈ c :: w → F.Taken seen b := by
        intro w
        induction w with
        | nil =>
          intro c _ hc hmem
          exact List.mem_singleton.mp hmem ▸ hc
        | cons d w ih =>
          intro c hw hc hmem
          by_cases heq : c = b
          · exact heq ▸ hc
          · cases hw with
            | step hw hedge =>
              have hd := hG.taken_pred hF hg hc heq
                ((mem_reachablePreds hg).mpr ⟨hedge, ⟨w, hw⟩⟩)
              exact ih d hw hd ((List.mem_cons.mp hmem).resolve_left (Ne.symm heq))
      exact hback w t hw (hlatch ht) (hdom w hw)
    · clear hb
      induction hreached with
      | start ht _ => exact hlatch ht
      | step hc hedge hin ih =>
        have hne := (hg.mem_reachable_ne.mp hc.mem_region).2
        exact hG.taken_pred hF hg ih hne
          ((mem_reachablePreds hg).mpr ⟨(hg.edges _ _).mpr hedge, (hg.mem_reachable_ne.mp hin).1⟩)

theorem Collecting.mem_seen_iff (hb : F.innermost? b = none) :
    b ∈ seen ↔ b ∈ g.loopBlocks h := by
  rw [← hG.taken_iff hF hg hh hnew, Taken, hb]
  simp

theorem Collecting.header_mem_seen_iff (hl : l ∈ F.ids) (ho : F.outer? l = none) :
    (F.get l).header ∈ seen ↔ (F.get l).header ∈ g.loopBlocks h := by
  have hclimb := hF.climbable hg
  rw [← hG.taken_iff hF hg hh hnew]
  refine ⟨.inl, fun htaken => htaken.elim id ?_⟩
  rintro ⟨m, hm, hmem⟩
  obtain ⟨k, hk, hkl⟩ := hclimb.contains_iff.mp
    ((hF.contains_iff hg hl).mpr (hF.header_mem hg hl))
  obtain rfl : k = m := Option.some.inj (hk.symm.trans hm)
  rwa [hclimb.outermost_eq (hclimb.mapped _ k hk) hkl ho] at hmem

omit hF hg hh hnew in
theorem Collecting.find?_ids {p q : LoopId → Bool} (hpq : ∀ l ∈ F.ids, p l = q l) :
    G.ids.find? p = (F.ids.find? q).or (if p F.nextId then some F.nextId else none) := by
  have hcongr : F.ids.find? p = F.ids.find? q := List.find?_congr hpq
  rw [hG.ids_eq, List.find?_append, hcongr, List.find?_singleton]

theorem Collecting.innermost?_eq (b : BlockId) :
    G.innermost? b = G.ids.find? fun l => b ∈ G.body g l := by
  rw [hG.innermost, hG.find?_ids (q := fun l => b ∈ F.body g l)
    (fun l hl => by rw [hG.body_old hl]), ← hF.innermost]
  cases hb : F.innermost? b with
  | some l => rfl
  | none => simp [hG.mem_seen_iff hF hg hh hnew hb, hG.body_new]

theorem Collecting.outer?_eq (hl : l ∈ F.ids) : G.outer? l =
    G.ids.find? fun m => m ≠ l && decide ((G.get l).header ∈ G.body g m) := by
  rw [hG.outer?_old hl, hG.header_old hl, hG.find?_ids
    (q := fun m => m ≠ l && decide ((F.get l).header ∈ F.body g m))
    (fun m hm => by rw [hG.body_old hm]), ← hF.outer l hl]
  cases ho : F.outer? l with
  | some m => rfl
  | none =>
    simp [hG.header_mem_seen_iff hF hg hh hnew hl ho, hG.body_new, (ne_nextId hl).symm]

omit hg hh hnew in
/-- The search only adds loops around loops, the new one. -/
theorem Collecting.hasNoInner_old (hl : l ∈ F.ids) :
    G.hasNoInner l = true ↔ ∀ m ∈ G.ids, G.outer? m ≠ some l := by
  have hsame : G.hasNoInner l = F.hasNoInner l := by rw [hasNoInner, hG.old l hl, hasNoInner]
  rw [hsame, hF.noInner l hl, hG.forall_ids_iff, hG.outer?_new]
  refine ⟨fun hnone => ⟨fun m hm ho => ?_, nofun⟩, fun hnone m hm ho => hnone.1 m hm ?_⟩
  · rcases hG.outer?_cases hm ho with ho | ⟨-, -, heq⟩
    · exact hnone m hm ho
    · exact ne_nextId hl heq
  · rw [hG.outer?_old hm, ho, Option.some_or]

omit hh hnew in
/-- What is inside the new loop are the outermost loops that the search has gone through. -/
theorem Collecting.hasNoInner_new :
    G.hasNoInner F.nextId = true ↔ ∀ m ∈ G.ids, G.outer? m ≠ some F.nextId := by
  rw [hG.noInner, hG.forall_ids_iff, hG.outer?_new]
  refine ⟨fun hnone => ⟨fun m hm ho => ?_, nofun⟩, fun hnone m hm hroot hseen => ?_⟩
  · rcases hG.outer?_cases hm ho with ho | ⟨hroot, hseen, -⟩
    · exact ne_nextId ((hF.climbable hg).outer m _ ho).2 rfl
    · exact hnone m hm hroot hseen
  · refine hnone.1 m hm ?_
    rw [hG.outer?_old hm, hroot, Option.none_or, if_pos hseen]

theorem Collecting.discovered : G.Discovered g where
  id := hG.forall_ids_iff.mpr
    ⟨fun l hl => (congrArg Loop.id (hG.old l hl)).trans (hF.id l hl), congrArg Loop.id hG.new⟩
  latches := by
    refine hG.forall_ids_iff.mpr ⟨fun l hl => ?_, ?_⟩
    · rw [hG.old l hl]
      exact hF.latches l hl
    · rw [hG.new, Loop.start]
  unfilled := by
    refine hG.forall_ids_iff.mpr ⟨fun l hl => ?_, ?_⟩
    · rw [hG.old l hl]
      exact hF.unfilled l hl
    · rw [hG.new]
      exact ⟨rfl, rfl, rfl⟩
  latched := by
    refine hG.forall_ids_iff.mpr ⟨fun l hl => ?_, ?_⟩
    · rw [hG.header_old hl]
      exact hF.latched l hl
    · rwa [hG.header_new]
  order := by
    refine hG.forall_ids_iff.mpr ⟨fun l hl => ?_, fun m hm hlt => ?_⟩
    · refine hG.forall_ids_iff.mpr ⟨fun m hm => ?_, fun _ => ?_⟩
      · rw [hG.header_old hl, hG.header_old hm]
        exact hF.order l hl m hm
      · rw [hG.header_old hl, hG.header_new]
        exact hnew l hl
    · -- The new loop is the last one.
      have hlast := mem_ids.mp hm
      rw [hG.size] at hlast
      exact absurd hlt (Nat.not_lt_of_le (Nat.le_of_lt_succ hlast))
  innermost := hG.innermost?_eq hF hg hh hnew
  outer := by
    refine hG.forall_ids_iff.mpr ⟨fun l hl => hG.outer?_eq hF hg hh hnew hl, ?_⟩
    rw [hG.outer?_new, hG.header_new, eq_comm, List.find?_eq_none]
    refine hG.forall_ids_iff.mpr ⟨fun m hm => ?_, by simp⟩
    simp [hG.body_old hm, hF.not_mem_body hg hnew hm]
  noInner := hG.forall_ids_iff.mpr
    ⟨fun _ hl => hG.hasNoInner_old hF hl, hG.hasNoInner_new hF hg⟩

end Collected

end Search

theorem length_start_le : pending g.preds [] g.blocks +
    (g.latches g.dominators h).reverse.length ≤ g.visits (g.latches g.dominators h) := by
  simp [visits]

/-- The headers of the loops found so far, in the order of their discovery. -/
def headers (F : LoopForest) : List BlockId := F.ids.map fun l => (F.get l).header

section Discover

variable (hF : F.Discovered g) (hg : g.Coherent)

include hF hg

theorem Discovered.discover (hnew : ∀ l ∈ F.ids, ¬ g.Dominates (F.get l).header h) :
    (g.discover g.dominators F h).Discovered g ∧
      (g.discover g.dominators F h).headers =
        F.headers ++ [h].filter fun h => g.latches g.dominators h ≠ [] := by
  unfold FlowGraph.discover
  split
  · rename_i hnil
    simp [hF, hnil]
  · rename_i hne
    have hne : g.latches g.dominators h ≠ [] := hne
    obtain ⟨seen, hG⟩ := (Collecting.start (F := F) hg hne).collect hF hg hne hnew
      (length_start_le (g := g))
    refine ⟨hG.discovered hF hg hne hnew, ?_⟩
    have hold : F.ids.map (fun l => ((g.collect g.dominators h F.nextId
        (g.visits (g.latches g.dominators h))
        (F.push (.start F.nextId h (g.latches g.dominators h)))
        (g.latches g.dominators h).reverse).get l).header) = F.headers :=
      List.map_congr_left fun l hl => by rw [hG.old l hl]
    rw [headers, hG.ids_eq, List.map_append, hold, List.map_singleton, hG.new]
    simp [hne, Loop.start]

omit hF hg

/-- The loops found so far, before the headers among `hs` are met. -/
structure Before (F : LoopForest) (g : FlowGraph) (hs : List BlockId) : Prop where
  discovered : F.Discovered g
  fresh : ∀ l ∈ F.ids, ∀ h ∈ hs, ¬ g.Dominates (F.get l).header h
  order : hs.Pairwise fun h k => ¬ g.Dominates h k

include hg

theorem Before.discover {hs : List BlockId} (hF : F.Before g (h :: hs)) :
    (g.discover g.dominators F h).Before g hs := by
  obtain ⟨hF, hfresh, horder⟩ := hF
  obtain ⟨hfirst, horder⟩ := List.pairwise_cons.mp horder
  obtain ⟨hF', hheaders⟩ := hF.discover hg fun l hl => hfresh l hl h List.mem_cons_self
  refine ⟨hF', fun l hl k hk => ?_, horder⟩
  have hmem : ((g.discover g.dominators F h).get l).header ∈ F.headers ++
      [h].filter fun h => g.latches g.dominators h ≠ [] := by
    rw [← hheaders]
    exact List.mem_map_of_mem hl
  rcases List.mem_append.mp hmem with hmem | hmem
  · obtain ⟨m, hm, heq⟩ := List.mem_map.mp hmem
    exact heq ▸ hfresh m hm k (List.mem_cons_of_mem h hk)
  · rw [List.mem_singleton.mp (List.mem_of_mem_filter hmem)]
    exact hfirst k hk

/-- Headers that are met before all that dominate them add their loops one by one. -/
theorem Before.foldl {hs : List BlockId} (hF : F.Before g hs) :
    (hs.foldl (g.discover g.dominators) F).Discovered g ∧
      (hs.foldl (g.discover g.dominators) F).headers =
        F.headers ++ hs.filter fun h => g.latches g.dominators h ≠ [] := by
  induction hs generalizing F with
  | nil => simpa using hF.discovered
  | cons h hs ih =>
    obtain ⟨hend, hall⟩ := ih (hF.discover hg)
    have hheaders := (hF.discovered.discover hg fun l hl =>
      hF.fresh l hl h List.mem_cons_self).2
    refine ⟨hend, ?_⟩
    rw [List.foldl_cons, hall, hheaders, List.append_assoc, ← List.filter_append,
      List.singleton_append]

theorem before_postOrder :
    LoopForest.empty.Before g (g.dominators.postOrder g.size .entry) where
  discovered := .empty
  fresh _ hl := absurd hl List.not_mem_nil
  order := hg.pairwise_postOrder reachable_entry

end Discover

/-- The search finds the natural loops, one for each header. -/
theorem discovered_foundLoops (hg : g.Coherent) : g.foundLoops.Discovered g ∧
    g.foundLoops.headers = (g.dominators.postOrder g.size .entry).filter
      fun h => g.latches g.dominators h ≠ [] :=
  (before_postOrder hg).foldl hg

end LoopForest

end LoopBounds
