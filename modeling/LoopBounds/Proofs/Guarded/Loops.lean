import LoopBounds.Proofs.Guarded.Flow

/-!
# Guarded search for loops

The search reads the loops that pointers lead to, writes to them, and climbs out of them; it goes
on as long as there is work on its stack. Here a pointer to a loop that is not there stops the
run, and so do a climb with more steps than there are loops and a search with more visits than it
has been granted. While the loops found so far are as they should be, nothing of this happens.
-/

namespace LoopBounds.Guarded

section Climbs

variable (forest : LoopForest)

def climb : Nat → Option LoopId → Guarded (List LoopId)
  | _, none => return []
  | 0, some _ => throw .depth
  | depth + 1, some l => do return l :: (← climb depth (← loop forest l).outer)

def wayOut (cur : Option LoopId) : Guarded (List LoopId) := climb forest forest.loops.size cur

def contains (l : LoopId) (b : BlockId) : Guarded Bool := do
  return l ∈ (← wayOut forest (forest.innermost? b))

def outermost (l : LoopId) : Guarded LoopId := do
  return (← wayOut forest (some l)).getLastD l

def update (l : LoopId) (change : Loop → Loop) : Guarded LoopForest := do
  discard (loop forest l)
  return forest.update l change

variable {forest} {l : LoopId} {b : BlockId} {change : Loop → Loop}

theorem update_eq (hl : l ∈ forest.ids) :
    update forest l change = pure (forest.update l change) := by
  rw [update, loop_eq hl]
  rfl

variable (hforest : forest.Climbable)

include hforest

theorem climb_eq {depth : ℕ} (hl : l ∈ forest.ids)
    (hdepth : forest.loops.size ≤ l.index + depth) :
    climb forest depth (some l) = pure (forest.climb depth (some l)) := by
  have hlt := LoopForest.mem_ids.mp hl
  induction depth generalizing l with
  | zero => omega
  | succ depth ih =>
    rw [climb, LoopForest.climb, loop_eq hl, pure_bind, ← LoopForest.outer?]
    cases ho : forest.outer? l with
    | none => cases depth <;> rfl
    | some m =>
      obtain ⟨hlm, hm⟩ := hforest.outer l m ho
      rw [ih hm (by omega) (LoopForest.mem_ids.mp hm)]
      rfl

theorem wayOut_eq {cur : Option LoopId} (hcur : ∀ l, cur = some l → l ∈ forest.ids) :
    wayOut forest cur = pure (forest.wayOut cur) := by
  cases cur with
  | none =>
    rw [wayOut, LoopForest.wayOut, LoopForest.climb_none]
    cases forest.loops.size <;> rfl
  | some l => exact climb_eq hforest (hcur l rfl) (by omega)

theorem contains_eq : contains forest l b = pure (forest.contains l b) := by
  rw [contains, wayOut_eq hforest fun l => hforest.mapped b l]
  rfl

theorem outermost_eq (hl : l ∈ forest.ids) :
    outermost forest l = pure (forest.outermost l) := by
  rw [outermost, wayOut_eq hforest fun m hm => Option.some.inj hm ▸ hl]
  rfl

end Climbs

section Search

variable (f : Func) (t : Dominators)

def latches (h : BlockId) : Guarded (List BlockId) := do
  return (← block f h).preds.filter (t.dominates h)

def reachablePreds (b : BlockId) : Guarded (List BlockId) := do
  return (← block f b).preds.filter t.isReachable

variable (h : BlockId) (new : LoopId)

def enclose (forest : LoopForest) (inner : LoopId) : Guarded LoopForest := do
  let forest ← update forest new ({ · with noInner := false })
  update forest inner ({ · with outer := some new })

def visitBlock (forest : LoopForest) (b : BlockId) : Guarded (LoopForest × List BlockId) := do
  match forest.innermost? b with
  | none =>
      let assigned := forest.assign b new
      if b = h then return (assigned, []) else return (assigned, ← reachablePreds f t b)
  | some l =>
      let inner ← outermost forest l
      if inner = new then return (forest, [])
      else
        let enclosed ← enclose new forest inner
        return (enclosed, ← reachablePreds f t (← loop forest inner).header)

def collect : Nat → LoopForest → List BlockId → Guarded LoopForest
  | _, forest, [] => return forest
  | 0, _, _ :: _ => throw .depth
  | fuel + 1, forest, b :: work => do
      let (forest, more) ← visitBlock f t h new forest b
      collect fuel forest (more.reverse ++ work)

def discover (forest : LoopForest) (h : BlockId) : Guarded LoopForest := do
  match ← latches f t h with
  | [] => return forest
  | latches =>
      let new := forest.nextId
      collect f t h new (f.flow.visits latches) (forest.push (.start new h latches))
        latches.reverse

variable {f t h new} {F G : LoopForest} {b : BlockId} {seen work : List BlockId}

theorem latches_eq (hh : h.index < f.blocks.size) :
    latches f t h = pure (f.flow.latches t h) := by
  rw [latches, block_eq hh]
  rfl

theorem reachablePreds_eq (hb : b.index < f.blocks.size) :
    reachablePreds f t b = pure (f.flow.reachablePreds t b) := by
  rw [reachablePreds, block_eq hb]
  rfl

theorem enclose_eq {inner : LoopId} (hinner : inner ∈ G.ids) (hnew : new ∈ G.ids) :
    enclose new G inner = pure (G.enclose inner new) := by
  rw [enclose, update_eq hnew, pure_bind, update_eq (by rwa [LoopForest.ids_update])]
  rfl

variable (hf : f.flow.Coherent) (hF : F.Discovered f.flow)
variable (hh : f.flow.latches f.flow.dominators h ≠ [])

include hf hF hh

theorem visitBlock_eq (hG : F.Collecting f.flow h seen (b :: work) G) :
    visitBlock f f.flow.dominators h F.nextId G b =
      pure (f.flow.visit f.flow.dominators h F.nextId G b) := by
  have hclimb := hG.climbable hF hf
  have hnat := hf.natural_naturalLoop hh
  unfold visitBlock FlowGraph.visit
  cases hb : G.innermost? b with
  | none =>
    have hlt := hf.index_lt_of_reachable (hnat.reachable b (hG.pending b List.mem_cons_self))
    dsimp only
    rw [reachablePreds_eq hlt]
    split_ifs <;> rfl
  | some l =>
    have hl := hclimb.mapped b l hb
    have hinner := hclimb.mem_ids_of_around hl (hclimb.outermost_spec hl).1
    have hnew : F.nextId ∈ G.ids := by
      rw [hG.ids_eq]
      exact List.mem_append_right _ List.mem_cons_self
    dsimp only
    rw [outermost_eq hclimb hl, pure_bind]
    split_ifs with heq
    · rfl
    · have hold : G.outermost l ∈ F.ids := by
        rw [hG.ids_eq] at hinner
        exact (List.mem_append.mp hinner).resolve_right fun h => heq (List.mem_singleton.mp h)
      have hheader : (G.get (G.outermost l)).header.index < f.blocks.size := by
        rw [hG.old _ hold]
        exact hf.index_lt_of_reachable ((hF.natural hf hold).reachable _ (hF.header_mem hf hold))
      rw [enclose_eq hinner hnew, pure_bind, loop_eq hinner, pure_bind, reachablePreds_eq hheader]
      rfl

variable (hnew : ∀ l ∈ F.ids, ¬ f.flow.Dominates (F.get l).header h)

include hnew

/-- The stack is empty before the visits are used up. -/
theorem collect_eq {fuel : ℕ} (hG : F.Collecting f.flow h seen work G)
    (hfuel : pending f.flow.preds seen f.flow.blocks + work.length ≤ fuel) :
    collect f f.flow.dominators h F.nextId fuel G work =
      pure (f.flow.collect f.flow.dominators h F.nextId fuel G work) := by
  induction fuel generalizing seen work G with
  | zero =>
    obtain rfl := List.length_eq_zero_iff.mp (Nat.le_zero.mp (by omega : work.length ≤ 0))
    rfl
  | succ fuel ih =>
    cases work with
    | nil => rfl
    | cons b work =>
      obtain ⟨seen', hG', hless⟩ := hG.visit hF hf hh hnew
      have hrest := ih hG' (by
        simp only [List.length_append, List.length_reverse, List.length_cons] at hfuel ⊢
        omega)
      rw [collect, visitBlock_eq hf hF hh hG, pure_bind]
      exact hrest

omit hh

theorem discover_eq (hreach : h.index < f.blocks.size) :
    discover f f.flow.dominators F h = pure (f.flow.discover f.flow.dominators F h) := by
  rw [discover, latches_eq hreach, pure_bind]
  unfold FlowGraph.discover
  cases hl : f.flow.latches f.flow.dominators h with
  | nil => rfl
  | cons b bs =>
    have hh : f.flow.latches f.flow.dominators h ≠ [] := by simp [hl]
    have hcollect := collect_eq hf hF hh hnew (.start hf hh) LoopForest.length_start_le
    rw [hl] at hcollect
    exact hcollect

omit hF hnew

theorem foldlM_discover_eq {hs : List BlockId} (hF : F.Before f.flow hs)
    (hhs : ∀ h ∈ hs, h.index < f.blocks.size) :
    hs.foldlM (discover f f.flow.dominators) F =
      pure (hs.foldl (f.flow.discover f.flow.dominators) F) := by
  induction hs generalizing F with
  | nil => rfl
  | cons h hs ih =>
    obtain ⟨hh, hhs⟩ := List.forall_mem_cons.mp hhs
    rw [List.foldlM_cons, discover_eq hf hF.discovered
      (fun l hl => hF.fresh l hl h List.mem_cons_self) hh, pure_bind]
    exact ih (hF.discover hf) hhs

end Search

section Filling

def calcLevel : Nat → LoopForest → LoopId → Guarded (LoopForest × Int)
  | 0, _, _ => throw .depth
  | depth + 1, forest, l => do
      let entry ← loop forest l
      if entry.level ≠ -1 then return (forest, entry.level)
      else
        let (forest, level) ←
          match entry.outer with
          | some m => do
              let (forest, above) ← calcLevel depth forest m
              pure (forest, above + 1)
          | none => pure (forest, 1)
        return (← update forest l ({ · with level := level }), level)

variable (forest : LoopForest)

def nest (l : LoopId) : Guarded LoopForest := do
  let (forest, _) ← calcLevel forest.loops.size forest l
  match (← loop forest l).outer with
  | some m => update forest m fun x => { x with subloops := x.subloops ++ [l] }
  | none => return forest

def recordBlock (b : BlockId) : Guarded LoopForest := do
  (← wayOut forest (forest.innermost? b)).foldlM
    (fun forest l => update forest l fun x => { x with blocks := x.blocks ++ [b] }) forest

def preheader? (f : Func) (h : BlockId) (inside : BlockId → Guarded Bool) :
    Guarded (Option BlockId) := do
  match ← (← block f h).preds.filterM fun p => do return !(← inside p) with
  | [p] => return if (← block f p).succs.length = 1 then some p else none
  | _ => return none

def recordPreheader (f : Func) (l : LoopId) : Guarded LoopForest := do
  let preheader ← preheader? f (← loop forest l).header (contains forest l)
  update forest l ({ · with preheader := preheader })

variable {forest} {l : LoopId} {b h : BlockId} (hforest : forest.Climbable)

section Levels

include hforest

theorem calcLevel_eq {depth : ℕ} (hl : l ∈ forest.ids)
    (hdepth : forest.loops.size ≤ l.index + depth) :
    calcLevel depth forest l = pure (LoopForest.calcLevel depth forest l) := by
  have hlt := LoopForest.mem_ids.mp hl
  induction depth generalizing l with
  | zero => omega
  | succ depth ih =>
    rw [calcLevel, loop_eq hl, pure_bind, LoopForest.calcLevel, ← LoopForest.level,
      ← LoopForest.outer?]
    split_ifs with hlevel
    · rfl
    · cases ho : forest.outer? l with
      | none => simp [update_eq hl]
      | some m =>
        obtain ⟨hlm, hm⟩ := hforest.outer l m ho
        have hids := (LoopForest.sameShape_calcLevel depth forest m).ids_eq
        simp [ih hm (by omega) (LoopForest.mem_ids.mp hm), update_eq (hids ▸ hl)]

theorem nest_eq (hl : l ∈ forest.ids) : nest forest l = pure (forest.nest l) := by
  have hshape := LoopForest.sameShape_calcLevel forest.loops.size forest l
  rw [nest, calcLevel_eq hforest hl (by omega), pure_bind]
  dsimp only
  rw [loop_eq (hshape.ids_eq ▸ hl), pure_bind, ← LoopForest.outer?, LoopForest.nest]
  cases ho : (LoopForest.calcLevel forest.loops.size forest l).1.outer? l with
  | none => rfl
  | some m => exact update_eq ((hshape.climbable hforest).outer l m ho).2

theorem recordBlock_eq : recordBlock forest b = pure (forest.recordBlock b) := by
  rw [recordBlock, wayOut_eq hforest fun l => hforest.mapped b l, pure_bind]
  refine foldlM_eq (I := fun F => F.ids = forest.ids) (fun F hF l hl => ?_) rfl
  have hmem : l ∈ forest.ids := by
    cases hb : forest.innermost? b with
    | none =>
      rw [hb, LoopForest.wayOut, LoopForest.climb_none] at hl
      cases hl
    | some m =>
      rw [hb] at hl
      have hm := hforest.mapped b m hb
      exact hforest.mem_ids_of_around hm ((hforest.mem_wayOut hm).mp hl)
  exact ⟨update_eq (hF ▸ hmem), LoopForest.ids_update.trans hF⟩

end Levels

variable {f : Func} (hf : f.flow.Coherent)

include hf

theorem preheader?_eq {inside : BlockId → Guarded Bool} {inside' : BlockId → Bool}
    (hinside : ∀ p, inside p = pure (inside' p)) (hh : h.index < f.blocks.size) :
    preheader? f h inside = pure (f.flow.preheader? h inside') := by
  have hfilter : (f.block h).preds.filterM (fun p => do return !(← inside p)) =
      pure ((f.block h).preds.filter fun p => !inside' p) :=
    filterM_eq fun p _ => by simp [hinside]
  have hmem {p : BlockId} (hp : p ∈ (f.block h).preds.filter fun p => !inside' p) :
      p.index < f.blocks.size := index_lt_of_mem_preds hf (List.mem_of_mem_filter hp)
  simp only [preheader?, block_eq hh, pure_bind, hfilter, FlowGraph.preheader?, Func.flow]
  match (f.block h).preds.filter fun p => !inside' p, @hmem with
  | [], _ | _ :: _ :: _, _ => rfl
  | [p], hp =>
    simp only [block_eq (hp (List.mem_singleton_self p))]
    rfl

include hforest

theorem recordPreheader_eq (hl : l ∈ forest.ids)
    (hheader : (forest.get l).header.index < f.blocks.size) :
    recordPreheader forest f l = pure (forest.recordPreheader f.flow l) := by
  rw [recordPreheader, loop_eq hl, pure_bind,
    preheader?_eq hf (fun p => contains_eq hforest) hheader, pure_bind, update_eq hl]
  rfl

end Filling

section Forest

variable (f : Func)

def loopForest : Guarded LoopForest := do
  let t ← dominators f
  let found ← (← postOrder t f.blocks.size .entry).foldlM (discover f t) .empty
  let nested ← found.ids.foldlM nest found
  let filled ← f.blockIds.foldlM recordBlock nested
  filled.ids.foldlM (recordPreheader · f) filled

variable {f} (hf : f.flow.Coherent)

include hf

theorem foundLoops_eq : (f.flow.dominators.postOrder f.blocks.size .entry).foldlM
    (discover f f.flow.dominators) .empty = pure f.flow.foundLoops :=
  foldlM_discover_eq hf (LoopForest.before_postOrder hf) fun _ hh => hf.index_lt_of_reachable
    (hf.dominates_of_mem_postOrder FlowGraph.reachable_entry hh).1

theorem index_lt_of_header {l : LoopId} (hl : l ∈ f.flow.foundLoops.ids) :
    (f.flow.foundLoops.get l).header.index < f.blocks.size :=
  hf.index_lt_of_reachable
    ((hf.discovered.natural hf hl).reachable _ (hf.discovered.header_mem hf hl))

theorem loopForest_eq : loopForest f = pure f.flow.loopForest := by
  let F := f.flow.foundLoops
  let N := F.ids.foldl .nest F
  let B := f.blockIds.foldl .recordBlock N
  have hclimb : F.Climbable := hf.discovered.climbable hf
  have hdepth : (f.flow.dominators.below .entry).length ≤ f.blocks.size := hf.length_below_le
  have hnest : F.ids.foldlM nest F = pure N := by
    refine foldlM_eq (I := fun G => F.SameShape G) (fun G hG l hl => ?_) .refl
    exact ⟨nest_eq (hG.climbable hclimb) (hG.ids_eq ▸ hl), hG.trans LoopForest.sameShape_nest⟩
  have hN : F.SameShape N := .foldl (fun _ _ => LoopForest.sameShape_nest) _
  have hrecord : f.blockIds.foldlM recordBlock N = pure B := by
    refine foldlM_eq (I := fun G => F.SameShape G) (fun G hG b _ => ?_) hN
    exact ⟨recordBlock_eq (hG.climbable hclimb), hG.trans LoopForest.sameShape_recordBlock⟩
  have hB : F.SameShape B := hN.trans (.foldl (fun _ _ => LoopForest.sameShape_recordBlock) _)
  have hpreheaders : B.ids.foldlM (recordPreheader · f) B = pure f.flow.loopForest := by
    refine foldlM_eq (I := fun G => F.SameShape G) (fun G hG l hl => ?_) hB
    have hl : l ∈ F.ids := hB.ids_eq ▸ hl
    refine ⟨recordPreheader_eq (hG.climbable hclimb) hf (hG.ids_eq ▸ hl) ?_,
      hG.trans LoopForest.sameShape_recordPreheader⟩
    rw [hG.header]
    exact index_lt_of_header hf hl
  rw [loopForest, dominators_eq hf, pure_bind,
    postOrder_eq hf FlowGraph.reachable_entry hdepth, pure_bind, foundLoops_eq hf, pure_bind,
    hnest, pure_bind, hrecord, pure_bind, hpreheaders]

end Forest

section Order

variable (forest : LoopForest)

/-- Where a loop comes in the order from the outside to the inside. -/
structure OrderKey where
  id : LoopId
  level : Int
  header : BlockId

def OrderKey.le (a b : OrderKey) : Bool :=
  a.level < b.level || (a.level = b.level && a.header.index ≤ b.header.index)

def level (l : LoopId) : Guarded Int := do return (← loop forest l).level

def outerToInner : Guarded (List LoopId) := do
  let keys ← (forest.loops.toList.map Loop.id).mapM fun l => do
    return (⟨l, ← level forest l, (← loop forest l).header⟩ : OrderKey)
  return (keys.mergeSort OrderKey.le).map OrderKey.id

variable {forest} {l : LoopId}

theorem level_eq (hl : l ∈ forest.ids) : level forest l = pure (forest.level l) := by
  rw [level, loop_eq hl]
  rfl

theorem outerToInner_eq (hforest : forest.Finished) :
    outerToInner forest = pure forest.outerToInner := by
  have hids := hforest.map_id
  let key (l : LoopId) : OrderKey := ⟨l, forest.level l, (forest.get l).header⟩
  have hkeys : (forest.loops.toList.map Loop.id).mapM (fun l => do
      return (⟨l, ← level forest l, (← loop forest l).header⟩ : OrderKey)) =
      pure ((forest.loops.toList.map Loop.id).map key) :=
    mapM_eq fun l hl => by simp [level_eq (hids ▸ hl), loop_eq (hids ▸ hl), key]
  have hsort : ((forest.loops.toList.map Loop.id).map key).mergeSort OrderKey.le =
      forest.outerToInner.map key := (List.map_mergeSort (f := key) fun _ _ _ _ => rfl).symm
  simp only [outerToInner, hkeys, pure_bind, hsort]
  rw [List.map_map]
  exact congrArg pure (List.map_id _)

end Order

end LoopBounds.Guarded
