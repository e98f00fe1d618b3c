import LoopBounds.Flow.Loops
import Mathlib.Tactic

/-!
# The way out of a loop

Inner loops are found first, so the loop around another one has the greater number. On the
way out the numbers grow, and the climb ends long before it has taken as many steps as there
are loops. What lies on the way, and where it ends, then depends on the pointers alone.
-/

namespace LoopBounds.LoopForest

variable {F G : LoopForest} {l m : LoopId} {b c : BlockId}

section Ids

theorem mem_ids : l ∈ F.ids ↔ l.index < F.loops.size := by
  simp only [ids, List.mem_map, List.mem_range]
  exact ⟨fun ⟨i, hi, heq⟩ => heq ▸ hi, fun h => ⟨l.index, h, rfl⟩⟩

theorem ne_nextId (hl : l ∈ F.ids) : l ≠ F.nextId := by
  rintro rfl
  exact lt_irrefl _ (mem_ids.mp hl)

theorem pairwise_ids : F.ids.Pairwise (·.index < ·.index) :=
  List.pairwise_map.mpr List.pairwise_lt_range

theorem ids_congr (h : G.loops.size = F.loops.size) : G.ids = F.ids := by
  rw [ids, ids, h]

theorem find?_ids {p : LoopId → Bool} : F.ids.find? p = some l ↔
    l ∈ F.ids ∧ p l = true ∧ ∀ m ∈ F.ids, p m = true → l.index ≤ m.index := by
  simp only [ids, List.find?_map, Option.map_eq_some_iff, List.find?_range_eq_some,
    Function.comp_apply]
  constructor
  · rintro ⟨i, ⟨hp, hi, hfirst⟩, rfl⟩
    refine ⟨List.mem_map.mpr ⟨i, hi, rfl⟩, hp, ?_⟩
    intro m hm hpm
    by_contra hlt
    simpa [hpm] using hfirst m.index (Nat.lt_of_not_le hlt)
  · rintro ⟨hl, hp, hfirst⟩
    have hlt := mem_ids.mp hl
    refine ⟨l.index, ⟨hp, List.mem_range.mpr hlt, ?_⟩, rfl⟩
    intro j hj
    by_contra hpj
    have := hfirst ⟨j⟩ (mem_ids.mpr (hj.trans hlt)) (by simpa using hpj)
    exact absurd hj (Nat.not_lt.mpr this)

end Ids

section Updates

variable {change : Loop → Loop} {x : Loop}

theorem get_of_not_mem (hl : l ∉ F.ids) : F.get l = .start l .entry [] := by
  rw [mem_ids, Nat.not_lt] at hl
  rw [get, Array.getElem?_eq_none hl, Option.getD_none]

theorem mem_ids_of_outer? (h : F.outer? l = some m) : l ∈ F.ids := by
  by_contra hl
  rw [outer?, get_of_not_mem hl] at h
  cases h

@[simp] theorem size_update : (F.update l change).loops.size = F.loops.size := Array.size_modify

@[simp] theorem ids_update : (F.update l change).ids = F.ids := ids_congr size_update

@[simp] theorem innermost?_update : (F.update l change).innermost? b = F.innermost? b := rfl

theorem get_update (hm : m ∈ F.ids) :
    (F.update l change).get m = if m = l then change (F.get m) else F.get m := by
  have hlt := mem_ids.mp hm
  simp only [get, update, Array.getElem?_modify, Array.getElem?_eq_getElem hlt,
    Option.map_some]
  by_cases heq : m = l
  · simp [heq]
  · have hindex : l.index ≠ m.index := fun h => heq (LoopId.ext h.symm)
    simp [heq, hindex]

theorem get_enclose (hm : m ∈ F.ids) {inner outer : LoopId} (hne : inner ≠ outer) :
    (F.enclose inner outer).get m =
      if m = inner then { F.get m with outer := some outer }
      else if m = outer then { F.get m with noInner := false } else F.get m := by
  rw [enclose, get_update (by rwa [ids_update]), get_update hm]
  by_cases hmi : m = inner
  · rw [if_pos hmi, if_pos hmi, if_neg (hmi ▸ hne)]
  · rw [if_neg hmi, if_neg hmi]

@[simp] theorem ids_assign : (F.assign b l).ids = F.ids := rfl

@[simp] theorem get_assign : (F.assign b l).get m = F.get m := rfl

theorem innermost?_assign :
    (F.assign b l).innermost? c = if c = b then some l else F.innermost? c := by
  rw [innermost?, assign, List.lookup_cons]
  by_cases h : c = b
  · simp [h]
  · simp [h, beq_eq_false_iff_ne.mpr h, innermost?]

@[simp] theorem innermost?_push : (F.push x).innermost? b = F.innermost? b := rfl

theorem get_push (hm : m ∈ F.ids) : (F.push x).get m = F.get m := by
  have hlt := mem_ids.mp hm
  simp only [get, push, Array.getElem?_push, if_neg (Nat.ne_of_lt hlt)]

theorem get_push_self : (F.push x).get F.nextId = x := by
  simp [get, push, nextId]

end Updates

/-- Pointers lead to loops of the forest, and outwards. -/
structure Climbable (F : LoopForest) : Prop where
  mapped : ∀ b l, F.innermost? b = some l → l ∈ F.ids
  outer : ∀ l m, F.outer? l = some m → l.index < m.index ∧ m ∈ F.ids

/-- Loop `m` is met on the way out from `l`. -/
def Around (F : LoopForest) : LoopId → LoopId → Prop :=
  Relation.ReflTransGen fun l m => F.outer? l = some m

theorem climb_none {depth : ℕ} : F.climb depth none = [] := by
  cases depth <;> rfl

section Climbing

variable (hF : F.Climbable)

include hF

/-- What holds of a loop as soon as it holds of the next one around it holds of all loops. -/
theorem Climbable.induction {P : LoopId → Prop}
    (hstep : ∀ l ∈ F.ids, (∀ m, F.outer? l = some m → P m) → P l) : ∀ l ∈ F.ids, P l := by
  intro l hl
  induction hn : F.loops.size - l.index using Nat.strong_induction_on generalizing l with
  | _ n ih =>
    refine hstep l hl fun m hm => ?_
    obtain ⟨hlt, hm⟩ := hF.outer l m hm
    have := mem_ids.mp hm
    exact ih _ (by omega) m hm rfl

/-- More depth than there are loops left makes no difference. -/
theorem Climbable.climb_eq {depth : ℕ} (hl : l ∈ F.ids)
    (hdepth : F.loops.size ≤ l.index + depth) :
    F.climb (depth + 1) (some l) = F.climb depth (some l) := by
  have hlt := mem_ids.mp hl
  induction depth generalizing l with
  | zero => omega
  | succ depth ih =>
    rw [climb, climb]
    cases ho : F.outer? l with
    | none => rw [climb_none, climb_none]
    | some m =>
      obtain ⟨hlm, hm⟩ := hF.outer l m ho
      rw [ih hm (by omega) (mem_ids.mp hm)]

theorem Climbable.wayOut_some (hl : l ∈ F.ids) :
    F.wayOut (some l) = l :: F.wayOut (F.outer? l) := by
  have hlt := mem_ids.mp hl
  unfold wayOut
  cases hn : F.loops.size with
  | zero => omega
  | succ n =>
    rw [climb]
    cases ho : F.outer? l with
    | none => rw [climb_none, climb_none]
    | some m =>
      obtain ⟨hlm, hm⟩ := hF.outer l m ho
      rw [hF.climb_eq hm (by omega)]

theorem Climbable.mem_wayOut (hl : l ∈ F.ids) : m ∈ F.wayOut (some l) ↔ F.Around l m := by
  refine hF.induction (P := fun l => m ∈ F.wayOut (some l) ↔ F.Around l m) ?_ l hl
  intro l hl ih
  rw [hF.wayOut_some hl, List.mem_cons, Around, Relation.ReflTransGen.cases_head_iff, eq_comm]
  refine or_congr_right ?_
  cases ho : F.outer? l with
  | none => simp [wayOut, climb_none]
  | some k =>
    rw [ih k ho]
    exact ⟨fun h => ⟨k, rfl, h⟩, fun ⟨k', hk', h⟩ => Option.some.inj hk' ▸ h⟩

theorem Climbable.mem_ids_of_around (hl : l ∈ F.ids) (h : F.Around l m) : m ∈ F.ids := by
  induction h with
  | refl => exact hl
  | tail _ ho _ => exact (hF.outer _ _ ho).2

theorem Climbable.index_le_of_around (h : F.Around l m) : l.index ≤ m.index := by
  induction h with
  | refl => exact Nat.le_refl _
  | tail _ ho ih => exact ih.trans (Nat.le_of_lt (hF.outer _ _ ho).1)

theorem Climbable.pairwise_wayOut (hl : l ∈ F.ids) :
    (F.wayOut (some l)).Pairwise (·.index < ·.index) := by
  refine hF.induction (P := fun l => (F.wayOut (some l)).Pairwise (·.index < ·.index)) ?_ l hl
  intro l hl ih
  rw [hF.wayOut_some hl]
  cases ho : F.outer? l with
  | none => simp [wayOut, climb_none]
  | some k =>
    obtain ⟨hlk, hk⟩ := hF.outer l k ho
    refine List.pairwise_cons.mpr ⟨fun m hm => ?_, ih k ho⟩
    exact hlk.trans_le (hF.index_le_of_around ((hF.mem_wayOut hk).mp hm))

theorem Climbable.contains_iff : F.contains m b = true ↔
    ∃ l, F.innermost? b = some l ∧ F.Around l m := by
  rw [contains, decide_eq_true_eq]
  cases hb : F.innermost? b with
  | none => simp [wayOut, climb_none]
  | some l => simp [hF.mem_wayOut (hF.mapped b l hb)]

theorem Climbable.outermost_of_none (hl : l ∈ F.ids) (ho : F.outer? l = none) :
    F.outermost l = l := by
  rw [outermost, hF.wayOut_some hl, ho]
  simp [wayOut, climb_none]

theorem Climbable.outermost_of_some (hl : l ∈ F.ids) (ho : F.outer? l = some m) :
    F.outermost l = F.outermost m := by
  rw [outermost, outermost, hF.wayOut_some hl, ho, hF.wayOut_some (hF.outer l m ho).2,
    List.getLastD_cons, List.getLastD_cons, List.getLastD_cons]

/-- The climb comes to a loop that no other one is around. -/
theorem Climbable.outermost_spec (hl : l ∈ F.ids) :
    F.Around l (F.outermost l) ∧ F.outer? (F.outermost l) = none := by
  refine hF.induction (P := fun l => F.Around l (F.outermost l) ∧
    F.outer? (F.outermost l) = none) ?_ l hl
  intro l hl ih
  cases ho : F.outer? l with
  | none =>
    rw [hF.outermost_of_none hl ho]
    exact ⟨.refl, ho⟩
  | some m =>
    rw [hF.outermost_of_some hl ho]
    exact ⟨.head ho (ih m ho).1, (ih m ho).2⟩

theorem Climbable.outermost_eq (hl : l ∈ F.ids) (h : F.Around l m) (hm : F.outer? m = none) :
    F.outermost l = m := by
  induction h using Relation.ReflTransGen.head_induction_on with
  | refl => exact hF.outermost_of_none hl hm
  | head ho _ ih =>
    rw [hF.outermost_of_some hl ho]
    exact ih (hF.outer _ _ ho).2

end Climbing

/-- The same pointers lead from the same blocks and loops, and the loops have the same
headers. -/
structure SameShape (F G : LoopForest) : Prop where
  size : G.loops.size = F.loops.size
  innermost : ∀ b, G.innermost? b = F.innermost? b
  outer : ∀ l, G.outer? l = F.outer? l
  header : ∀ l, (G.get l).header = (F.get l).header

namespace SameShape

theorem refl : F.SameShape F := ⟨rfl, fun _ => rfl, fun _ => rfl, fun _ => rfl⟩

theorem trans {H : LoopForest} (h : F.SameShape G) (h' : G.SameShape H) : F.SameShape H where
  size := h'.size.trans h.size
  innermost b := (h'.innermost b).trans (h.innermost b)
  outer l := (h'.outer l).trans (h.outer l)
  header l := (h'.header l).trans (h.header l)

/-- What is filled in afterwards touches neither pointers nor headers. -/
theorem update {change : Loop → Loop} (houter : ∀ x, (change x).outer = x.outer)
    (hheader : ∀ x, (change x).header = x.header) : F.SameShape (F.update l change) := by
  have hget (m : LoopId) : (F.update l change).get m = change (F.get m) ∨
      (F.update l change).get m = F.get m := by
    by_cases hm : m ∈ F.ids
    · rw [get_update hm]
      by_cases hml : m = l
      · exact .inl (if_pos hml)
      · exact .inr (if_neg hml)
    · rw [get_of_not_mem hm, get_of_not_mem (by rwa [ids_update])]
      exact .inr rfl
  refine ⟨size_update, fun _ => rfl, fun m => ?_, fun m => ?_⟩
  · rw [outer?, outer?]
    rcases hget m with h | h <;> simp only [h, houter]
  · rcases hget m with h | h <;> simp only [h, hheader]

theorem foldl {α : Type} {step : LoopForest → α → LoopForest}
    (hstep : ∀ F a, SameShape F (step F a)) (as : List α) : F.SameShape (as.foldl step F) := by
  induction as generalizing F with
  | nil => exact .refl
  | cons a as ih => exact (hstep F a).trans ih

variable (h : F.SameShape G)

include h

theorem ids_eq : G.ids = F.ids := ids_congr h.size

theorem wayOut_eq {cur : Option LoopId} : G.wayOut cur = F.wayOut cur := by
  have hclimb (depth : ℕ) : ∀ cur, G.climb depth cur = F.climb depth cur := by
    induction depth with
    | zero => exact fun _ => rfl
    | succ depth ih =>
      intro cur
      cases cur with
      | none => rfl
      | some l => rw [climb, climb, h.outer, ih]
  rw [wayOut, wayOut, h.size, hclimb]

theorem contains_eq : G.contains l = F.contains l := by
  funext b
  rw [contains, contains, h.innermost, h.wayOut_eq]

theorem climbable (hF : F.Climbable) : G.Climbable where
  mapped b l hb := by
    rw [h.ids_eq]
    exact hF.mapped b l (h.innermost b ▸ hb)
  outer l m hl := by
    rw [h.ids_eq]
    exact hF.outer l m (h.outer l ▸ hl)

end SameShape

section Filling

theorem sameShape_calcLevel (depth : ℕ) :
    ∀ (F : LoopForest) (l : LoopId), F.SameShape (calcLevel depth F l).1 := by
  induction depth with
  | zero => exact fun F l => .refl
  | succ depth ih =>
    intro F l
    unfold calcLevel
    split_ifs
    · exact .refl
    · cases F.outer? l with
      | none => exact .update (fun _ => rfl) fun _ => rfl
      | some m => exact (ih F m).trans (.update (fun _ => rfl) fun _ => rfl)

theorem sameShape_nest : F.SameShape (F.nest l) := by
  unfold nest
  dsimp only
  split
  · exact (sameShape_calcLevel _ F l).trans (.update (fun _ => rfl) fun _ => rfl)
  · exact sameShape_calcLevel _ F l

theorem sameShape_recordBlock : F.SameShape (F.recordBlock b) := by
  refine SameShape.foldl (fun F l => ?_) _
  exact .update (fun _ => rfl) fun _ => rfl

theorem sameShape_recordPreheader {g : FlowGraph} : F.SameShape (F.recordPreheader g l) :=
  .update (fun _ => rfl) fun _ => rfl

end Filling

end LoopBounds.LoopForest
