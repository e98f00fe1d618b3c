import LoopBounds.Proofs.Classify.Formed
import LoopBounds.Proofs.Flow.LoopForest
import LoopBounds.Proofs.Func.Growth

/-!
# The values that a loop classifies

Only instructions of the loop itself are classified, and they are listed. Apart from them a
descriptor is stored for the terminator of the header. For this it suffices that the tables of
the function fit together and that operands are leaves or listed.
-/

namespace LoopBounds

namespace LoopView

variable {v : LoopView} {x y : InstrId} {d : Descriptor} {known : Classes} {b : BlockId}

theorem isOutside_eq_true_iff (hv : v.forest.Finished) : v.isOutside x = true ↔
    (v.func.instr x).isLeaf = true ∨ v.func.home x ∉ v.loop.blocks := by
  rw [isOutside, Bool.or_eq_true, Bool.not_eq_true', ← Bool.not_eq_true, contains, hv.recorded]
  rfl

theorem isMember_eq_true_iff : v.isMember x = true ↔ v.isOutside x = false ∧
    v.forest.innermost? (v.func.home x) = some v.id := by
  rw [isMember, Bool.and_eq_true, Bool.not_eq_true', decide_eq_true_eq]

/-- An instruction of the loop that lies in no inner loop and is listed in its block. -/
structure Owns (v : LoopView) (x : InstrId) : Prop where
  member : v.isMember x = true
  listed : x ∈ (v.func.block (v.func.home x)).instrs

theorem Owns.isOutside_eq_false (h : v.Owns x) : v.isOutside x = false :=
  (isMember_eq_true_iff.mp h.member).1

section Finished

variable (hv : v.forest.Finished)

include hv

theorem Owns.home_mem (h : v.Owns x) : v.func.home x ∈ v.loop.blocks := by
  have hout := h.isOutside_eq_false
  rw [isOutside, Bool.or_eq_false_iff, Bool.not_eq_false'] at hout
  exact (hv.recorded _ _).mp hout.2

theorem Owns.mem_members (h : v.Owns x) : x ∈ v.members :=
  List.mem_flatMap.mpr ⟨v.func.home x, List.mem_filter.mpr
    ⟨h.home_mem hv, decide_eq_true (isMember_eq_true_iff.mp h.member).2⟩, h.listed⟩

variable (hf : v.func.Linked)

include hf

theorem owns_of_mem_members (hx : x ∈ v.members) : v.Owns x := by
  simp only [members, List.mem_flatMap, List.mem_filter, decide_eq_true_eq] at hx
  obtain ⟨b, ⟨hb, hinnermost⟩, hx⟩ := hx
  obtain rfl : v.func.home x = b := hf.home b x hx
  have hleaf : (v.func.instr x).isLeaf = false := hf.not_isLeaf_of_mem_instrs hx
  refine ⟨isMember_eq_true_iff.mpr ⟨?_, hinnermost⟩, hx⟩
  rw [isOutside, hleaf, Bool.false_or, Bool.not_eq_false']
  exact (hv.recorded _ _).mpr hb

omit hv in
theorem owns_of_mem_deps (hx : v.Owns x) (hy : y ∈ v.deps x) : v.Owns y := by
  obtain ⟨hin, hmember⟩ := List.mem_filter.mp hy
  have hleaf : (v.func.instr y).isLeaf = false := by
    have hout := (isMember_eq_true_iff.mp hmember).1
    rw [isOutside, Bool.or_eq_false_iff] at hout
    exact hout.1
  rcases hf.operand _ x hx.listed y (mem_inputs_iff.mp hin) with h | h
  · rw [hleaf] at h
    cases h
  · exact ⟨hmember, List.mem_append_left _ h⟩

theorem mem_members_of_mem_deps (hx : x ∈ v.members) (hy : y ∈ v.deps x) : y ∈ v.members :=
  (owns_of_mem_deps hf (owns_of_mem_members hv hf hx) hy).mem_members hv

theorem owns_of_mem_classes (h : (x, d) ∈ v.classes) : v.Owns x := by
  have hstep (known : Classes) (c : List InstrId) (hk : ∀ t ∈ known, v.Owns t.1)
      (hc : ∀ x ∈ c, v.Owns x) : ∀ t ∈ v.classifyComponent known c, v.Owns t.1 := by
    intro t ht
    exact (mem_classifyComponent ht).elim (hk t) (hc t.1)
  have hall : ∀ t ∈ v.classes, v.Owns t.1 :=
    v.classes_induction (I := fun known => ∀ t ∈ known, v.Owns t.1)
      (fun x y hx hy => owns_of_mem_deps hf hx hy) (fun x hx => owns_of_mem_members hv hf hx)
      (fun t ht => absurd ht List.not_mem_nil) hstep
  exact hall _ h

end Finished

section Values

variable {p z : InstrId} {cycle result : Classes} {others : List InstrId}

theorem not_isTerminator_of_classifyTrivial (h : v.classifyTrivial known x = some d) :
    (v.func.instr x).isTerminator = false := by
  unfold classifyTrivial at h
  split at h
  · simp [*, Instr.isTerminator]
  · simp [*, Instr.isTerminator]
  · simp [*, Instr.isTerminator]
  · cases h

theorem not_isTerminator_of_meaning (h : v.meaning known cycle p z = some d) :
    (v.func.instr z).isTerminator = false := by
  unfold meaning at h
  split at h
  · simp [*, Instr.isTerminator]
  · simp [*, Instr.isTerminator]
  · simp [*, Instr.isTerminator]
  · cases h

theorem not_isTerminator_of_meanings (h : v.meanings known p cycle others = some result) :
    ∀ z ∈ others, (v.func.instr z).isTerminator = false := by
  induction others generalizing cycle with
  | nil => exact fun z hz => absurd hz List.not_mem_nil
  | cons z others ih =>
    obtain ⟨d, hd, h⟩ := Option.bind_eq_some_iff.mp h
    exact List.forall_mem_cons.mpr ⟨not_isTerminator_of_meaning hd, ih h⟩

theorem not_isTerminator_of_isEntryPhi (h : v.isEntryPhi x = true) :
    (v.func.instr x).isTerminator = false := by
  unfold isEntryPhi at h
  split at h
  · simp [*, Instr.isTerminator]
  · cases h

/-- Nothing that is classified is a terminator. -/
def Valued (v : LoopView) (known : Classes) : Prop :=
  ∀ t ∈ known, (v.func.instr t.1).isTerminator = false

theorem Valued.addTrivial (hk : v.Valued known) : v.Valued (v.addTrivial known x) := by
  unfold LoopView.addTrivial
  split
  · exact List.forall_mem_cons.mpr ⟨not_isTerminator_of_classifyTrivial ‹_›, hk⟩
  · exact hk

theorem Valued.classifyRound (hk : v.Valued known) (hp : v.isEntryPhi p = true) :
    v.Valued (v.classifyRound known p others d) := by
  have hp := not_isTerminator_of_isEntryPhi hp
  unfold LoopView.classifyRound
  dsimp only
  split
  · exact hk
  · rename_i e he
    obtain ⟨cycle, hmeanings, -⟩ := Option.bind_eq_some_iff.mp he
    have hothers := not_isTerminator_of_meanings hmeanings
    split_ifs
    · exact List.foldlRecOn others _ (List.forall_mem_cons.mpr ⟨hp, hk⟩)
        fun _ hk _ _ => hk.addTrivial
    · intro t ht
      rcases mem_spread ht with ht | ⟨i, hi, -⟩
      · exact hk t ht
      · rcases List.mem_append.mp (List.mem_of_getElem? hi) with hmem | hmem
        · exact hothers _ (List.mem_reverse.mp hmem)
        · rwa [List.mem_singleton.mp hmem]
    · exact hk

theorem Valued.classifyCycle (hk : v.Valued known) (hp : v.isEntryPhi p = true) :
    v.Valued (v.classifyCycle known p others) := by
  unfold LoopView.classifyCycle
  split
  · exact hk
  split
  · unfold classifyAlone
    split
    · exact List.forall_mem_cons.mpr ⟨not_isTerminator_of_isEntryPhi hp, hk⟩
    · exact hk
  · exact hk.classifyRound hp

theorem Valued.classifyComponent {component : List InstrId} (hk : v.Valued known) :
    v.Valued (v.classifyComponent known component) := by
  unfold LoopView.classifyComponent
  split
  · exact hk.addTrivial
  · exact hk
  · split
    · exact hk
    · exact hk.classifyCycle (Setting.isEntryPhi_of_fromEntry ‹_› ‹_›)

theorem valued_classes : v.Valued v.classes :=
  List.foldlRecOn _ _ (fun _ ht => absurd ht List.not_mem_nil) fun _ hk _ _ =>
    hk.classifyComponent

end Values

end LoopView

namespace Analysis

variable {f g : Func} {l : LoopId} {x : InstrId} {d : Descriptor} {b p : BlockId}

theorem mem_ids_of_preheader {F : LoopForest} (h : (F.get l).preheader = some p) : l ∈ F.ids := by
  rw [LoopForest.mem_ids]
  by_contra hl
  simp [LoopForest.get, Array.getElem?_eq_none (Nat.le_of_not_lt hl), Loop.start] at h

section Coherent

variable (hf : f.Coherent)

include hf

/-- The home of a terminator is the block that it ends. -/
theorem home_of_terminator? (h : f.terminator? b = some x) : f.home x = b :=
  hf.home b x (List.mem_append_right _ (Option.mem_toList.mpr h))

/-- Control comes into the loop from the preheader only. -/
theorem wayIn_iff_of_preheader (hp : (f.flow.loopForest.get l).preheader = some p) :
    (f.flow.loopForest.get l).header ∈ f.flow.succs b ∧ b ∉ (f.flow.loopForest.get l).blocks ↔
      b = p := by
  rw [hf.flow.preheader_get (mem_ids_of_preheader hp)] at hp
  unfold FlowGraph.preheader? at hp
  split at hp
  · rename_i q hq
    split_ifs at hp
    obtain rfl := Option.some.inj hp
    rw [← List.mem_singleton, ← hq, List.mem_filter, ← hf.flow.edges, Bool.not_eq_true',
      ← Bool.not_eq_true, hf.flow.finished.recorded]
  · cases hp

theorem header_mem_succs_of_preheader (hp : (f.flow.loopForest.get l).preheader = some p) :
    (f.flow.loopForest.get l).header ∈ f.flow.succs p :=
  ((wayIn_iff_of_preheader hf hp).mpr rfl).1

theorem index_lt_of_preheader (hp : (f.flow.loopForest.get l).preheader = some p) :
    p.index < f.blocks.size := by
  have hedge := header_mem_succs_of_preheader hf hp
  by_contra hlt
  simp [Func.flow, Func.block, Array.getElem?_eq_none (Nat.le_of_not_lt hlt), Block.vacant] at hedge

end Coherent

section Linked

variable (hf : f.Linked)

include hf

theorem owns_or_trip (h : (ofFunc f).stored? l x = some d) :
    (LoopView.mk f f.flow.loopForest l).Owns x ∨
      f.terminator? (f.flow.loopForest.get l).header = some x ∧
        (LoopView.mk f f.flow.loopForest l).tripCount?
          (LoopView.mk f f.flow.loopForest l).classes x = some d := by
  rw [stored?, classesOf_ofFunc (lt_of_stored? h)] at h
  exact (LoopView.lookup_classesWithTripCount h).imp_left fun h =>
    LoopView.owns_of_mem_classes hf.flow.finished hf h

theorem mem_instrs_of_stored? (h : (ofFunc f).stored? l x = some d) :
    x ∈ (f.block (f.home x)).instrs := by
  rcases owns_or_trip hf h with hx | ⟨hterm, -⟩
  · exact hx.listed
  · rw [home_of_terminator? hf.toCoherent hterm]
    exact List.mem_append_right _ (Option.mem_toList.mpr hterm)

/-- A descriptor is stored in a loop for values of the loop. -/
theorem home_mem_of_stored? (h : (ofFunc f).stored? l x = some d) :
    f.home x ∈ (f.flow.loopForest.get l).blocks := by
  rcases owns_or_trip hf h with hx | ⟨hterm, -⟩
  · exact hx.home_mem (v := .mk f f.flow.loopForest l) hf.flow.finished
  · rw [home_of_terminator? hf.toCoherent hterm]
    exact (hf.flow.natural (LoopForest.mem_ids.mpr (lt_of_stored? h))).header_mem

theorem index_lt_of_stored? (hfill : f.Filled) (h : (ofFunc f).stored? l x = some d) :
    x.index < f.nodes.size := hfill _ x (mem_instrs_of_stored? hf h)

end Linked

end Analysis

end LoopBounds
