import LoopBounds.Proofs.Listing.Faults

/-!
# Which listings are resolved

A listing is resolved when its names and labels are distinct, everything that is used is
there, its literals are words, and its phis fit the predecessors that the labels give.
-/

namespace LoopBounds

namespace Func

variable {f : Func}

/-- The phis of a block have one source from each predecessor, by number. -/
def PhisFit (f : Func) (bb : Block) : Prop :=
  ∀ x ∈ bb.phis, ∃ sources, f.instr x = .phi sources ∧ (∀ s ∈ sources, s.2 ∈ bb.preds) ∧
    sources.length = bb.preds.length

theorem phiFault?_eq_none_iff {bb : Block} {x : InstrId} : f.phiFault? bb x = none ↔
    ∃ sources, f.instr x = .phi sources ∧ (∀ s ∈ sources, s.2 ∈ bb.preds) ∧
      sources.length = bb.preds.length := by
  unfold phiFault?
  cases f.instr x with
  | phi sources => simp
  | _ => simp

theorem fault?_eq_none_iff : f.fault? = none ↔ ∀ b, b.index < f.blocks.size →
    (f.block b).terminator ≠ none ∧ f.PhisFit (f.block b) := by
  have hblock {bb : Block} : f.blockFault? bb = none ↔ bb.terminator ≠ none ∧ f.PhisFit bb := by
    rw [blockFault?]
    cases bb.terminator with
    | none => simp
    | some y => simp [List.findSome?_eq_none_iff, phiFault?_eq_none_iff, PhisFit]
  rw [fault?, List.findSome?_eq_none_iff]
  simp only [hblock]
  constructor
  · intro h b hb
    rw [block, Array.getElem?_eq_getElem hb]
    exact h _ (Array.getElem_mem_toList hb)
  · intro h bb hbb
    obtain ⟨i, hi, rfl⟩ := List.mem_iff_getElem.mp hbb
    have := h ⟨i⟩ (by simpa using hi)
    rwa [block, Array.getElem?_eq_getElem (by simpa using hi)] at this

end Func

namespace Listing

/-- The labels that a line uses. -/
def Line.labels : Line → List String
  | .phi _ sources => sources.map Prod.snd
  | l => l.targets

theorem Line.mem_mentions {l : Line} {m : Mention} : m ∈ l.mentions ↔
    (∃ o ∈ l.operands, m = .operand o) ∨ ∃ t ∈ l.labels, m = .label t := by
  cases l with
  | phi n sources =>
    simp only [mentions, operands, labels, List.mem_flatMap, List.mem_cons, List.not_mem_nil,
      or_false, List.mem_map]
    constructor
    · rintro ⟨s, hs, rfl | rfl⟩
      · exact .inl ⟨_, ⟨s, hs, rfl⟩, rfl⟩
      · exact .inr ⟨_, ⟨s, hs, rfl⟩, rfl⟩
    · rintro (⟨-, ⟨s, hs, rfl⟩, rfl⟩ | ⟨-, ⟨s, hs, rfl⟩, rfl⟩)
      · exact ⟨s, hs, .inl rfl⟩
      · exact ⟨s, hs, .inr rfl⟩
  | ret value => cases value <;> simp [mentions, operands, labels, targets]
  | _ => simp [mentions, operands, labels, targets]

namespace Definition

variable {d : Definition}

/-- The phis fit the predecessors that the labels give. -/
def PhisFit (d : Definition) : Prop :=
  ∀ s ∈ d.sections, ∀ n sources, .phi n sources ∈ s.lines → d.Fits s.label sources

/-- Names are distinct, what is used is there, and literals are words. -/
structure Consistent (d : Definition) : Prop where
  labels : d.labels.Nodup
  names : d.valueNames.Nodup
  literals : ∀ l ∈ d.lines, ∀ s, .literal s ∈ l.operands → ∃ v, readLiteral s = .ok v
  values : ∀ l ∈ d.lines, ∀ n, .value n ∈ l.operands → n ∈ d.valueNames
  used : ∀ l ∈ d.lines, ∀ t ∈ l.labels, t ∈ d.labels
  phis : d.PhisFit

section Parts

variable {l : Line} {s : String}

theorem literalFaults_eq_nil_iff : literalFaults s = [] ↔ ∃ v, readLiteral s = .ok v :=
  (detects_readLiteral s).exists_ok_iff.symm

theorem mem_literals : s ∈ d.lines.flatMap Line.literals ↔
    ∃ l ∈ d.lines, .literal s ∈ l.operands := by
  simp only [List.mem_flatMap, Line.literals, List.mem_filterMap]
  refine exists_congr fun l => and_congr_right fun _ => ⟨?_, fun hs => ⟨_, hs, rfl⟩⟩
  rintro ⟨o, ho, heq⟩
  cases o with
  | value n => cases heq
  | literal s' =>
    obtain rfl := Option.some.inj heq
    exact ho

theorem mentionFaults_eq_nil_iff : l.mentions.flatMap d.mentionFaults = [] ↔
    (∀ n, .value n ∈ l.operands → n ∈ d.valueNames) ∧ ∀ t ∈ l.labels, t ∈ d.labels := by
  rw [List.flatMap_eq_nil_iff]
  constructor
  · intro h
    constructor
    · intro n hn
      by_contra hnot
      have := h _ (Line.mem_mentions.mpr (.inl ⟨_, hn, rfl⟩))
      simp [mentionFaults, hnot] at this
    · intro t ht
      by_contra hnot
      have := h _ (Line.mem_mentions.mpr (.inr ⟨_, ht, rfl⟩))
      simp [mentionFaults, hnot] at this
  · rintro ⟨hvalues, hlabels⟩ m hm
    rcases Line.mem_mentions.mp hm with ⟨o, ho, rfl⟩ | ⟨t, ht, rfl⟩
    · cases o with
      | value n => rw [mentionFaults, if_pos (hvalues n ho)]
      | literal s => rfl
    · rw [mentionFaults, if_pos (hlabels t ht)]

theorem mismatches_eq_nil_iff : d.mismatches = [] ↔ d.PhisFit := by
  simp only [mismatches, List.flatMap_eq_nil_iff]
  refine forall_congr' fun s => forall_congr' fun _ => ⟨fun h n sources hl => ?_, fun h l hl => ?_⟩
  · by_contra hnot
    simpa [phiFaults, hnot] using h _ hl
  · cases l with
    | phi n sources => rw [phiFaults, if_pos (h n sources hl)]
    | _ => rfl

end Parts

/-- A definition is consistent if it has no faults. -/
theorem faults_eq_nil_iff : d.faults = [] ↔ d.Consistent := by
  simp only [faults, List.append_eq_nil_iff, List.map_eq_nil_iff, repeated_eq_nil_iff]
  rw [List.flatMap_eq_nil_iff, List.flatMap_eq_nil_iff, mismatches_eq_nil_iff]
  simp only [mentionFaults_eq_nil_iff, literalFaults_eq_nil_iff, mem_literals]
  constructor
  · rintro ⟨⟨⟨⟨⟨-, hlabels⟩, hliterals⟩, hnames⟩, hlines⟩, hphis⟩
    exact ⟨hlabels, hnames, fun l hl s hs => hliterals s ⟨l, hl, hs⟩, fun l hl => (hlines l hl).1,
      fun l hl => (hlines l hl).2, hphis⟩
  · rintro ⟨hlabels, hnames, hliterals, hvalues, hused, hphis⟩
    refine ⟨⟨⟨⟨⟨(List.nodup_append.mp hnames).1, hlabels⟩, ?_⟩, hnames⟩,
      fun l hl => ⟨hvalues l hl, hused l hl⟩⟩, hphis⟩
    rintro s ⟨l, hl, hs⟩
    exact hliterals l hl s hs

/-- Just the consistent listings are resolved. -/
theorem exists_resolve_iff (hd : d.WellFormed) : (∃ f, d.resolve = .ok f) ↔ d.Consistent :=
  (detects_resolve hd).exists_ok_iff.trans faults_eq_nil_iff

end Definition

end Listing

end LoopBounds
