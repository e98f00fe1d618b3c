import LoopBounds.Proofs.Func.Built
import LoopBounds.Proofs.Listing.Consistency
import Mathlib.Data.List.Perm.Subperm

/-!
# The rule for phis and its check

Every block ends in a terminator, and a phi has exactly one source for each predecessor of its
block. The check looks at the number of the sources and at whether each of them comes from a
predecessor. That is the rule as long as no phi names a block twice: a source given twice makes
up for one that is missing, and the check does not see it.
-/

namespace LoopBounds.Func

variable {f : Func} {b : BlockId} {sources : List (InstrId × BlockId)}

/-- Every predecessor of block `b` is the block of exactly one source, and no source comes from
another block. -/
def OnePerPredecessor (f : Func) (b : BlockId) (sources : List (InstrId × BlockId)) : Prop :=
  (∀ p ∈ (f.block b).preds, (sources.map Prod.snd).count p = 1) ∧
    ∀ s ∈ sources, s.2 ∈ (f.block b).preds

/-- The function keeps to the rule for terminators and phis. -/
structure KeepsRule (f : Func) : Prop where
  terminated : ∀ b, b.index < f.blocks.size → f.terminator? b ≠ none
  sources : ∀ b, ∀ x ∈ (f.block b).phis, ∃ sources, f.instr x = .phi sources ∧
    f.OnePerPredecessor b sources

/-- No phi names the same block twice. -/
def DistinctSources (f : Func) : Prop :=
  ∀ b, ∀ x ∈ (f.block b).phis, ∀ sources, f.instr x = .phi sources →
    (sources.map Prod.snd).Nodup

namespace OnePerPredecessor

variable (h : f.OnePerPredecessor b sources)

include h

theorem nodup : (sources.map Prod.snd).Nodup := by
  refine List.nodup_iff_count_le_one.mpr fun p => ?_
  by_cases hp : p ∈ (f.block b).preds
  · exact (h.1 p hp).le
  · have hnone : p ∉ sources.map Prod.snd := by
      intro hmem
      obtain ⟨s, hs, rfl⟩ := List.mem_map.mp hmem
      exact hp (h.2 s hs)
    rw [List.count_eq_zero_of_not_mem hnone]
    exact Nat.zero_le 1

theorem length_eq (hpreds : (f.block b).preds.Nodup) :
    sources.length = (f.block b).preds.length := by
  have hperm : (sources.map Prod.snd).Perm (f.block b).preds := by
    refine (List.perm_ext_iff_of_nodup h.nodup hpreds).mpr fun p => ⟨fun hp => ?_, fun hp => ?_⟩
    · obtain ⟨s, hs, rfl⟩ := List.mem_map.mp hp
      exact h.2 s hs
    · exact List.count_pos_iff.mp (by rw [h.1 p hp]; exact Nat.one_pos)
  rw [← hperm.length_eq, List.length_map]

end OnePerPredecessor

theorem onePerPredecessor_of_length_eq (hnodup : (sources.map Prod.snd).Nodup)
    (hmem : ∀ s ∈ sources, s.2 ∈ (f.block b).preds)
    (hlength : sources.length = (f.block b).preds.length) (hpreds : (f.block b).preds.Nodup) :
    f.OnePerPredecessor b sources := by
  have hsubset : sources.map Prod.snd ⊆ (f.block b).preds := by
    intro p hp
    obtain ⟨s, hs, rfl⟩ := List.mem_map.mp hp
    exact hmem s hs
  have hperm : (sources.map Prod.snd).Perm (f.block b).preds := by
    refine (List.subperm_of_subset hnodup hsubset).perm_of_length_le ?_
    rw [List.length_map, hlength]
  refine ⟨fun p hp => ?_, hmem⟩
  rw [hperm.count_eq]
  exact List.count_eq_one_of_mem hpreds hp

theorem verify_eq_ok_iff_phisFit : f.verify = .ok () ↔ ∀ b, b.index < f.blocks.size →
    f.terminator? b ≠ none ∧ f.PhisFit (f.block b) :=
  Listing.verify_eq_ok_iff.trans fault?_eq_none_iff

/-- A built function keeps to the rule exactly if it is verified and no phi names the same block
twice. -/
theorem Built.keepsRule_iff (hf : f.Built) :
    f.KeepsRule ↔ f.verify = .ok () ∧ f.DistinctSources := by
  have hpreds (b : BlockId) : (f.block b).preds.Nodup := hf.simple.nodup_preds b
  rw [verify_eq_ok_iff_phisFit]
  constructor
  · intro h
    refine ⟨fun b hb => ⟨h.terminated b hb, fun x hx => ?_⟩, fun b x hx sources hsources => ?_⟩
    · obtain ⟨sources, hsources, hone⟩ := h.sources b x hx
      exact ⟨sources, hsources, hone.2, hone.length_eq (hpreds b)⟩
    · obtain ⟨sources', hsources', hone⟩ := h.sources b x hx
      obtain rfl : sources = sources' := Instr.phi.inj (hsources.symm.trans hsources')
      exact hone.nodup
  · rintro ⟨hverified, hdistinct⟩
    refine ⟨fun b hb => (hverified b hb).1, fun b x hx => ?_⟩
    have hb : b.index < f.blocks.size :=
      index_lt_of_mem_instrs (List.mem_append_left _ (List.mem_append_left _ hx))
    obtain ⟨sources, hsources, hmem, hlength⟩ := (hverified b hb).2 x hx
    exact ⟨sources, hsources,
      onePerPredecessor_of_length_eq (hdistinct b x hx sources hsources) hmem hlength (hpreds b)⟩

/-- The phi of block `join` has two sources from the entry, and none from block `left`, which
is the other predecessor. -/
def doubled : Func :=
  Func.empty "doubled" .i32
    |>.addParam "c"
    |>.addBlock "left" |>.addBlock "join"
    |>.setTerminator .entry (.branch ⟨0⟩ ⟨1⟩ ⟨2⟩)
    |>.setTerminator ⟨1⟩ (.jump ⟨2⟩)
    |>.addPhi ⟨2⟩ (some "p") [(⟨0⟩, .entry), (⟨0⟩, .entry)]
    |>.setTerminator ⟨2⟩ (.ret (some ⟨3⟩))

theorem doubled_built : doubled.Built := by
  have hblocks : Func.Built (Func.empty "doubled" .i32
      |>.addParam "c" |>.addBlock "left" |>.addBlock "join") :=
    .addBlock _ (.addBlock _ (.addParam _ (.empty _ _)))
  refine .setTerminator _ _ (.addPhi _ _ _ ?_ (by decide)) (by decide +kernel) (by decide +kernel)
    rfl (by decide +kernel)
  refine .setTerminator _ _ ?_ (by decide +kernel) (by decide +kernel) rfl (by decide +kernel)
  exact .setTerminator _ _ hblocks (by decide +kernel) (by decide +kernel) rfl (by decide +kernel)

/-- The phi names the entry twice. -/
theorem doubled_keepsRule_iff : doubled.Built ∧
    (doubled.KeepsRule ↔ doubled.verify = .ok () ∧ doubled.DistinctSources) ∧
      ¬doubled.DistinctSources := by
  refine ⟨doubled_built, doubled_built.keepsRule_iff, fun h => ?_⟩
  exact absurd (h ⟨2⟩ ⟨3⟩ (by decide +kernel) _ rfl) (by decide)

/-- Verification is not the rule. -/
theorem doubled_verified : doubled.Built ∧ doubled.verify = .ok () ∧ ¬doubled.KeepsRule := by
  refine ⟨doubled_built, by decide +kernel, fun h => ?_⟩
  obtain ⟨sources, hsources, hone⟩ := h.sources ⟨2⟩ ⟨3⟩ (by decide +kernel)
  obtain rfl : [(⟨0⟩, .entry), (⟨0⟩, .entry)] = sources := Instr.phi.inj hsources
  exact absurd (hone.1 ⟨1⟩ (by decide +kernel)) (by decide)

end LoopBounds.Func
