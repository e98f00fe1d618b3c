import LoopBounds.Proofs.Listing.Program
import LoopBounds.Proofs.Listing.Resolved

/-!
# Printing and parsing

A function that has been parsed is parsed again from its own text.
-/

namespace LoopBounds

namespace Listing

theorem Operand.WellFormed.normalize {o : Operand} (h : o.WellFormed) : o.normalize.WellFormed := by
  cases o with
  | value n => exact h
  | literal s => exact isLiteral_toString _

theorem Line.WellFormed.normalize {l : Line} (h : l.WellFormed) : l.normalize.WellFormed := by
  cases l with
  | phi n sources =>
    refine ⟨h.1, by simpa using h.2.1, fun s hs => ?_⟩
    obtain ⟨s', hs', rfl⟩ := List.mem_map.mp hs
    exact ⟨(h.2.2 s' hs').1.normalize, (h.2.2 s' hs').2⟩
  | arith | compare => exact ⟨h.1, h.2.1.normalize, h.2.2.normalize⟩
  | neg => exact ⟨h.1, h.2.normalize⟩
  | jump => exact h
  | branch => exact ⟨h.1.normalize, h.2⟩
  | ret value =>
    intro x hx
    obtain ⟨y, hy, rfl⟩ := Option.map_eq_some_iff.mp hx
    exact (h y hy).normalize

theorem Section.WellFormed.normalize {s : Section} (h : s.WellFormed) : s.normalize.WellFormed := by
  refine ⟨h.label, fun l hl => ?_, ?_⟩
  · obtain ⟨l', hl', rfl⟩ := List.mem_map.mp hl
    exact (h.lines l' hl').normalize
  · obtain ⟨phis, body, last, hlines, hphis, hbody, hlast⟩ := h.ordered
    have hphi (l : Line) : l.normalize.isPhi = l.isPhi := by cases l <;> rfl
    refine ⟨phis.map Line.normalize, body.map Line.normalize, last.normalize, ?_, ?_, ?_, ?_⟩
    · simp [Section.normalize, hlines]
    · simpa [hphi] using hphis
    · simpa [hphi, Line.isTerminator] using hbody
    · simpa [Line.isTerminator] using hlast

theorem Definition.WellFormed.normalize {d : Definition} (h : d.WellFormed) :
    d.normalize.WellFormed where
  returns := h.returns
  name := h.name
  params := h.params
  nonempty := by simpa [Definition.normalize] using h.nonempty
  sections s hs := by
    obtain ⟨s', hs', rfl⟩ := List.mem_map.mp hs
    exact (h.sections s' hs').normalize

end Listing

namespace Func

open Listing

variable {f : Func} {d : Definition} {text : String} {fs : List Func}

theorem parse_eq_ok_iff : parse text = .ok fs ↔
    ∃ ds, read? text = some ds ∧ List.Forall₂ (fun d f => d.resolve = .ok f) ds fs := by
  rw [parse]
  cases read? text with
  | none => simp
  | some ds => simp [mapM_eq_ok_iff]

/-- A parsed function stands for a definition that can be written down. -/
theorem exists_definition_of_parse (h : parse text = .ok fs) (hf : f ∈ fs) :
    ∃ (d : Definition) (vs : List Int32), d.WellFormed ∧ d.Resolves vs f := by
  obtain ⟨ds, hread, hresolve⟩ := parse_eq_ok_iff.mp h
  obtain ⟨d, hd, hdf⟩ := exists_left_of_forall₂ hresolve hf
  obtain ⟨vs, hvs⟩ := resolve_eq_ok_iff.mp hdf
  exact ⟨d, vs, wellFormed_of_read? hread d hd, hvs⟩

theorem parse_text_of_listing {g : Func} (hf : f.Printable) (hwell : f.listing.WellFormed)
    (hresolve : f.listing.resolve = .ok g) : parse f.text = .ok [g] := by
  rw [← text_listing hf]
  exact parse_eq_ok_iff.mpr ⟨[f.listing], read?_text hwell, .cons hresolve .nil⟩

theorem parse_text (h : parse text = .ok fs) (hf : f ∈ fs) : parse f.text = .ok [f] := by
  obtain ⟨d, vs, hd, hvs⟩ := exists_definition_of_parse h hf
  apply parse_text_of_listing (hvs.printable hd)
  · rw [hvs.listing_eq hd]
    exact hd.normalize
  · rw [hvs.listing_eq hd]
    exact resolve_normalize (resolve_eq_ok_iff.mpr ⟨vs, hvs⟩)

end Func

end LoopBounds
