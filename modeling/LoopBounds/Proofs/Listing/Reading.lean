import LoopBounds.Proofs.Listing.Written

/-!
# Where reading goes on and where it stops

Blanks and comments in front of a word, a name or an integer make no difference. A word is read
whatever follows it, but a name or an integer goes on as long as it can.
-/

namespace LoopBounds.Listing

section Blanks

/-- The text does not continue a name, a label or an integer. -/
def Ends (text : List Char) : Prop := ∀ c ∈ text.head?, Reader.isNameChar c = false

/-- The text does not continue an integer. -/
def EndsDigits (text : List Char) : Prop := ∀ c ∈ text.head?, c.isDigit = false

/-- The text does not continue a list. -/
def NoComma (text : List Char) : Prop := (skip text).head? ≠ some ','

theorem ends_cons {c : Char} {text : List Char} (hc : Reader.isNameChar c = false) :
    Ends (c :: text) := fun _ hd => Option.some.inj hd ▸ hc

theorem skipFrom_skip (comment : Bool) (text : List Char) :
    skip (skipFrom comment text) = skipFrom comment text := by
  induction text generalizing comment with
  | nil => rfl
  | cons c text ih =>
    unfold skipFrom
    split_ifs with hcomment hblank hsemi
    · exact ih _
    · exact ih _
    · exact ih _
    · rw [skip, skipFrom, if_neg (by simp), if_neg hblank, if_neg hsemi]

@[simp] theorem skip_skip (text : List Char) : skip (skip text) = skip text :=
  skipFrom_skip false text

/-- Neither a blank nor the beginning of a comment. -/
def Solid (c : Char) : Prop := isBlank c = false ∧ c ≠ ';'

theorem skip_cons_of_solid {c : Char} {text : List Char} (h : Solid c) :
    skip (c :: text) = c :: text := by
  rw [skip, skipFrom, if_neg (by simp), if_neg (by simp [h.1]), if_neg h.2]

theorem solid_of_isNameChar {c : Char} (h : Reader.isNameChar c = true) : Solid c := by
  constructor
  · by_contra hblank
    simp only [isBlank, Bool.not_eq_false, Bool.or_eq_true, decide_eq_true_eq] at hblank
    rcases hblank with ((rfl | rfl) | rfl) | rfl <;> exact absurd h (by decide)
  · rintro rfl
    exact absurd h (by decide)

theorem isNameChar_of_isDigit {c : Char} (h : c.isDigit = true) : Reader.isNameChar c = true := by
  simp [Reader.isNameChar, Char.isAlphanum, h]

theorem Ends.digits {text : List Char} (h : Ends text) : EndsDigits text := fun c hc => by
  by_contra hdigit
  have := isNameChar_of_isDigit (Bool.not_eq_false _ ▸ hdigit)
  rw [h c hc] at this
  cases this

end Blanks

namespace Reader

variable {α β : Type} {r : Reader α} {k : α → Reader β} {text rest : List Char}

section Skips

@[simp] theorem read_part (p : Part) (text : List Char) :
    (part p r).read text = r.read (skip text) := rfl

/-- Blanks and comments in front make no difference to the reader. -/
def Skips (r : Reader α) : Prop := ∀ text, r.read (skip text) = r.read text

theorem skips_part (p : Part) : Skips (part p r) := fun text => by simp

theorem skips_word (w : String) : Skips (word w) := fun text => by
  change (strip? w.toList (skip (skip text))).map _ = (strip? w.toList (skip text)).map _
  rw [skip_skip]

theorem Skips.bind (hr : Skips r) : Skips (r >>= k) := fun text => by
  rw [read_bind, read_bind, hr]

end Skips

section Runs

theorem read_bind_eq_some_iff {b : β} : (r >>= k).read text = some (b, rest) ↔
    ∃ a mid, r.read text = some (a, mid) ∧ (k a).read mid = some (b, rest) := by
  rw [read_bind, Option.bind_eq_some_iff]
  constructor
  · rintro ⟨⟨a, mid⟩, hread, h⟩
    exact ⟨a, mid, hread, h⟩
  · rintro ⟨a, mid, hread, h⟩
    exact ⟨(a, mid), hread, h⟩

theorem strip?_eq_some_iff {w : List Char} : strip? w text = some rest ↔ text = w ++ rest := by
  constructor
  · intro h
    induction w generalizing text with
    | nil => exact Option.some.inj h
    | cons c w ih =>
      cases text with
      | nil => cases h
      | cons d text =>
        rw [strip?] at h
        split_ifs at h with hcd
        rw [List.cons_append, hcd, ← ih h]
  · rintro rfl
    induction w with
    | nil => rfl
    | cons c w ih => rw [List.cons_append, strip?, if_pos rfl, ih]

theorem read_char_eq_some_iff {c : Char} :
    (char c).read text = some ((), rest) ↔ text = c :: rest := by
  cases text with
  | nil => simp [char, plain]
  | cons d text => by_cases h : d = c <;> simp [char, plain, h]

theorem read_run_eq_some_iff {p : Char → Bool} {s : String} :
    (run p).read text = some (s, rest) ↔ text = s.toList ++ rest ∧ s.toList ≠ [] ∧
      (∀ c ∈ s.toList, p c = true) ∧ ∀ c ∈ rest.head?, p c = false := by
  rw [read_run_eq]
  constructor
  · intro h
    split_ifs at h with hne
    obtain ⟨rfl, rfl⟩ := Prod.mk.inj (Option.some.inj h)
    rw [String.toList_ofList]
    refine ⟨List.takeWhile_append_dropWhile.symm, hne, List.all_eq_true.mp List.all_takeWhile, ?_⟩
    intro c hc
    have hnot := List.head?_dropWhile_not p text
    rw [Option.mem_def.mp hc] at hnot
    simpa using hnot
  · rintro ⟨rfl, hne, hall, hrest⟩
    have hend : rest.takeWhile p = [] ∧ rest.dropWhile p = rest := by
      cases rest with
      | nil => exact ⟨rfl, rfl⟩
      | cons c rest => simp [hrest c rfl]
    rw [List.takeWhile_append_of_pos hall, List.dropWhile_append_of_pos hall, hend.1, hend.2,
      List.append_nil, if_neg hne, String.ofList_toList]

theorem read_name_eq_some_iff {n : String} :
    name.read text = some (n, rest) ↔ text = n.toList ++ rest ∧ IsName n ∧ Ends rest := by
  change (run isNameChar).read text = some (n, rest) ↔ _
  rw [read_run_eq_some_iff, IsName, Ends, and_assoc]

theorem read_marked_eq_some_iff {mark : Char} {n : String} :
    (do char mark; name).read text = some (n, rest) ↔
      text = mark :: n.toList ++ rest ∧ IsName n ∧ Ends rest := by
  rw [read_bind_eq_some_iff]
  constructor
  · rintro ⟨_, text', hmark, h⟩
    obtain ⟨rfl, hn⟩ := read_name_eq_some_iff.mp h
    exact ⟨read_char_eq_some_iff.mp hmark, hn⟩
  · rintro ⟨rfl, hn⟩
    exact ⟨(), n.toList ++ rest, read_char_eq_some_iff.mpr rfl, read_name_eq_some_iff.mpr ⟨rfl, hn⟩⟩

theorem exists_cons_of_isLiteral {digits : String} (h : IsLiteral digits) :
    ∃ c cs, digits.toList = c :: cs ∧ (c = '-' ∨ c.isDigit = true) := by
  obtain ⟨sign, ds, heq, rfl | rfl, hne, hdigits⟩ := h
  · obtain ⟨c, cs, rfl⟩ := List.exists_cons_of_ne_nil hne
    exact ⟨c, cs, heq, .inr (hdigits c List.mem_cons_self)⟩
  · exact ⟨'-', ds, heq, .inl rfl⟩

theorem read_negative_eq_some_iff {digits : String} :
    (do char '-'; return "-" ++ (← run Char.isDigit) : Reader String).read text =
      some (digits, rest) ↔ ∃ ds : String, digits = "-" ++ ds ∧ text = digits.toList ++ rest ∧
        ds.toList ≠ [] ∧ (∀ c ∈ ds.toList, c.isDigit = true) ∧ EndsDigits rest := by
  rw [read_bind_eq_some_iff]
  constructor
  · rintro ⟨_, mid, hmark, h⟩
    obtain ⟨ds, mid', hrun, h⟩ := read_bind_eq_some_iff.mp h
    obtain ⟨rfl, rfl⟩ := Prod.mk.inj (Option.some.inj h)
    obtain ⟨rfl, hds⟩ := read_run_eq_some_iff.mp hrun
    rw [read_char_eq_some_iff.mp hmark, String.toList_append]
    exact ⟨ds, rfl, rfl, hds⟩
  · rintro ⟨ds, rfl, rfl, hds⟩
    rw [String.toList_append]
    refine ⟨(), ds.toList ++ rest, read_char_eq_some_iff.mpr rfl, ?_⟩
    exact read_bind_eq_some_iff.mpr ⟨ds, rest, read_run_eq_some_iff.mpr ⟨rfl, hds⟩, rfl⟩

/-- An integer is read up to where its digits end. -/
theorem read_integer_eq_some_iff {digits : String} : integer.read text = some (digits, rest) ↔
    skip text = digits.toList ++ rest ∧ IsLiteral digits ∧ EndsDigits rest := by
  rw [integer, read_part, read_orElse]
  constructor
  · intro h
    rcases hminus : (do char '-'; return "-" ++ (← run Char.isDigit) : Reader String).read
      (skip text) with _ | ⟨s, mid⟩
    · rw [hminus] at h
      obtain ⟨heq, hne, hall, hends⟩ := read_run_eq_some_iff.mp h
      exact ⟨heq, ⟨[], digits.toList, rfl, .inl rfl, hne, hall⟩, hends⟩
    · rw [hminus] at h
      obtain ⟨rfl, rfl⟩ := Prod.mk.inj (Option.some.inj h)
      obtain ⟨ds, rfl, heq, hne, hall, hends⟩ := read_negative_eq_some_iff.mp hminus
      exact ⟨heq, ⟨['-'], ds.toList, by rw [String.toList_append]; rfl, .inr rfl, hne, hall⟩, hends⟩
  · rintro ⟨hskip, ⟨sign, ds, heq, rfl | rfl, hne, hall⟩, hends⟩
    · have hminus : (do char '-'; return "-" ++ (← run Char.isDigit) : Reader String).read
          (skip text) = none := by
        refine Option.eq_none_iff_forall_ne_some.mpr fun ⟨s, mid⟩ hminus => ?_
        obtain ⟨ds', rfl, heq', -⟩ := read_negative_eq_some_iff.mp hminus
        obtain ⟨c, cs, rfl⟩ := List.exists_cons_of_ne_nil hne
        rw [hskip, heq, String.toList_append] at heq'
        obtain rfl : c = '-' := (List.cons.inj heq').1
        exact absurd (hall '-' List.mem_cons_self) (by decide)
      rw [hminus]
      rw [List.nil_append] at heq
      exact read_run_eq_some_iff.mpr ⟨hskip, heq ▸ hne, heq ▸ hall, hends⟩
    · have hdigits : digits = "-" ++ String.ofList ds := by
        rw [← String.toList_inj, heq]
        simp
      rw [read_negative_eq_some_iff.mpr ⟨String.ofList ds, hdigits, hskip, by simpa using hne,
        by simpa using hall, hends⟩]
      rfl

end Runs

end Reader

end LoopBounds.Listing
