import LoopBounds.Proofs.Listing.Hoisted
import LoopBounds.Proofs.Listing.SpelledProgram

/-!
# Inserting blanks and comments

The text of a program falls into pieces: a token, with the blanks and comments in front of it. A
text that is read as a program has one such spelling only. More blanks and comments in front of a
token change the spelling, but not the tokens and so not the program. A place inside a
comment is different, because a line end there closes the comment: what is left of it must then be
blanks and comments itself.
-/

namespace LoopBounds.Listing

/-- A token as it is written, with the blanks and comments in front of it. -/
structure Piece where
  gap : List Char
  token : Token
  chars : List Char
  deriving DecidableEq, Repr

def Piece.text (p : Piece) : List Char := p.gap ++ p.chars

/-- A text in pieces, and what stands after the last token. -/
structure Spelling where
  pieces : List Piece
  tail : List Char
  deriving DecidableEq, Repr

def Spelling.chars (s : Spelling) : List Char := s.pieces.flatMap Piece.text ++ s.tail

/-- Every piece is written as it may be in front of what follows. -/
def WellSpelled : List Piece → List Char → Prop
  | [], _ => True
  | p :: ps, tail =>
      Trivia p.gap ∧ p.token.Written p.chars (ps.flatMap Piece.text ++ tail) ∧ WellSpelled ps tail

section Pieces

variable {ps : List Piece} {ts : List Token} {text tail : List Char}

theorem spelled_iff_exists_pieces : Spelled ts text tail ↔
    ∃ ps, ps.map Piece.token = ts ∧ text = ps.flatMap Piece.text ++ tail ∧ WellSpelled ps tail := by
  constructor
  · intro h
    induction h with
    | nil => exact ⟨[], rfl, rfl, trivial⟩
    | @cons t ts u chars mid rest hu ht _ ih =>
      obtain ⟨ps, rfl, rfl, hps⟩ := ih
      exact ⟨⟨u, t, chars⟩ :: ps, rfl, by simp [Piece.text], hu, ht, hps⟩
  · rintro ⟨ps, rfl, rfl, hps⟩
    induction ps with
    | nil => exact .nil
    | cons p ps ih =>
      obtain ⟨hgap, hp, hps⟩ := hps
      have h := Spelled.cons hgap hp (ih hps)
      rwa [← List.append_assoc, ← List.append_assoc] at h

/-- A token is written in one way in front of a given text. -/
theorem Token.Written.eq {t : Token} {chars chars' mid mid' : List Char} (h : t.Written chars mid)
    (h' : t.Written chars' mid') (heq : chars ++ mid = chars' ++ mid') :
    chars = chars' ∧ mid = mid' := by
  have hchars : chars = chars' := by
    cases h with
    | word hw =>
      cases h' with
      | word hw' => exact hw.symm.trans hw'
    | i32 =>
      cases h' with
      | i32 => rfl
      | i1 => simp at heq
    | i1 =>
      cases h' with
      | i32 => simp at heq
      | i1 => rfl
    | value | function | literal | label =>
      cases h'
      rfl
  subst hchars
  exact ⟨rfl, List.append_cancel_left heq⟩

/-- The tokens and the text determine the pieces. -/
theorem WellSpelled.eq {ps ps' : List Piece} {tail tail' : List Char} (h : WellSpelled ps tail)
    (h' : WellSpelled ps' tail') (htokens : ps.map Piece.token = ps'.map Piece.token)
    (htext : ps.flatMap Piece.text ++ tail = ps'.flatMap Piece.text ++ tail') :
    ps = ps' ∧ tail = tail' := by
  induction ps generalizing ps' with
  | nil =>
    obtain rfl := List.map_eq_nil_iff.mp htokens.symm
    exact ⟨rfl, htext⟩
  | cons p ps ih =>
    cases ps' with
    | nil => cases htokens
    | cons p' ps' =>
      obtain ⟨u, t, chars⟩ := p
      obtain ⟨u', t', chars'⟩ := p'
      rw [List.map_cons, List.map_cons, List.cons.injEq] at htokens
      obtain ⟨rfl : t = t', htokens⟩ := htokens
      obtain ⟨hu, ht, h⟩ := h
      obtain ⟨hu', ht', h'⟩ := h'
      simp only [List.flatMap_cons, Piece.text, List.append_assoc] at htext
      have hskip := congrArg skip htext
      rw [hu.skip_append, hu'.skip_append, ht.skip_append, ht'.skip_append] at hskip
      obtain ⟨rfl, hrest⟩ := ht.eq ht' hskip
      obtain ⟨rfl, rfl⟩ := ih h h' htokens hrest
      rw [List.append_cancel_right_eq] at htext
      exact ⟨by rw [htext], rfl⟩

/-- How a token is written depends only on whether what follows continues it. -/
theorem Token.Written.of_head? {t : Token} {chars rest rest' : List Char} (h : t.Written chars rest)
    (hrest : ∀ c ∈ rest'.head?, c ∈ rest.head? ∨ Reader.isNameChar c = false) :
    t.Written chars rest' := by
  have hends (hends : Ends rest) : Ends rest' := fun c hc => (hrest c hc).elim (hends c) id
  cases h with
  | word hw hc => exact .word hw hc
  | i32 => exact .i32
  | i1 => exact .i1
  | value hn hafter => exact .value hn (hends hafter)
  | function hn hafter => exact .function hn (hends hafter)
  | literal hd hafter =>
    refine .literal hd fun c hc => ?_
    rcases hrest c hc with hmem | hname
    · exact hafter c hmem
    · by_contra hdigit
      rw [isNameChar_of_isDigit (Bool.not_eq_false _ ▸ hdigit)] at hname
      cases hname
  | label hn => exact .label hn

theorem Trivia.head?_insert {w : List Char} (hw : Trivia w) (left right : List Char) :
    ∀ c ∈ (left ++ (w ++ right)).head?,
      c ∈ (left ++ right).head? ∨ Reader.isNameChar c = false := by
  intro c hc
  cases left with
  | cons d left => exact .inl hc
  | nil =>
    cases w with
    | nil => exact .inl hc
    | cons d w =>
      obtain rfl := Option.some.inj hc
      exact .inr hw.not_isNameChar

/-- Pieces stay well spelled when blanks and comments are inserted in front of a token. -/
theorem WellSpelled.insert {before after : List Piece} {t : Token} {u v w chars tail : List Char}
    (h : WellSpelled (before ++ ⟨u ++ v, t, chars⟩ :: after) tail) (hw : Trivia w)
    (hplace : Trivia u ∨ (∀ c ∈ w, endsLine c = false) ∨ Trivia v) :
    WellSpelled (before ++ ⟨u ++ (w ++ v), t, chars⟩ :: after) tail := by
  induction before with
  | nil =>
    obtain ⟨hgap, ht, h⟩ := h
    exact ⟨hgap.insert hw hplace, ht, h⟩
  | cons p before ih =>
    obtain ⟨hgap, hp, h⟩ := h
    refine ⟨hgap, hp.of_head? ?_, ih h⟩
    have hhead := hw.head?_insert (before.flatMap Piece.text ++ u)
      (v ++ (chars ++ (after.flatMap Piece.text ++ tail)))
    simpa [Piece.text] using hhead

end Pieces

namespace Spelling

/-- The spelling of a text that is read as a program. -/
structure Of (s : Spelling) (text : String) : Prop where
  chars : s.chars = text.toList
  pieces : WellSpelled s.pieces s.tail
  tokens : ∃ ds, read? text = some ds ∧ s.pieces.map Piece.token = ds.flatMap Definition.tokens
  tail : skip s.tail = []

/-- A place in front of a token: before it stand `left` and then `u`, which is skipped, and after
it `v`, which is skipped, and then `right`, which begins with the token. -/
def Place (s : Spelling) (left u v right : List Char) : Prop :=
  ∃ before p after, s.pieces = before ++ p :: after ∧ left = before.flatMap Piece.text ∧
    p.gap = u ++ v ∧ right = p.chars ++ (after.flatMap Piece.text ++ s.tail)

variable {s s' : Spelling} {text : String} {left u v w right : List Char}

theorem Of.eq (h : s.Of text) (h' : s'.Of text) : s = s' := by
  obtain ⟨ds, hread, htokens⟩ := h.tokens
  obtain ⟨ds', hread', htokens'⟩ := h'.tokens
  obtain rfl := Option.some.inj (hread.symm.trans hread')
  obtain ⟨hpieces, htail⟩ := h.pieces.eq h'.pieces (htokens.trans htokens'.symm)
    (h.chars.trans h'.chars.symm)
  cases s
  cases s'
  exact congrArg₂ Spelling.mk hpieces htail

theorem exists_of_read? {ds : List Definition} (h : read? text = some ds) :
    ∃ s : Spelling, s.Of text := by
  obtain ⟨-, tail, hspelled, htail⟩ := read?_eq_some_iff.mp h
  obtain ⟨ps, htokens, htext, hps⟩ := spelled_iff_exists_pieces.mp hspelled
  exact ⟨⟨ps, tail⟩, htext.symm, hps, ⟨ds, h, htokens⟩, htail⟩

theorem Of.toList_eq (h : s.Of text) (hplace : s.Place left u v right) :
    text.toList = left ++ (u ++ (v ++ right)) := by
  obtain ⟨before, p, after, hpieces, rfl, hgap, rfl⟩ := hplace
  rw [← h.chars, Spelling.chars, hpieces]
  simp [Piece.text, hgap]

theorem Of.read?_insert (h : s.Of text) (hplace : s.Place left u v right) (hw : Trivia w)
    (hcomment : Trivia u ∨ (∀ c ∈ w, endsLine c = false) ∨ Trivia v) :
    read? (String.ofList (left ++ (u ++ (w ++ (v ++ right))))) = read? text := by
  obtain ⟨before, ⟨gap, t, chars⟩, after, hpieces, rfl, rfl, rfl⟩ := hplace
  obtain ⟨ds, hread, htokens⟩ := h.tokens
  rw [hread, read?_eq_some_iff]
  refine ⟨wellFormed_of_read? hread, s.tail, spelled_iff_exists_pieces.mpr ?_, h.tail⟩
  refine ⟨before ++ ⟨u ++ (w ++ v), t, chars⟩ :: after, ?_, ?_, ?_⟩
  · rw [← htokens, hpieces]
    simp
  · simp [Piece.text]
  · exact (hpieces ▸ h.pieces).insert hw hcomment

end Spelling

end LoopBounds.Listing

namespace LoopBounds

open Listing

/-- A parsed text has one spelling. Blanks and comments may be inserted in front of any of its
tokens, and the functions stay the same. Inside a comment what is inserted must not have a line
end, unless only blanks and comments stand between the place and the token. -/
theorem Func.parse_insert {text : String} {fs : List Func} (h : parse text = .ok fs) :
    ∃ s : Spelling, (∀ s' : Spelling, s'.Of text ↔ s' = s) ∧
      ∀ left u v right w, s.Place left u v right →
        text.toList = left ++ (u ++ (v ++ right)) ∧
        (Trivia w → (Trivia u ∨ (∀ c ∈ w, endsLine c = false) ∨ Trivia v) →
          parse (String.ofList (left ++ (u ++ (w ++ (v ++ right))))) = .ok fs) := by
  obtain ⟨ds, hread, hresolve⟩ := parse_eq_ok_iff.mp h
  obtain ⟨s, hs⟩ := Spelling.exists_of_read? hread
  refine ⟨s, fun s' => ⟨fun hs' => hs'.eq hs, fun heq => heq ▸ hs⟩, ?_⟩
  intro left u v right w hplace
  refine ⟨hs.toList_eq hplace, fun hw hcomment => ?_⟩
  exact parse_eq_ok_iff.mpr ⟨ds, (hs.read?_insert hplace hw hcomment).trans hread, hresolve⟩

/-- A function with a comment in front of its only line. -/
def notedText : String := "define void @f()\x7be: ;x\nret void\x7d"

theorem notedText_parse : ∃ f, Func.parse notedText = .ok [f] := by
  obtain ⟨f, hparse, -⟩ := Func.exists_parsed (rfl : notedText = _) (P := fun _ => True)
    (by decide +kernel)
  exact ⟨f, hparse⟩

def notedSpelling : Spelling where
  pieces := [
    ⟨[], .word "define", "define".toList⟩,
    ⟨[' '], .word "void", "void".toList⟩,
    ⟨[' '], .function "f", "@f".toList⟩,
    ⟨[], .word "(", "(".toList⟩,
    ⟨[], .word ")", ")".toList⟩,
    ⟨[], .word "\x7b", "\x7b".toList⟩,
    ⟨[], .label "e", "e:".toList⟩,
    ⟨" ;x\n".toList, .word "ret", "ret".toList⟩,
    ⟨[' '], .word "void", "void".toList⟩,
    ⟨[], .word "\x7d", "\x7d".toList⟩]
  tail := []

theorem notedSpelling_of : notedSpelling.Of notedText where
  chars := rfl
  pieces := by
    have hblank : Trivia [' '] := .blank rfl .nil
    have hcomment : Trivia " ;x\n".toList :=
      .blank rfl (.comment (s := ['x']) (List.forall_mem_singleton.mpr rfl) rfl .nil)
    have hname : IsName "f" := ⟨by decide, List.forall_mem_singleton.mpr rfl⟩
    have hlabel : IsName "e" := ⟨by decide, List.forall_mem_singleton.mpr rfl⟩
    exact ⟨.nil, .word rfl ⟨by decide, by decide⟩,
      hblank, .word rfl ⟨by decide, by decide⟩,
      hblank, .function hname (ends_cons (by decide)),
      .nil, .word rfl ⟨by decide, by decide⟩,
      .nil, .word rfl ⟨by decide, by decide⟩,
      .nil, .word rfl ⟨by decide, by decide⟩,
      .nil, .label hlabel,
      hcomment, .word rfl ⟨by decide, by decide⟩,
      hblank, .word rfl ⟨by decide, by decide⟩,
      .nil, .word rfl ⟨by decide, by decide⟩, trivial⟩
  tokens := ⟨[⟨.void, "f", [], [⟨"e", [.ret none]⟩]⟩], by decide +kernel, rfl⟩
  tail := rfl

/-- Before the line of `notedText` stands a blank and then the comment. -/
theorem notedSpelling_place {u v : List Char} (h : u ++ v = " ;x\n".toList) :
    notedSpelling.Place "define void @f()\x7be:".toList u v "ret void\x7d".toList :=
  ⟨notedSpelling.pieces.take 7, ⟨" ;x\n".toList, .word "ret", "ret".toList⟩,
    notedSpelling.pieces.drop 8, rfl, rfl, h.symm, rfl⟩

/-- Another comment may stand in front of the comment. -/
theorem noted_insert : ∃ fs, Func.parse notedText = .ok fs ∧
    Func.parse "define void @f()\x7be: ;y\r\n\t;x\nret void\x7d" = .ok fs := by
  obtain ⟨f, hparse⟩ := notedText_parse
  obtain ⟨s, hunique, hinsert⟩ := Func.parse_insert hparse
  obtain rfl := (hunique notedSpelling).mp notedSpelling_of
  have hinserted : Trivia ";y\r\n\t".toList :=
    .comment (s := ['y']) (List.forall_mem_singleton.mpr rfl) rfl (.blank rfl (.blank rfl .nil))
  obtain ⟨-, h⟩ := hinsert _ [' '] ";x\n".toList _ ";y\r\n\t".toList
    (notedSpelling_place rfl)
  exact ⟨[f], hparse, h hinserted (.inl (.blank rfl .nil))⟩

/-- A line end within the comment makes a word of what is left of it, and the text is no program. -/
theorem noted_comment_split : ∃ f left u v right, Func.parse notedText = .ok [f] ∧
    notedSpelling.Of notedText ∧ notedSpelling.Place left u v right ∧ Trivia ['\n'] ∧
      (Func.parse (String.ofList (left ++ (u ++ (['\n'] ++ (v ++ right)))))).toOption = none := by
  obtain ⟨f, hparse⟩ := notedText_parse
  refine ⟨f, _, [' ', ';'], ['x', '\n'], _, hparse, notedSpelling_of,
    notedSpelling_place rfl, .blank rfl .nil, by decide +kernel⟩

end LoopBounds
