import LoopBounds.Proofs.Listing.Reading

/-!
# Tokens and what stands between them

A program text is a sequence of tokens with blanks and comments in front of them. A token is
judged together with the text that follows it, because a name or an integer goes on as long as it
can. Types are not kept by a listing, so a type is one token with two written forms.

The tokens of a listing are fixed by the listing.
-/

namespace LoopBounds.Listing

section Trivia

/-- Blanks, and comments that are closed by the end of their line. -/
inductive Trivia : List Char → Prop
  | nil : Trivia []
  | blank {c : Char} {u : List Char} : isBlank c = true → Trivia u → Trivia (c :: u)
  | comment {s : List Char} {c : Char} {u : List Char} : (∀ d ∈ s, endsLine d = false) →
      endsLine c = true → Trivia u → Trivia (';' :: (s ++ c :: u))

/-- Whether a comment is open after a text of blanks and comments; `comment` tells whether one is
open before it. There is no answer if the text has anything else. -/
def openAfter? (comment : Bool) : List Char → Option Bool
  | [] => some comment
  | c :: u =>
      if comment then openAfter? (!endsLine c) u
      else if isBlank c then openAfter? false u
      else if c = ';' then openAfter? true u
      else none

variable {u v w text : List Char} {c : Char} {comment after : Bool}

theorem openAfter?_append (comment : Bool) (u v : List Char) :
    openAfter? comment (u ++ v) = (openAfter? comment u).bind (openAfter? · v) := by
  induction u generalizing comment with
  | nil => rfl
  | cons c u ih =>
    rw [List.cons_append, openAfter?, openAfter?]
    split_ifs
    · exact ih _
    · exact ih _
    · exact ih _
    · rfl

theorem openAfter?_of_not_endsLine (h : ∀ c ∈ u, endsLine c = false) :
    openAfter? true u = some true := by
  induction u with
  | nil => rfl
  | cons c u ih =>
    rw [openAfter?, if_pos rfl, h c List.mem_cons_self]
    exact ih fun d hd => h d (List.mem_cons_of_mem _ hd)

theorem openAfter?_comment (h : ∀ c ∈ u, endsLine c = false) (hc : endsLine c = true) :
    openAfter? true (u ++ c :: v) = openAfter? false v := by
  rw [openAfter?_append, openAfter?_of_not_endsLine h, Option.bind_some, openAfter?, if_pos rfl, hc]
  rfl

theorem Trivia.openAfter? (h : Trivia u) : openAfter? false u = some false := by
  induction h with
  | nil => rfl
  | blank hc _ ih => rw [Listing.openAfter?, if_neg Bool.false_ne_true, if_pos hc, ih]
  | comment hs hc _ ih =>
    rw [Listing.openAfter?, if_neg Bool.false_ne_true, if_neg (by decide), if_pos rfl,
      openAfter?_comment hs hc, ih]

theorem Trivia.comment_cons (h : Trivia (';' :: u)) (hc : endsLine c = false) :
    Trivia (';' :: c :: u) := by
  cases h with
  | blank hblank => exact absurd hblank (by decide)
  | comment hs hd hu => exact .comment (List.forall_mem_cons.mpr ⟨hc, hs⟩) hd hu

theorem trivia_of_openAfter? (u : List Char) :
    (Listing.openAfter? false u = some false → Trivia u) ∧
      (Listing.openAfter? true u = some false → Trivia (';' :: u)) := by
  induction u with
  | nil => exact ⟨fun _ => .nil, fun h => by cases h⟩
  | cons c u ih =>
    constructor
    · intro h
      rw [Listing.openAfter?, if_neg Bool.false_ne_true] at h
      split_ifs at h with hblank hsemi
      · exact .blank hblank (ih.1 h)
      · exact hsemi ▸ ih.2 h
    · intro h
      rw [Listing.openAfter?, if_pos rfl] at h
      cases hc : endsLine c with
      | true =>
        rw [hc] at h
        exact .comment (s := []) (by simp) hc (ih.1 h)
      | false =>
        rw [hc] at h
        exact (ih.2 h).comment_cons hc

theorem trivia_iff : Trivia u ↔ Listing.openAfter? false u = some false :=
  ⟨Trivia.openAfter?, (trivia_of_openAfter? u).1⟩

theorem skipFrom_append (h : Listing.openAfter? comment u = some after) (text : List Char) :
    skipFrom comment (u ++ text) = skipFrom after text := by
  induction u generalizing comment with
  | nil => rw [List.nil_append, Option.some.inj h]
  | cons c u ih =>
    rw [Listing.openAfter?] at h
    rw [List.cons_append, skipFrom]
    split_ifs at h ⊢
    · exact ih h
    · exact ih h
    · exact ih h

theorem Trivia.skip_append (h : Trivia u) (text : List Char) : skip (u ++ text) = skip text :=
  skipFrom_append h.openAfter? text

theorem exists_trivia (h : skip text ≠ []) : ∃ u, Trivia u ∧ text = u ++ skip text := by
  suffices hskip : ∀ comment, skipFrom comment text ≠ [] →
      ∃ u, Listing.openAfter? comment u = some false ∧ text = u ++ skipFrom comment text by
    obtain ⟨u, hu, heq⟩ := hskip false h
    exact ⟨u, trivia_iff.mpr hu, heq⟩
  clear h
  induction text with
  | nil => exact fun comment h => absurd rfl h
  | cons c text ih =>
    intro comment h
    rw [skipFrom] at h ⊢
    split_ifs at h ⊢ with hcomment hblank hsemi
    · obtain ⟨u, hu, heq⟩ := ih _ h
      exact ⟨c :: u, by rwa [Listing.openAfter?, if_pos hcomment],
        by rw [List.cons_append, ← heq]⟩
    · obtain ⟨u, hu, heq⟩ := ih _ h
      exact ⟨c :: u, by rwa [Listing.openAfter?, if_neg hcomment, if_pos hblank],
        by rw [List.cons_append, ← heq]⟩
    · obtain ⟨u, hu, heq⟩ := ih _ h
      exact ⟨c :: u, by rwa [Listing.openAfter?, if_neg hcomment, if_neg hblank, if_pos hsemi],
        by rw [List.cons_append, ← heq]⟩
    · exact ⟨[], by simpa [Listing.openAfter?] using hcomment, rfl⟩

/-- Inside a comment, blanks and comments belong to it up to the end of the first line. -/
theorem Trivia.openAfter?_true (h : Trivia w) :
    Listing.openAfter? true w = some true ∨ Listing.openAfter? true w = some false := by
  induction h with
  | nil => exact .inl rfl
  | @blank c u hc hu ih =>
    rw [Listing.openAfter?, if_pos rfl]
    cases endsLine c with
    | true => exact .inr hu.openAfter?
    | false => exact ih
  | @comment s c u hs hc hu ih =>
    right
    have hs' : ∀ d ∈ ';' :: s, endsLine d = false := List.forall_mem_cons.mpr ⟨rfl, hs⟩
    have heq := openAfter?_comment (v := u) hs' hc
    rw [List.cons_append] at heq
    rw [heq, hu.openAfter?]

/-- Blanks and comments may be inserted between blanks and comments; within a comment only without
a line end, or if what is left of the comment is itself blank or comments. -/
theorem Trivia.insert (huv : Trivia (u ++ v)) (hw : Trivia w)
    (h : Trivia u ∨ (∀ c ∈ w, endsLine c = false) ∨ Trivia v) : Trivia (u ++ (w ++ v)) := by
  have hclosed := huv.openAfter?
  rw [openAfter?_append] at hclosed
  obtain ⟨after, hu, hv⟩ := Option.bind_eq_some_iff.mp hclosed
  rw [trivia_iff, openAfter?_append, hu, Option.bind_some, openAfter?_append]
  cases after with
  | false => rw [hw.openAfter?, Option.bind_some, hv]
  | true =>
    rcases h with h | h | h
    · rw [h.openAfter?] at hu
      cases hu
    · rw [openAfter?_of_not_endsLine h, Option.bind_some, hv]
    · rcases hw.openAfter?_true with hopen | hclosed
      · rw [hopen, Option.bind_some, hv]
      · rw [hclosed, Option.bind_some, h.openAfter?]

theorem Trivia.not_isNameChar (h : Trivia (c :: u)) : Reader.isNameChar c = false := by
  by_contra hname
  obtain ⟨hblank, hsemi⟩ := solid_of_isNameChar (Bool.not_eq_false _ ▸ hname)
  cases h with
  | blank hc =>
    rw [hc] at hblank
    cases hblank
  | comment => exact hsemi rfl

end Trivia

section Tokens

/-- A token, as far as a listing keeps it. -/
inductive Token where
  | word (w : String)
  | type
  | value (name : String)
  | function (name : String)
  | literal (digits : String)
  | label (name : String)
  deriving DecidableEq, Repr

namespace Token

/-- The token may be written as `chars` in front of `rest`. -/
inductive Written : Token → List Char → List Char → Prop
  | word {w : String} {c : Char} {cs rest : List Char} :
      w.toList = c :: cs → Solid c → Written (.word w) (c :: cs) rest
  | i32 {rest : List Char} : Written .type "i32".toList rest
  | i1 {rest : List Char} : Written .type "i1".toList rest
  | value {n : String} {rest : List Char} :
      IsName n → Ends rest → Written (.value n) ('%' :: n.toList) rest
  | function {n : String} {rest : List Char} :
      IsName n → Ends rest → Written (.function n) ('@' :: n.toList) rest
  | literal {digits : String} {rest : List Char} :
      IsLiteral digits → EndsDigits rest → Written (.literal digits) digits.toList rest
  | label {n : String} {rest : List Char} :
      IsName n → Written (.label n) (n.toList ++ [':']) rest

/-- The names and literals of the token can be written down. -/
def WellFormed : Token → Prop
  | .value n | .function n | .label n => IsName n
  | .literal digits => IsLiteral digits
  | .word _ | .type => True

/-- A written form of the token may begin with the character. -/
def Starts : Token → Char → Prop
  | .word w, c => w.toList.head? = some c
  | .type, c => c = 'i'
  | .value _, c => c = '%'
  | .function _, c => c = '@'
  | .literal _, c => c = '-' ∨ c.isDigit = true
  | .label _, c => Reader.isNameChar c = true

instance : ∀ (t : Token) (c : Char), Decidable (t.Starts c)
  | .word w, c => inferInstanceAs (Decidable (w.toList.head? = some c))
  | .type, c => inferInstanceAs (Decidable (c = 'i'))
  | .value _, c => inferInstanceAs (Decidable (c = '%'))
  | .function _, c => inferInstanceAs (Decidable (c = '@'))
  | .literal _, c => inferInstanceAs (Decidable (c = '-' ∨ c.isDigit = true))
  | .label _, c => inferInstanceAs (Decidable (Reader.isNameChar c = true))

variable {t : Token} {chars rest : List Char}

theorem Written.exists_cons (h : t.Written chars rest) :
    ∃ c cs, chars = c :: cs ∧ Solid c ∧ t.Starts c := by
  cases h with
  | word hw hc => exact ⟨_, _, rfl, hc, by rw [Starts, hw]; rfl⟩
  | i32 | i1 => exact ⟨_, _, rfl, ⟨by decide, by decide⟩, rfl⟩
  | value | function => exact ⟨_, _, rfl, ⟨by decide, by decide⟩, rfl⟩
  | literal hdigits =>
    obtain ⟨c, cs, heq, hc⟩ := Reader.exists_cons_of_isLiteral hdigits
    refine ⟨c, cs, heq, ?_, hc⟩
    rcases hc with rfl | hc
    · exact ⟨by decide, by decide⟩
    · exact solid_of_isNameChar (isNameChar_of_isDigit hc)
  | label hn =>
    obtain ⟨c, cs, hcs⟩ := List.exists_cons_of_ne_nil hn.1
    have hc := hn.2 c (hcs ▸ List.mem_cons_self)
    exact ⟨c, cs ++ [':'], by rw [hcs]; rfl, solid_of_isNameChar hc, hc⟩

theorem Written.wellFormed (h : t.Written chars rest) : t.WellFormed := by
  cases h with
  | word | i32 | i1 => trivial
  | value h | function h | label h => exact h
  | literal h => exact h

theorem Written.skip_append (h : t.Written chars rest) : skip (chars ++ rest) = chars ++ rest := by
  obtain ⟨c, cs, rfl, hc, -⟩ := h.exists_cons
  exact skip_cons_of_solid hc

theorem Written.ne_nil (h : t.Written chars rest) : chars ≠ [] := by
  obtain ⟨c, cs, rfl, -⟩ := h.exists_cons
  exact List.cons_ne_nil c cs

end Token

/-- The text consists of the tokens, with blanks and comments in front of each, and of `rest`. -/
inductive Spelled : List Token → List Char → List Char → Prop
  | nil {rest : List Char} : Spelled [] rest rest
  | cons {t : Token} {ts : List Token} {u chars mid rest : List Char} :
      Trivia u → t.Written chars mid → Spelled ts mid rest →
        Spelled (t :: ts) (u ++ (chars ++ mid)) rest

namespace Spelled

variable {t t' : Token} {ts us : List Token} {text text' mid rest rest' chars : List Char}

theorem append (h : Spelled ts text mid) (h' : Spelled us mid rest) :
    Spelled (ts ++ us) text rest := by
  induction h with
  | nil => exact h'
  | cons hu ht _ ih => exact .cons hu ht (ih h')

theorem of_append (h : Spelled (ts ++ us) text rest) :
    ∃ mid, Spelled ts text mid ∧ Spelled us mid rest := by
  induction ts generalizing text with
  | nil => exact ⟨text, .nil, h⟩
  | cons t ts ih =>
    cases h with
    | cons hu ht h =>
      obtain ⟨mid, hts, hus⟩ := ih h
      exact ⟨mid, .cons hu ht hts, hus⟩

theorem nil_iff : Spelled [] text rest ↔ text = rest :=
  ⟨fun h => by cases h; rfl, fun h => h ▸ .nil⟩

/-- What is in front of the first token is what is skipped. -/
theorem cons_iff : Spelled (t :: ts) text rest ↔
    ∃ chars mid, skip text = chars ++ mid ∧ t.Written chars mid ∧ Spelled ts mid rest := by
  constructor
  · intro h
    cases h with
    | cons hu ht h => exact ⟨_, _, by rw [hu.skip_append, ht.skip_append], ht, h⟩
  · rintro ⟨chars, mid, hskip, ht, h⟩
    have hne : skip text ≠ [] := by
      rw [hskip]
      exact List.append_ne_nil_of_left_ne_nil ht.ne_nil mid
    obtain ⟨u, hu, heq⟩ := exists_trivia hne
    rw [heq, hskip]
    exact .cons hu ht h

theorem congr_skip (h : Spelled ts text rest) (hne : ts ≠ []) (heq : skip text' = skip text) :
    Spelled ts text' rest := by
  obtain ⟨t, ts, rfl⟩ := List.exists_cons_of_ne_nil hne
  rw [cons_iff, heq]
  exact cons_iff.mp h

theorem starts (h : Spelled (t :: ts) text rest) :
    ∃ c, (skip text).head? = some c ∧ t.Starts c := by
  obtain ⟨chars, mid, hskip, ht, -⟩ := cons_iff.mp h
  obtain ⟨c, cs, rfl, -, hc⟩ := ht.exists_cons
  exact ⟨c, by rw [hskip]; rfl, hc⟩

/-- Two tokens with which the same text begins have a first character in common. -/
theorem exists_starts (h : Spelled (t :: ts) text rest) (h' : Spelled (t' :: us) text rest') :
    ∃ c, t.Starts c ∧ t'.Starts c := by
  obtain ⟨c, hhead, hc⟩ := h.starts
  obtain ⟨c', hhead', hc'⟩ := h'.starts
  rw [hhead, Option.some.injEq] at hhead'
  exact ⟨c, hc, hhead' ▸ hc'⟩

theorem head?_eq_of_words {w w' : String} (h : Spelled (.word w :: ts) text rest)
    (h' : Spelled (.word w' :: us) text rest') : w.toList.head? = w'.toList.head? := by
  obtain ⟨c, hc, hc'⟩ := h.exists_starts h'
  rw [Token.Starts] at hc hc'
  rw [hc, hc']

theorem tail_of_word {w : String} (h : Spelled (.word w :: ts) text rest)
    (h' : Spelled (.word w :: us) text rest') :
    ∃ mid, Spelled ts mid rest ∧ Spelled us mid rest' := by
  obtain ⟨chars, mid, hskip, ht, h⟩ := cons_iff.mp h
  obtain ⟨chars', mid', hskip', ht', h'⟩ := cons_iff.mp h'
  cases ht with
  | word hw =>
    cases ht' with
    | word hw' =>
      rw [← hw, hskip', ← hw', List.append_cancel_left_eq] at hskip
      exact ⟨mid, h, hskip ▸ h'⟩

theorem wellFormed (h : Spelled ts text rest) : ∀ t ∈ ts, t.WellFormed := by
  induction h with
  | nil => exact fun t ht => absurd ht List.not_mem_nil
  | cons _ ht _ ih => exact List.forall_mem_cons.mpr ⟨ht.wellFormed, ih⟩

theorem length_le (h : Spelled ts text rest) : ts.length + rest.length ≤ text.length := by
  induction h with
  | nil => simp
  | @cons t ts u chars mid rest hu ht _ ih =>
    have hpos := List.length_pos_of_ne_nil ht.ne_nil
    simp only [List.length_cons, List.length_append]
    omega

end Spelled

end Tokens

section Listings

def Operand.token : Operand → Token
  | .value n => .value n
  | .literal digits => .literal digits

/-- The tokens of a list with commas between its items. -/
def separated {α : Type} (tokens : α → List Token) : List α → List Token
  | [] => []
  | a :: as => tokens a ++ as.flatMap fun b => .word "," :: tokens b

def sourceTokens (s : Operand × String) : List Token :=
  [.word "[", s.1.token, .word ",", .value s.2, .word "]"]

def paramTokens (p : String) : List Token := [.type, .value p]

@[simp] def Line.tokens : Line → List Token
  | .phi n sources =>
      .value n :: .word "=" :: .word "phi" :: .type :: separated sourceTokens sources
  | .arith n op x y =>
      [.value n, .word "=", .word op.text, .type, x.token, .word ",", y.token]
  | .neg n x => [.value n, .word "=", .word "neg", .type, x.token]
  | .compare n op x y =>
      [.value n, .word "=", .word "icmp", .word op.text, .type, x.token, .word ",", y.token]
  | .jump t => [.word "br", .word "label", .value t]
  | .branch c t e =>
      [.word "br", .type, c.token, .word ",", .word "label", .value t, .word ",", .word "label",
        .value e]
  | .ret none => [.word "ret", .word "void"]
  | .ret (some x) => [.word "ret", .type, x.token]

def Section.tokens (s : Section) : List Token := .label s.label :: s.lines.flatMap Line.tokens

def Definition.tokens (d : Definition) : List Token :=
  .word "define" :: .word d.returns.text :: .function d.name :: .word "("
    :: (separated paramTokens d.params ++ .word ")" :: .word "\x7b"
      :: (d.sections.flatMap Section.tokens ++ [.word "\x7d"]))

end Listings

end LoopBounds.Listing
