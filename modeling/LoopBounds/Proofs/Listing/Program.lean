import LoopBounds.Proofs.Listing.SpelledProgram

/-!
# The text of a listing

The text of a listing spells its tokens. Between them stand blanks and line ends, and a comment
after every label. So a listing that can be written down is what is read from its text.
-/

namespace LoopBounds.Listing

variable {t : Token} {ts us : List Token} {text rest : List Char}

namespace Spelled

variable {w n : String} {c : Char} {cs : List Char} {o : Operand}

theorem trivia {u : List Char} (hu : Trivia u) (hne : ts ≠ []) (h : Spelled ts text rest) :
    Spelled ts (u ++ text) rest :=
  h.congr_skip hne (hu.skip_append text)

theorem blank (h : Spelled (t :: ts) text rest) : Spelled (t :: ts) (' ' :: text) rest :=
  h.congr_skip (List.cons_ne_nil t ts) rfl

theorem word (hw : w.toList = c :: cs) (hc : Solid c) (h : Spelled ts text rest) :
    Spelled (.word w :: ts) (w.toList ++ text) rest := by
  rw [hw]
  exact .cons .nil (.word hw hc) h

theorem comma (h : Spelled (t :: ts) text rest) :
    Spelled (.word "," :: t :: ts) (',' :: ' ' :: text) rest :=
  .word (w := ",") rfl ⟨by decide, by decide⟩ h.blank

theorem i32 (h : Spelled ts text rest) : Spelled (.type :: ts) ("i32".toList ++ text) rest :=
  .cons .nil .i32 h

theorem i1 (h : Spelled ts text rest) : Spelled (.type :: ts) ("i1".toList ++ text) rest :=
  .cons .nil .i1 h

theorem label (h : Spelled ts text rest) (hn : IsName n) :
    Spelled (.label n :: ts) (n.toList ++ [':'] ++ text) rest :=
  .cons .nil (.label hn) h

theorem value (hn : IsName n) (hends : Ends text) (h : Spelled ts text rest) :
    Spelled (.value n :: ts) ('%' :: n.toList ++ text) rest :=
  .cons .nil (.value hn hends) h

theorem function (hn : IsName n) (hends : Ends text) (h : Spelled ts text rest) :
    Spelled (.function n :: ts) ('@' :: n.toList ++ text) rest :=
  .cons .nil (.function hn hends) h

theorem operand (ho : o.WellFormed) (hends : Ends text) (h : Spelled ts text rest) :
    Spelled (o.token :: ts) (o.text.toList ++ text) rest := by
  cases o with
  | value n =>
    rw [Operand.text, String.toList_append]
    exact .value ho hends h
  | literal digits => exact .cons .nil (.literal ho hends.digits) h

end Spelled

section Lists

variable {α : Type} {tokens : α → List Token} {as : List α}

theorem toList_intercalate_cons (x : String) (xs : List String) :
    (", ".intercalate (x :: xs)).toList = x.toList ++ xs.flatMap (", ".toList ++ ·.toList) := by
  rw [String.toList_intercalate]
  induction xs generalizing x with
  | nil => simp
  | cons y xs ih =>
    rw [List.flatMap_cons, List.append_assoc, ← ih y]
    simp [List.intercalate_cons_cons]

theorem toList_join_map (chars : α → String) (as : List α) :
    (String.join (as.map chars)).toList = as.flatMap fun a => (chars a).toList := by
  induction as with
  | nil => rfl
  | cons a as ih => simp [ih]

/-- Pieces one after the other spell their tokens, if each may stand in front of more tokens. -/
theorem spelled_flatMap {chars : α → List Char}
    (hitem : ∀ a ∈ as, ∀ us text, us ≠ [] → Spelled us text rest →
      Spelled (tokens a ++ us) (chars a ++ text) rest)
    (hne : ts ≠ []) (h : Spelled ts text rest) :
    Spelled (as.flatMap tokens ++ ts) (as.flatMap chars ++ text) rest := by
  induction as with
  | nil => exact h
  | cons a as ih =>
    obtain ⟨ha, has⟩ := List.forall_mem_cons.mp hitem
    rw [List.flatMap_cons, List.flatMap_cons, List.append_assoc, List.append_assoc]
    exact ha _ _ (List.append_ne_nil_of_right_ne_nil _ hne) (ih has)

theorem spelled_separated {chars : α → String} (hne : ∀ a, tokens a ≠ [])
    (hitem : ∀ a ∈ as, ∀ us text, Ends text → Spelled us text rest →
      Spelled (tokens a ++ us) ((chars a).toList ++ text) rest)
    (hends : Ends text) (h : Spelled ts text rest) :
    Spelled (separated tokens as ++ ts) ((", ".intercalate (as.map chars)).toList ++ text)
      rest := by
  cases as with
  | nil => exact h
  | cons a as =>
    obtain ⟨ha, has⟩ := List.forall_mem_cons.mp hitem
    clear hitem
    rw [List.map_cons, toList_intercalate_cons, List.append_assoc, separated, List.append_assoc]
    suffices htail : Ends ((as.map chars).flatMap (", ".toList ++ ·.toList) ++ text) ∧
        Spelled ((as.flatMap fun b => .word "," :: tokens b) ++ ts)
          ((as.map chars).flatMap (", ".toList ++ ·.toList) ++ text) rest from
      ha _ _ htail.1 htail.2
    clear ha
    induction as with
    | nil => exact ⟨hends, h⟩
    | cons b bs ih =>
      obtain ⟨hb, hbs⟩ := List.forall_mem_cons.mp has
      obtain ⟨hends', h'⟩ := ih hbs
      refine ⟨ends_cons (by decide), ?_⟩
      obtain ⟨t, us, heq⟩ := List.exists_cons_of_ne_nil (hne b)
      have hitem := hb _ _ hends' h'
      rw [heq, List.cons_append] at hitem
      simpa [heq] using hitem.comma

end Lists

section Lines

theorem spelled_sourceText {s : Operand × String} (hs : s.1.WellFormed ∧ IsName s.2)
    (h : Spelled ts text rest) :
    Spelled (sourceTokens s ++ ts) ((sourceText s).toList ++ text) rest := by
  simp only [sourceText, String.toList_append, List.append_assoc]
  exact .word (w := "[") rfl ⟨by decide, by decide⟩ (.operand hs.1 (ends_cons (by decide))
    (.comma (.value hs.2 (ends_cons (by decide)) (.word (w := "]") rfl ⟨by decide, by decide⟩ h))))

theorem spelled_defines (l : Line) {n : String} (hl : l.defines? = some n) (hn : IsName n)
    (h : Spelled (.word l.keyword :: us) (l.value.toList ++ text) rest) :
    Spelled (.value n :: .word "=" :: .word l.keyword :: us) (l.text.toList ++ text) rest := by
  have htext : l.text.toList ++ text =
      '%' :: n.toList ++ ' ' :: ("=".toList ++ ' ' :: (l.value.toList ++ text)) := by
    simp only [Line.text, hl, String.toList_append, List.append_assoc]
    rfl
  rw [htext]
  exact .value hn (ends_cons (by decide)) (.blank (.word rfl ⟨by decide, by decide⟩ h.blank))

/-- A line spells its tokens in front of what does not continue a name. -/
theorem Line.WellFormed.spelled_text {l : Line} (hl : l.WellFormed) (hends : Ends text)
    (h : Spelled ts text rest) : Spelled (l.tokens ++ ts) (l.text.toList ++ text) rest := by
  have hcomma {s : List Char} : Ends (',' :: s) := ends_cons (by decide)
  have hoperands {x y : Operand} (hx : x.WellFormed) (hy : y.WellFormed) :
      Spelled (.type :: x.token :: .word "," :: y.token :: ts)
        (' ' :: ("i32".toList ++ ' ' :: (x.text.toList ++ ',' :: ' ' :: (y.text.toList ++ text))))
        rest :=
    .blank (.i32 (.blank (.operand hx hcomma (.comma (.operand hy hends h)))))
  cases l with
  | phi n sources =>
    obtain ⟨hn, hne, hsources⟩ := hl
    refine spelled_defines (.phi n sources) rfl hn ?_
    obtain ⟨s, ss, rfl⟩ := List.exists_cons_of_ne_nil hne
    have hlist := spelled_separated (fun _ => List.cons_ne_nil _ _)
      (fun s hs _ _ _ h => spelled_sourceText (hsources s hs) h) hends h
    simp only [Line.value, Line.keyword, Line.rest, String.toList_append, List.append_assoc]
    exact .word rfl ⟨by decide, by decide⟩ (.blank (.i32 (.blank hlist)))
  | arith n op x y =>
    obtain ⟨hn, hx, hy⟩ := hl
    refine spelled_defines (.arith n op x y) rfl hn ?_
    simp only [Line.value, Line.keyword, Line.rest, String.toList_append, List.append_assoc]
    cases op <;> exact .word rfl ⟨by decide, by decide⟩ (hoperands hx hy)
  | neg n x =>
    obtain ⟨hn, hx⟩ := hl
    refine spelled_defines (.neg n x) rfl hn ?_
    simp only [Line.value, Line.keyword, Line.rest, String.toList_append, List.append_assoc]
    exact .word rfl ⟨by decide, by decide⟩ (.blank (.i32 (.blank (.operand hx hends h))))
  | compare n op x y =>
    obtain ⟨hn, hx, hy⟩ := hl
    refine spelled_defines (.compare n op x y) rfl hn ?_
    simp only [Line.value, Line.keyword, Line.rest, String.toList_append, List.append_assoc]
    refine .word rfl ⟨by decide, by decide⟩ (.blank ?_)
    cases op <;> exact .word rfl ⟨by decide, by decide⟩ (hoperands hx hy)
  | jump t =>
    simp only [Line.text, Line.defines?, Line.value, Line.keyword, Line.rest,
      String.toList_append, List.append_assoc]
    exact .word (w := "br") rfl ⟨by decide, by decide⟩ (.blank
      (.word (w := "label") rfl ⟨by decide, by decide⟩ (.blank (.value hl hends h))))
  | branch c t e =>
    obtain ⟨hc, ht, he⟩ := hl
    simp only [Line.text, Line.defines?, Line.value, Line.keyword, Line.rest,
      String.toList_append, List.append_assoc]
    have hlabel {n : String} {us : List Token} {text : List Char} (hn : IsName n)
        (hends : Ends text) (h : Spelled us text rest) : Spelled (.word "label" :: .value n :: us)
          ("label".toList ++ ' ' :: ('%' :: n.toList ++ text)) rest :=
      .word rfl ⟨by decide, by decide⟩ (.blank (.value hn hends h))
    exact .word (w := "br") rfl ⟨by decide, by decide⟩ (.blank (.i1 (.blank
      (.operand hc hcomma (.comma (hlabel ht hcomma (.comma (hlabel he hends h))))))))
  | ret value =>
    cases value with
    | none =>
      exact .word (w := "ret") rfl ⟨by decide, by decide⟩ (.blank
        (.word (w := "void") rfl ⟨by decide, by decide⟩ h))
    | some x =>
      simp only [Line.text, Line.defines?, Line.value, Line.keyword, Line.rest,
        String.toList_append, List.append_assoc]
      exact .word (w := "ret") rfl ⟨by decide, by decide⟩ (.blank
        (.i32 (.blank (.operand (hl x rfl) hends h))))

end Lines

section Blocks

theorem endsLine_of_isDigit {c : Char} (h : c.isDigit = true) : endsLine c = false := by
  by_contra hends
  simp only [endsLine, Bool.not_eq_false, Bool.or_eq_true, decide_eq_true_eq] at hends
  rcases hends with rfl | rfl <;> exact absurd h (by decide)

theorem trivia_commentText (i : ℕ) (preds : List ℕ) :
    Trivia ((commentText i preds).toList ++ ['\n']) := by
  have hnumber {n : ℕ} : ∀ c ∈ (toString n).toList, endsLine c = false :=
    fun c hc => endsLine_of_isDigit (isDigit_of_mem_repr hc)
  have hpreds : ∀ c ∈ (", ".intercalate (preds.map toString)).toList, endsLine c = false := by
    cases preds with
    | nil => exact fun c hc => absurd hc (List.not_mem_nil)
    | cons n preds =>
      rw [List.map_cons, toList_intercalate_cons]
      refine List.forall_mem_append.mpr ⟨hnumber, fun c hc => ?_⟩
      simp only [List.mem_flatMap, List.mem_map, List.mem_append] at hc
      obtain ⟨-, ⟨m, -, rfl⟩, hc | hc⟩ := hc
      · exact (show ∀ c ∈ ", ".toList, endsLine c = false by simp [endsLine]) c hc
      · exact hnumber c hc
  have htext : (commentText i preds).toList ++ ['\n'] = ' ' :: ' ' :: ' ' :: ' ' ::
      (';' :: ((" B".toList ++ ((toString i).toList ++ (" prev: [".toList ++
        ((", ".intercalate (preds.map toString)).toList ++ "]".toList)))) ++ ['\n'])) := by
    simp only [commentText, BlockId.text, String.toList_append, List.append_assoc]
    rfl
  rw [htext]
  refine .blank rfl (.blank rfl (.blank rfl (.blank rfl (.comment ?_ rfl .nil))))
  simp only [List.forall_mem_append]
  exact ⟨by simp [endsLine], hnumber, by simp [endsLine], hpreds, by simp [endsLine]⟩

theorem Section.WellFormed.spelled_text {s : Section} (hs : s.WellFormed) (i : ℕ) (preds : List ℕ)
    (hne : ts ≠ []) (h : Spelled ts text rest) :
    Spelled (s.tokens ++ ts) ((s.text i preds).toList ++ text) rest := by
  have hlines : Spelled (s.lines.flatMap Line.tokens ++ ts)
      ((s.lines.flatMap fun l => (lineText l).toList) ++ text) rest := by
    refine spelled_flatMap (fun l hl us text hus h => ?_) hne h
    have hend : Spelled us ('\n' :: text) rest := h.congr_skip hus rfl
    have hline := (hs.lines l hl).spelled_text (ends_cons (by decide)) hend
    rw [lineText, String.toList_append, String.toList_append, List.append_assoc, List.append_assoc]
    exact hline.congr_skip (List.append_ne_nil_of_right_ne_nil _ hus) rfl
  have htext : (s.text i preds).toList ++ text = s.label.toList ++ [':'] ++
      ((commentText i preds).toList ++ ['\n'] ++
        ((s.lines.flatMap fun l => (lineText l).toList) ++ text)) := by
    simp only [Section.text, String.toList_append, toList_join_map, List.append_assoc]
    rfl
  rw [htext]
  have hcomment := hlines.trivia (trivia_commentText i preds)
    (List.append_ne_nil_of_right_ne_nil _ hne)
  exact hcomment.label hs.label

end Blocks

section Definitions

variable {d : Definition} (hd : d.WellFormed)

include hd

theorem Definition.WellFormed.spelled_params (hends : Ends text) (h : Spelled ts text rest) :
    Spelled (separated paramTokens d.params ++ ts)
      ((", ".intercalate (d.params.map fun p => "i32 %" ++ p)).toList ++ text) rest := by
  refine spelled_separated (fun _ => List.cons_ne_nil _ _) (fun p hp us text hends h => ?_) hends h
  rw [String.toList_append]
  exact .i32 (.blank (.value (hd.params p hp) hends h))

theorem Definition.WellFormed.spelled_sections (hne : ts ≠ []) (h : Spelled ts text rest) :
    Spelled (d.sections.flatMap Section.tokens ++ ts)
      ((d.sections.zipIdx.flatMap fun t => (t.1.text t.2 (d.preds t.1.label)).toList) ++ text)
      rest := by
  have htokens : d.sections.flatMap Section.tokens =
      d.sections.zipIdx.flatMap fun t => t.1.tokens := by
    conv_lhs => rw [← List.zipIdx_map_fst 0 d.sections, List.flatMap_map]
  rw [htokens]
  refine spelled_flatMap (fun t ht _ _ hus h => ?_) hne h
  exact (hd.sections t.1 (List.fst_mem_of_mem_zipIdx ht)).spelled_text t.2 _ hus h

theorem Definition.WellFormed.spelled_text : Spelled d.tokens d.text.toList [] := by
  have hclose : Spelled [.word "\x7d"] "\x7d".toList [] :=
    .word (w := "\x7d") rfl ⟨by decide, by decide⟩ .nil
  have hnewline : Trivia ['\n'] := .blank rfl .nil
  have hbody := (hd.spelled_sections (List.cons_ne_nil _ _) hclose).trivia hnewline
    (List.append_ne_nil_of_right_ne_nil _ (List.cons_ne_nil _ _))
  have hreturns {us : List Token} {text : List Char} (h : Spelled us text []) :
      Spelled (.word d.returns.text :: us) (d.returns.text.toList ++ text) [] := by
    cases d.returns <;> exact .word rfl ⟨by decide, by decide⟩ h
  have htext : d.text.toList = "define".toList ++ ' ' :: (d.returns.text.toList ++
      ' ' :: ('@' :: d.name.toList ++ ("(".toList ++
        ((", ".intercalate (d.params.map fun p => "i32 %" ++ p)).toList ++ (")".toList ++
          ' ' :: ("\x7b".toList ++ (['\n'] ++
            ((d.sections.zipIdx.flatMap fun t => (t.1.text t.2 (d.preds t.1.label)).toList) ++
              "\x7d".toList)))))))) := by
    unfold Definition.text
    simp only [String.toList_append, toList_join_map, List.append_assoc]
    rfl
  rw [htext]
  exact .word rfl ⟨by decide, by decide⟩ (.blank (hreturns (.blank
    (.function hd.name (ends_cons (by decide)) (.word rfl ⟨by decide, by decide⟩
      (hd.spelled_params (ends_cons (by decide)) (.word rfl ⟨by decide, by decide⟩ (.blank
        (.word rfl ⟨by decide, by decide⟩ hbody)))))))))

end Definitions

/-- A listing that can be written down is read again from its text. -/
theorem read?_text {d : Definition} (hd : d.WellFormed) : read? d.text = some [d] := by
  refine read?_eq_some_iff.mpr ⟨by simpa using hd, [], ?_, rfl⟩
  rw [List.flatMap_singleton]
  exact hd.spelled_text

end LoopBounds.Listing
