import LoopBounds.Proofs.Listing.Tokens

/-!
# Reading tokens

Readers are described by the tokens that they read. What a reader reads is spelled by tokens of
what it gives, and every text that is laid out so is read, whatever blanks and comments stand
between the tokens. A choice is decided by the tokens with which a text begins, since no text
begins with tokens of two alternatives, and a repetition ends where no item begins.

So a text is read as a program exactly if it is spelled by the tokens of that program.
-/

namespace LoopBounds.Listing

namespace Reader

variable {α β : Type} {r r' : Reader α} {k : α → Reader β}
variable {E E' : List Char → Prop} {R R' : α → List Token → Prop}
variable {text rest rest' : List Char} {ts us : List Token}

/-- What the reader reads as `a` is spelled by tokens `ts` with `R a ts`. Every such text is read
if what follows is as in `E`. -/
structure Parses (E : List Char → Prop) (R : α → List Token → Prop) (r : Reader α) : Prop where
  spelled : ∀ {text a rest}, r.read text = some (a, rest) → ∃ ts, R a ts ∧ Spelled ts text rest
  reads : ∀ {text a rest ts}, R a ts → Spelled ts text rest → E rest → r.read text = some (a, rest)

/-- What follows makes no difference. -/
def Anything (_ : List Char) : Prop := True

section Combinators

theorem parses_pure (a : α) : Parses E (fun b ts => b = a ∧ ts = []) (pure a) where
  spelled h := by
    rw [read_pure] at h
    obtain ⟨rfl, rfl⟩ := Prod.mk.inj (Option.some.inj h)
    exact ⟨[], ⟨rfl, rfl⟩, .nil⟩
  reads h hspelled _ := by
    obtain ⟨rfl, rfl⟩ := h
    rw [read_pure, Spelled.nil_iff.mp hspelled]

theorem Parses.congr (hr : Parses E R r) (h : ∀ a ts, R a ts ↔ R' a ts) : Parses E R' r where
  spelled hread := by
    obtain ⟨ts, hts, hspelled⟩ := hr.spelled hread
    exact ⟨ts, (h _ _).mp hts, hspelled⟩
  reads hts := hr.reads ((h _ _).mpr hts)

theorem Parses.mono (hr : Parses E R r) (h : ∀ rest, E' rest → E rest) : Parses E' R r where
  spelled := hr.spelled
  reads hts hspelled hrest := hr.reads hts hspelled (h _ hrest)

theorem Parses.bind {R' : α → β → List Token → Prop} (hr : Parses E R r)
    (hk : ∀ a, Parses E' (R' a) (k a))
    (hE : ∀ a b us text rest, R' a b us → Spelled us text rest → E' rest → E text) :
    Parses E' (fun b ts => ∃ a us vs, R a us ∧ R' a b vs ∧ ts = us ++ vs) (r >>= k) where
  spelled h := by
    obtain ⟨a, mid, hread, h⟩ := read_bind_eq_some_iff.mp h
    obtain ⟨us, hus, hspelled⟩ := hr.spelled hread
    obtain ⟨vs, hvs, hspelled'⟩ := (hk a).spelled h
    exact ⟨us ++ vs, ⟨a, us, vs, hus, hvs, rfl⟩, hspelled.append hspelled'⟩
  reads h hspelled hrest := by
    obtain ⟨a, us, vs, hus, hvs, rfl⟩ := h
    obtain ⟨mid, hspelled, hspelled'⟩ := hspelled.of_append
    have hread := hr.reads hus hspelled (hE a _ vs mid _ hvs hspelled' hrest)
    exact read_bind_eq_some_iff.mpr ⟨a, mid, hread, (hk a).reads hvs hspelled' hrest⟩

theorem Parses.next {R' : α → β → List Token → Prop} (hr : Parses Anything R r)
    (hk : ∀ a, Parses E' (R' a) (k a)) :
    Parses E' (fun b ts => ∃ a us vs, R a us ∧ R' a b vs ∧ ts = us ++ vs) (r >>= k) :=
  hr.bind hk fun _ _ _ _ _ _ _ _ => trivial

theorem Parses.map (hr : Parses E R r) (f : α → β) :
    Parses E (fun b ts => ∃ a, b = f a ∧ R a ts) (r >>= fun a => pure (f a)) := by
  refine (hr.bind (fun a => parses_pure (f a)) ?_).congr fun b ts => ?_
  · rintro a b us text rest ⟨-, rfl⟩ hspelled hrest
    rwa [Spelled.nil_iff.mp hspelled]
  · constructor
    · rintro ⟨a, us, vs, hus, ⟨rfl, rfl⟩, rfl⟩
      exact ⟨a, rfl, by rwa [List.append_nil]⟩
    · rintro ⟨a, rfl, hts⟩
      exact ⟨a, ts, [], hts, ⟨rfl, rfl⟩, (List.append_nil ts).symm⟩

/-- A reader reads nothing of a text that begins with other tokens than it reads. -/
theorem Parses.read_eq_none (hr : Parses E R r)
    (h : ∀ a us rest, R a us → Spelled us text rest → False) : r.read text = none := by
  cases hread : r.read text with
  | none => rfl
  | some result =>
    obtain ⟨us, hus, hspelled⟩ := hr.spelled hread
    exact absurd hspelled fun hspelled => h _ us _ hus hspelled

theorem Parses.orElse (hr : Parses E R r) (hr' : Parses E R' r')
    (hapart : ∀ a b us vs text rest rest', R a us → Spelled us text rest → R' b vs →
      Spelled vs text rest' → E rest' → False) :
    Parses E (fun a ts => R a ts ∨ R' a ts) (r <|> r') where
  spelled {text a rest} h := by
    rw [read_orElse] at h
    cases hread : r.read text with
    | none =>
      rw [hread] at h
      obtain ⟨ts, hts, hspelled⟩ := hr'.spelled h
      exact ⟨ts, .inr hts, hspelled⟩
    | some result =>
      rw [hread] at h
      obtain ⟨ts, hts, hspelled⟩ := hr.spelled (hread.trans h)
      exact ⟨ts, .inl hts, hspelled⟩
  reads {text a rest ts} h hspelled hrest := by
    rw [read_orElse]
    rcases h with hts | hts
    · rw [hr.reads hts hspelled hrest]
      rfl
    · have hnone : r.read text = none := hr.read_eq_none fun b us _ hus hspelled' =>
        hapart b a us ts text _ rest hus hspelled' hts hspelled hrest
      rw [hnone, hr'.reads hts hspelled hrest]
      rfl

theorem Parses.part (p : Part) (hr : Parses E R r) (hskips : Skips r) : Parses E R (part p r) where
  spelled h := hr.spelled (by rwa [read_part, hskips] at h)
  reads hts hspelled hrest := by rw [read_part, hskips, hr.reads hts hspelled hrest]

end Combinators

section Tokens

theorem parses_token (token : α → Token)
    (hspelled : ∀ text a rest, r.read text = some (a, rest) →
      ∃ chars, skip text = chars ++ rest ∧ (token a).Written chars rest)
    (hreads : ∀ text a chars rest, skip text = chars ++ rest → (token a).Written chars rest →
      r.read text = some (a, rest)) :
    Parses Anything (fun a ts => ts = [token a]) r where
  spelled h := by
    obtain ⟨chars, hskip, hwritten⟩ := hspelled _ _ _ h
    exact ⟨_, rfl, Spelled.cons_iff.mpr ⟨chars, _, hskip, hwritten, .nil⟩⟩
  reads hts h _ := by
    subst hts
    obtain ⟨chars, mid, hskip, hwritten, h⟩ := Spelled.cons_iff.mp h
    obtain rfl := Spelled.nil_iff.mp h
    exact hreads _ _ chars _ hskip hwritten

theorem parses_word {w : String} {c : Char} {cs : List Char} (hw : w.toList = c :: cs)
    (hc : Solid c) : Parses Anything (fun _ ts => ts = [.word w]) (word w) := by
  apply parses_token fun _ => .word w
  · intro text a rest h
    obtain ⟨rest', hstrip, hpair⟩ := Option.map_eq_some_iff.mp h
    obtain ⟨-, rfl⟩ := Prod.mk.inj hpair
    rw [hw] at hstrip
    exact ⟨c :: cs, strip?_eq_some_iff.mp hstrip, .word hw hc⟩
  · intro text a chars rest hskip hwritten
    cases hwritten with
    | word hw' =>
      change (strip? w.toList (skip text)).map ((), ·) = _
      rw [strip?_eq_some_iff.mpr (hskip.trans (by rw [hw']))]
      rfl

theorem parses_localName : Parses Anything (fun n ts => ts = [.value n]) localName := by
  apply parses_token .value
  · intro text n rest h
    obtain ⟨heq, hn, hends⟩ := read_marked_eq_some_iff.mp h
    exact ⟨_, heq, .value hn hends⟩
  · intro text n chars rest hskip hwritten
    cases hwritten with
    | value hn hends => exact read_marked_eq_some_iff.mpr ⟨hskip, hn, hends⟩

theorem tail_of_value {n n' : String} (h : Spelled (.value n :: ts) text rest)
    (h' : Spelled (.value n' :: us) text rest') :
    ∃ mid, Spelled ts mid rest ∧ Spelled us mid rest' := by
  obtain ⟨mid, hn, h⟩ := (show Spelled ([.value n] ++ ts) text rest from h).of_append
  obtain ⟨mid', hn', h'⟩ := (show Spelled ([.value n'] ++ us) text rest' from h').of_append
  have hread := parses_localName.reads rfl hn trivial
  rw [parses_localName.reads rfl hn' trivial] at hread
  obtain ⟨-, rfl⟩ := Prod.mk.inj (Option.some.inj hread)
  exact ⟨mid', h, h'⟩

theorem parses_globalName : Parses Anything (fun n ts => ts = [.function n]) globalName := by
  apply parses_token .function
  · intro text n rest h
    obtain ⟨heq, hn, hends⟩ := read_marked_eq_some_iff.mp h
    exact ⟨_, heq, .function hn hends⟩
  · intro text n chars rest hskip hwritten
    cases hwritten with
    | function hn hends => exact read_marked_eq_some_iff.mpr ⟨hskip, hn, hends⟩

theorem parses_label : Parses Anything (fun n ts => ts = [.label n]) label := by
  have hlabel {text rest : List Char} {n : String} : label.read text = some (n, rest) ↔
      skip text = n.toList ++ ':' :: rest ∧ IsName n := by
    rw [label, read_part, read_bind_eq_some_iff]
    constructor
    · rintro ⟨l, mid, hname, h⟩
      obtain ⟨_, mid', hcolon, h⟩ := read_bind_eq_some_iff.mp h
      obtain ⟨rfl, rfl⟩ := Prod.mk.inj (Option.some.inj h)
      obtain ⟨heq, hn, -⟩ := read_name_eq_some_iff.mp hname
      rw [heq, read_char_eq_some_iff.mp hcolon]
      exact ⟨rfl, hn⟩
    · rintro ⟨hskip, hn⟩
      refine ⟨n, ':' :: rest, read_name_eq_some_iff.mpr ⟨hskip, hn, ends_cons (by decide)⟩, ?_⟩
      exact read_bind_eq_some_iff.mpr ⟨(), rest, read_char_eq_some_iff.mpr rfl, rfl⟩
  apply parses_token .label
  · intro text n rest h
    obtain ⟨hskip, hn⟩ := hlabel.mp h
    exact ⟨_, hskip.trans (List.append_cons _ _ _), .label hn⟩
  · intro text n chars rest hskip hwritten
    cases hwritten with
    | label hn => exact hlabel.mpr ⟨hskip.trans (List.append_cons _ _ _).symm, hn⟩

theorem parses_integer : Parses Anything (fun d ts => ts = [.literal d]) integer := by
  apply parses_token .literal
  · intro text d rest h
    obtain ⟨hskip, hd, hends⟩ := read_integer_eq_some_iff.mp h
    exact ⟨_, hskip, .literal hd hends⟩
  · intro text d chars rest hskip hwritten
    cases hwritten with
    | literal hd hends => exact read_integer_eq_some_iff.mpr ⟨hskip, hd, hends⟩

theorem parses_operandType : Parses Anything (fun _ ts => ts = [.type]) operandType := by
  apply parses_token fun _ => .type
  · intro text a rest h
    obtain ⟨w, hw, h⟩ := List.exists_of_findSome?_eq_some h
    obtain ⟨rest', hstrip, hpair⟩ := Option.map_eq_some_iff.mp h
    obtain ⟨-, rfl⟩ := Prod.mk.inj hpair
    rw [skip_skip] at hstrip
    simp only [List.mem_cons, List.not_mem_nil, or_false] at hw
    rcases hw with rfl | rfl
    · exact ⟨_, strip?_eq_some_iff.mp hstrip, .i32⟩
    · exact ⟨_, strip?_eq_some_iff.mp hstrip, .i1⟩
  · intro text a chars rest hskip hwritten
    rw [operandType, read_part]
    cases hwritten with
    | i32 | i1 =>
      rw [hskip]
      rfl

theorem parses_oneOf {p : Part} {words : List (String × α)} (text : α → String) {P : α → Prop}
    (hmem : ∀ w ∈ words, P w.2 ∧ w.1 = text w.2)
    (hsolid : ∀ a, P a → ∃ c cs, (text a).toList = c :: cs ∧ Solid c)
    (hread : ∀ a rest, P a → (oneOf words).read ((text a).toList ++ rest) = some (a, rest)) :
    Parses Anything (fun a ts => P a ∧ ts = [.word (text a)]) (part p (oneOf words)) where
  spelled {input a rest} h := by
    obtain ⟨w, hw, h⟩ := List.exists_of_findSome?_eq_some h
    obtain ⟨rest', hstrip, hpair⟩ := Option.map_eq_some_iff.mp h
    obtain ⟨rfl, rfl⟩ := Prod.mk.inj hpair
    obtain ⟨hP, htext⟩ := hmem w hw
    obtain ⟨c, cs, hcs, hc⟩ := hsolid w.2 hP
    rw [skip_skip, strip?_eq_some_iff, htext, hcs] at hstrip
    exact ⟨_, ⟨hP, rfl⟩, Spelled.cons_iff.mpr ⟨_, _, hstrip, .word hcs hc, .nil⟩⟩
  reads := by
    rintro input a rest ts ⟨hP, rfl⟩ h -
    obtain ⟨chars, mid, hskip, hwritten, h⟩ := Spelled.cons_iff.mp h
    obtain rfl := Spelled.nil_iff.mp h
    cases hwritten with
    | word hcs => rw [read_part, hskip, ← hcs, hread a mid hP]

theorem parses_arithOp : Parses Anything (fun op ts => ts = [.word op.text]) arithOp := by
  refine (parses_oneOf ArithOp.text (P := fun _ => True) ?_ ?_ ?_).congr (by simp)
  · intro w hw
    obtain ⟨op, -, rfl⟩ := List.mem_map.mp hw
    exact ⟨trivial, rfl⟩
  · intro op _
    cases op <;> exact ⟨_, _, rfl, by decide, by decide⟩
  · intro op rest _
    cases op <;> rfl

theorem parses_comparison : Parses Anything (fun op ts => ts = [.word op.text]) comparison := by
  refine (parses_oneOf Comparison.text (P := fun _ => True) ?_ ?_ ?_).congr (by simp)
  · intro w hw
    obtain ⟨op, -, rfl⟩ := List.mem_map.mp hw
    exact ⟨trivial, rfl⟩
  · intro op _
    cases op <;> exact ⟨_, _, rfl, by decide, by decide⟩
  · intro op rest _
    cases op <;> rfl

theorem parses_resultType :
    Parses Anything (fun t ts => t ≠ .i1 ∧ ts = [.word t.text]) resultType := by
  refine parses_oneOf ResultType.text ?_ ?_ ?_
  · simp [ResultType.text]
  · intro t _
    cases t <;> exact ⟨_, _, rfl, by decide, by decide⟩
  · intro t rest ht
    cases t with
    | i1 => exact absurd rfl ht
    | i32 | void => rfl

theorem parses_operand : Parses Anything (fun o ts => ts = [o.token]) operand := by
  refine ((parses_localName.map Operand.value).orElse (parses_integer.map Operand.literal) ?_).congr
    fun o ts => ?_
  · rintro a b us vs text rest rest' ⟨n, -, rfl⟩ hvalue ⟨d, -, rfl⟩ hliteral -
    obtain ⟨c, rfl, hc⟩ := hvalue.exists_starts hliteral
    rcases hc with hc | hc <;> exact absurd hc (by decide)
  · cases o with
    | value n => simp [Operand.token]
    | literal d => simp [Operand.token]

end Tokens

section Repetition

variable {P : α → Prop} {tokens : α → List Token} {as : List α}

theorem length_le_flatMap (hne : ∀ a, P a → tokens a ≠ []) (has : ∀ a ∈ as, P a) :
    as.length ≤ (as.flatMap tokens).length := by
  induction as with
  | nil => exact Nat.zero_le _
  | cons a as ih =>
    obtain ⟨ha, has⟩ := List.forall_mem_cons.mp has
    have hpos := List.length_pos_of_ne_nil (hne a ha)
    have hrest := ih has
    simp only [List.flatMap_cons, List.length_append, List.length_cons]
    omega

section Items

variable (hr : Parses E (fun a ts => P a ∧ ts = tokens a) r)

include hr

theorem spelled_manyUpTo (fuel : ℕ) (text : List Char) :
    (∀ a ∈ (manyUpTo r fuel text).1, P a) ∧
      Spelled ((manyUpTo r fuel text).1.flatMap tokens) text (manyUpTo r fuel text).2 := by
  induction fuel generalizing text with
  | zero => exact ⟨by simp [manyUpTo], .nil⟩
  | succ fuel ih =>
    unfold manyUpTo
    split
    · exact ⟨by simp, .nil⟩
    · rename_i a mid hread
      obtain ⟨ts, ⟨ha, rfl⟩, hspelled⟩ := hr.spelled hread
      obtain ⟨has, hspelled'⟩ := ih mid
      exact ⟨List.forall_mem_cons.mpr ⟨ha, has⟩, hspelled.append hspelled'⟩

variable (hE : ∀ a ts text rest, P a → Spelled (tokens a ++ ts) text rest → E text)

include hE

/-- Enough fuel reads all items, up to a text that none begins with. -/
theorem manyUpTo_of_spelled {fuel : ℕ} (hfuel : as.length ≤ fuel) (has : ∀ a ∈ as, P a)
    (hspelled : Spelled (as.flatMap tokens) text rest) (hrest : E rest)
    (hstop : r.read rest = none) : manyUpTo r fuel text = (as, rest) := by
  induction as generalizing fuel text with
  | nil =>
    rw [Spelled.nil_iff.mp hspelled]
    cases fuel with
    | zero => rfl
    | succ fuel => rw [manyUpTo, hstop]
  | cons a as ih =>
    obtain ⟨fuel, rfl⟩ := Nat.exists_eq_succ_of_ne_zero (Nat.ne_zero_of_lt hfuel)
    obtain ⟨ha, has⟩ := List.forall_mem_cons.mp has
    obtain ⟨mid, hfirst, hspelled⟩ := hspelled.of_append
    have hmid : E mid := by
      cases as with
      | nil => rwa [Spelled.nil_iff.mp hspelled]
      | cons b as => exact hE b _ mid rest (has b List.mem_cons_self) hspelled
    rw [manyUpTo, hr.reads ⟨ha, rfl⟩ hfirst hmid]
    dsimp only
    rw [ih (Nat.le_of_succ_le_succ hfuel) has hspelled]

variable (hne : ∀ a, P a → tokens a ≠ [])

include hne

/-- A repetition is read up to where no item begins. -/
theorem Parses.many : Parses (fun rest => E rest ∧ r.read rest = none)
    (fun as ts => (∀ a ∈ as, P a) ∧ ts = as.flatMap tokens) (many r) where
  spelled {text as rest} h := by
    obtain ⟨has, hspelled⟩ := spelled_manyUpTo hr (text.length + 1) text
    rw [Option.some.inj h] at has hspelled
    exact ⟨_, ⟨has, rfl⟩, hspelled⟩
  reads {text as rest ts} h hspelled hrest := by
    obtain ⟨has, rfl⟩ := h
    have hlen := length_le_flatMap hne has
    have hlen' := hspelled.length_le
    exact congrArg some (manyUpTo_of_spelled hr hE (by omega) has hspelled hrest.1 hrest.2)

theorem Parses.many1 : Parses (fun rest => E rest ∧ r.read rest = none)
    (fun as ts => as ≠ [] ∧ (∀ a ∈ as, P a) ∧ ts = as.flatMap tokens) (many1 r) := by
  refine (hr.bind (fun a => (hr.many hE hne).map (a :: ·)) ?_).congr fun as ts => ?_
  · rintro a bs us text rest ⟨as, -, has, rfl⟩ hspelled hrest
    cases as with
    | nil => exact Spelled.nil_iff.mp hspelled ▸ hrest.1
    | cons b as => exact hE b _ text rest (has b List.mem_cons_self) hspelled
  · constructor
    · rintro ⟨a, -, -, ⟨ha, rfl⟩, ⟨as, rfl, has, rfl⟩, rfl⟩
      exact ⟨List.cons_ne_nil a as, List.forall_mem_cons.mpr ⟨ha, has⟩, rfl⟩
    · rintro ⟨hne, has, rfl⟩
      obtain ⟨a, as, rfl⟩ := List.exists_cons_of_ne_nil hne
      obtain ⟨ha, has⟩ := List.forall_mem_cons.mp has
      exact ⟨a, _, _, ⟨ha, rfl⟩, ⟨as, rfl, has, rfl⟩, rfl⟩

end Items

theorem Parses.commaSeparated (hr : Parses Anything (fun a ts => ts = tokens a) r) :
    Parses NoComma (fun as ts => as ≠ [] ∧ ts = separated tokens as) (commaSeparated r) := by
  have hitem : Parses Anything (fun a ts => True ∧ ts = .word "," :: tokens a)
      (do word ","; r) := by
    refine ((parses_word (w := ",") rfl ⟨by decide, by decide⟩).next fun _ => hr).congr ?_
    simp
  have hmany := hitem.many (fun _ _ _ _ _ _ => trivial) (fun _ _ => List.cons_ne_nil _ _)
  refine Parses.congr (Parses.mono (hr.next fun a => hmany.map (a :: ·)) ?_) fun as ts => ?_
  · refine fun rest hrest => ⟨trivial, hitem.read_eq_none ?_⟩
    rintro a us rest' ⟨-, rfl⟩ hspelled
    obtain ⟨c, hhead, hc⟩ := hspelled.starts
    exact hrest (hhead.trans (Option.some.inj hc ▸ rfl))
  · constructor
    · rintro ⟨a, -, -, rfl, ⟨as, rfl, -, rfl⟩, rfl⟩
      exact ⟨List.cons_ne_nil a as, rfl⟩
    · rintro ⟨hne, rfl⟩
      obtain ⟨a, as, rfl⟩ := List.exists_cons_of_ne_nil hne
      exact ⟨a, _, _, rfl, ⟨as, rfl, fun _ _ => trivial, rfl⟩, rfl⟩

end Repetition

end Reader

end LoopBounds.Listing
