import LoopBounds.Proofs.Listing.Spelling

/-!
# The tokens of a program

Every line of a program is known by its first tokens: the word after the equals sign tells lines
that define a value apart, and the first two words tell terminators apart. So a text is read as a
program exactly if it spells the tokens of that program.
-/

namespace LoopBounds.Listing

def Line.HasSources : Line → Prop
  | .phi _ sources => sources ≠ []
  | _ => True

theorem Line.hasSources_of_not_isPhi {l : Line} (h : l.isPhi = false) : l.HasSources := by
  cases l with
  | phi => cases h
  | _ => trivial

theorem Line.isPhi_of_isTerminator {l : Line} (h : l.isTerminator = true) : l.isPhi = false := by
  cases l with
  | phi => cases h
  | _ => rfl

theorem Line.WellFormed.hasSources {l : Line} (h : l.WellFormed) : l.HasSources := by
  cases l with
  | phi => exact h.2.1
  | _ => trivial

theorem Operand.wellFormed_iff {o : Operand} : o.WellFormed ↔ o.token.WellFormed := by
  cases o <;> rfl

theorem forall_mem_tokens_of_separated {α : Type} {tokens : α → List Token} {as : List α}
    {P : Token → Prop} (h : ∀ t ∈ separated tokens as, P t) : ∀ a ∈ as, ∀ t ∈ tokens a, P t := by
  cases as with
  | nil => exact fun a ha => absurd ha List.not_mem_nil
  | cons b bs =>
    obtain ⟨hb, hbs⟩ := List.forall_mem_append.mp h
    refine List.forall_mem_cons.mpr ⟨hb, fun a ha t ht => hbs t ?_⟩
    exact List.mem_flatMap.mpr ⟨a, ha, List.mem_cons_of_mem _ ht⟩

theorem Line.wellFormed_of_tokens {l : Line} (hl : l.HasSources)
    (h : ∀ t ∈ l.tokens, t.WellFormed) : l.WellFormed := by
  cases l with
  | phi n sources =>
    simp only [Line.tokens, List.forall_mem_cons] at h
    refine ⟨h.1, hl, fun s hs => ?_⟩
    have hsource := forall_mem_tokens_of_separated h.2.2.2.2 s hs
    exact ⟨Operand.wellFormed_iff.mpr (hsource s.1.token (by simp [sourceTokens])),
      hsource (.value s.2) (by simp [sourceTokens])⟩
  | ret value =>
    rintro x rfl
    exact Operand.wellFormed_iff.mpr (h x.token (by simp))
  | arith | neg | compare | jump | branch =>
    simp only [Line.tokens, List.forall_mem_cons] at h
    simp only [Line.WellFormed, Operand.wellFormed_iff]
    tauto

/-- Phis come first and have sources, and the last line is the only terminator. -/
def Section.Shaped (s : Section) : Prop := s.Ordered ∧ ∀ l ∈ s.lines, l.HasSources

theorem Section.WellFormed.shaped {s : Section} (h : s.WellFormed) : s.Shaped :=
  ⟨h.ordered, fun l hl => (h.lines l hl).hasSources⟩

theorem Section.Shaped.wellFormed {s : Section} (hs : s.Shaped)
    (h : ∀ t ∈ s.tokens, t.WellFormed) : s.WellFormed := by
  obtain ⟨hlabel, hlines⟩ := List.forall_mem_cons.mp h
  exact ⟨hlabel, fun l hl => Line.wellFormed_of_tokens (hs.2 l hl) fun t ht =>
    hlines t (List.mem_flatMap.mpr ⟨l, hl, ht⟩), hs.1⟩

def Definition.Shaped (d : Definition) : Prop :=
  d.returns ≠ .i1 ∧ d.sections ≠ [] ∧ ∀ s ∈ d.sections, s.Shaped

theorem Definition.WellFormed.shaped {d : Definition} (h : d.WellFormed) : d.Shaped :=
  ⟨h.returns, h.nonempty, fun s hs => (h.sections s hs).shaped⟩

theorem Definition.Shaped.wellFormed {d : Definition} (hd : d.Shaped)
    (h : ∀ t ∈ d.tokens, t.WellFormed) : d.WellFormed := by
  simp only [Definition.tokens, List.forall_mem_cons, List.forall_mem_append] at h
  obtain ⟨-, -, hname, -, hparams, -, -, hsections, -⟩ := h
  refine ⟨hd.1, hname, fun p hp => ?_, hd.2.1, fun s hs => ?_⟩
  · exact forall_mem_tokens_of_separated hparams p hp (.value p) (by simp [paramTokens])
  · exact (hd.2.2 s hs).wellFormed fun t ht => hsections t (List.mem_flatMap.mpr ⟨s, hs, ht⟩)

namespace Reader

variable {α β : Type} {r : Reader α} {E : List Char → Prop} {R : α → List Token → Prop}
variable {text rest rest' : List Char} {ts us : List Token} {l l' : Line} {n n' : String}

section Lines

theorem parses_phiSource : Parses Anything (fun s ts => ts = sourceTokens s) phiSource := by
  refine ((((parses_word (w := "[") rfl ⟨by decide, by decide⟩).next fun _ =>
    parses_operand.next fun value =>
      (parses_word (w := ",") rfl ⟨by decide, by decide⟩).next fun _ =>
        parses_localName.next fun source =>
          (parses_word (w := "]") rfl ⟨by decide, by decide⟩).next fun _ =>
            parses_pure (value, source)).part _ (skips_word _).bind).congr ?_)
  rintro ⟨value, source⟩ ts
  simp [sourceTokens]

theorem parses_phi :
    Parses NoComma (fun l ts => (l.isPhi = true ∧ l.HasSources) ∧ ts = l.tokens) phi := by
  refine ((parses_localName.next fun n =>
    (parses_word (w := "=") rfl ⟨by decide, by decide⟩).next fun _ =>
      (parses_word (w := "phi") rfl ⟨by decide, by decide⟩).next fun _ =>
        parses_operandType.next fun _ =>
          (Parses.commaSeparated parses_phiSource).map (Line.phi n)).part _
            (skips_part _).bind).congr ?_
  intro l ts
  cases l with
  | phi n sources => simp [Line.isPhi, Line.HasSources]
  | _ => simp [Line.isPhi]

theorem parses_arith :
    Parses Anything (fun l ts => (∃ n op x y, l = .arith n op x y) ∧ ts = l.tokens) arith := by
  refine ((parses_localName.next fun n =>
    (parses_word (w := "=") rfl ⟨by decide, by decide⟩).next fun _ =>
      parses_arithOp.next fun op =>
        parses_operandType.next fun _ =>
          parses_operand.next fun x =>
            (parses_word (w := ",") rfl ⟨by decide, by decide⟩).next fun _ =>
              parses_operand.map (Line.arith n op x)).part _ (skips_part _).bind).congr ?_
  intro l ts
  cases l with
  | arith n op x y => simp
  | _ => simp

theorem parses_neg :
    Parses Anything (fun l ts => (∃ n x, l = .neg n x) ∧ ts = l.tokens) neg := by
  refine ((parses_localName.next fun n =>
    (parses_word (w := "=") rfl ⟨by decide, by decide⟩).next fun _ =>
      (parses_word (w := "neg") rfl ⟨by decide, by decide⟩).next fun _ =>
        parses_operandType.next fun _ =>
          parses_operand.map (Line.neg n)).part _ (skips_part _).bind).congr ?_
  intro l ts
  cases l with
  | neg n x => simp
  | _ => simp

theorem parses_compare :
    Parses Anything (fun l ts => (∃ n op x y, l = .compare n op x y) ∧ ts = l.tokens) compare := by
  refine ((parses_localName.next fun n =>
    (parses_word (w := "=") rfl ⟨by decide, by decide⟩).next fun _ =>
      (parses_word (w := "icmp") rfl ⟨by decide, by decide⟩).next fun _ =>
        parses_comparison.next fun op =>
          parses_operandType.next fun _ =>
            parses_operand.next fun x =>
              (parses_word (w := ",") rfl ⟨by decide, by decide⟩).next fun _ =>
                parses_operand.map (Line.compare n op x)).part _ (skips_part _).bind).congr ?_
  intro l ts
  cases l with
  | compare n op x y => simp
  | _ => simp

theorem parses_target :
    Parses Anything (fun t ts => ts = [.word "label", .value t]) target := by
  refine ((parses_word (w := "label") rfl ⟨by decide, by decide⟩).next fun _ =>
    parses_localName).congr ?_
  intro t ts
  simp

theorem parses_branch :
    Parses Anything (fun l ts => (∃ c t e, l = .branch c t e) ∧ ts = l.tokens) branch := by
  refine (((parses_word (w := "br") rfl ⟨by decide, by decide⟩).next fun _ =>
    parses_operandType.next fun _ =>
      parses_operand.next fun c =>
        (parses_word (w := ",") rfl ⟨by decide, by decide⟩).next fun _ =>
          Parses.next parses_target fun t =>
            (parses_word (w := ",") rfl ⟨by decide, by decide⟩).next fun _ =>
              Parses.map parses_target (Line.branch c t)).part _ (skips_word _).bind).congr ?_
  intro l ts
  cases l with
  | branch c t e => simp
  | _ => simp

theorem parses_jump :
    Parses Anything (fun l ts => (∃ t, l = .jump t) ∧ ts = l.tokens) jump := by
  refine (((parses_word (w := "br") rfl ⟨by decide, by decide⟩).next fun _ =>
    Parses.map parses_target Line.jump).part _ (skips_word _).bind).congr ?_
  intro l ts
  cases l with
  | jump t => simp
  | _ => simp

theorem parses_ret :
    Parses Anything (fun l ts => (∃ value, l = .ret value) ∧ ts = l.tokens) ret := by
  have hvoid := (parses_word (w := "void") rfl ⟨by decide, by decide⟩).next fun _ =>
    parses_pure (E := Anything) (Line.ret none)
  have hvalue := parses_operandType.next fun _ => parses_operand.map fun x => Line.ret (some x)
  refine (((parses_word (w := "ret") rfl ⟨by decide, by decide⟩).next fun _ =>
    hvoid.orElse hvalue ?_).part _ (skips_word _).bind).congr ?_
  · rintro a b _ _ text rest rest' ⟨_, us, _, rfl, _, rfl⟩ h ⟨_, vs, _, rfl, _, rfl⟩ h' _
    obtain ⟨c, hc, rfl⟩ := h.exists_starts h'
    exact absurd hc (by decide)
  · intro l ts
    cases l with
    | ret value => cases value <;> simp
    | _ => simp

section Apart

theorem tokens_of_not_isTerminator (hl : l.isTerminator = false) :
    ∃ n us, l.tokens = .value n :: .word "=" :: .word l.keyword :: us := by
  cases l with
  | phi | arith | neg | compare => exact ⟨_, _, rfl⟩
  | jump | branch | ret => cases hl

theorem tokens_of_isTerminator (hl : l.isTerminator = true) :
    ∃ w us, l.tokens = .word w :: us ∧ (w = "br" ∨ w = "ret") := by
  cases l with
  | phi | arith | neg | compare => cases hl
  | jump | branch => exact ⟨_, _, rfl, .inl rfl⟩
  | ret value => cases value <;> exact ⟨_, _, rfl, .inr rfl⟩

variable (h : Spelled l.tokens text rest) (h' : Spelled l'.tokens text rest')

include h h'

/-- No text begins with a line that defines a value and with a terminator. -/
theorem not_isTerminator_of_spelled (hl : l.isTerminator = false) : l'.isTerminator = false := by
  by_contra hl'
  obtain ⟨n, us, heq⟩ := tokens_of_not_isTerminator hl
  obtain ⟨w, vs, heq', hw⟩ := tokens_of_isTerminator (Bool.not_eq_false _ ▸ hl')
  obtain ⟨c, rfl, hc⟩ := (heq ▸ h).exists_starts (heq' ▸ h')
  rcases hw with rfl | rfl <;> exact absurd hc (by decide)

/-- The word after the equals sign tells lines that define a value apart. -/
theorem keyword_head?_eq (hl : l.isTerminator = false) :
    l.keyword.toList.head? = l'.keyword.toList.head? := by
  have hl' := not_isTerminator_of_spelled h h' hl
  obtain ⟨n, us, heq⟩ := tokens_of_not_isTerminator hl
  obtain ⟨n', us', heq'⟩ := tokens_of_not_isTerminator hl'
  obtain ⟨mid, hmid, hmid'⟩ := tail_of_value (heq ▸ h) (heq' ▸ h')
  obtain ⟨mid', hmid, hmid'⟩ := hmid.tail_of_word hmid'
  exact hmid.head?_eq_of_words hmid'

theorem isPhi_of_spelled (hl : l.isPhi = true) : l'.isPhi = true := by
  cases l with
  | phi n sources =>
    have heq := keyword_head?_eq h h' rfl
    cases l' with
    | phi => rfl
    | arith n op x y => cases op <;> simp [Line.keyword, ArithOp.text] at heq
    | ret value => simp [Line.keyword] at heq
    | neg | compare | jump | branch => simp [Line.keyword] at heq
  | _ => cases hl

end Apart

section Choices

theorem parses_ordinary : Parses Anything
    (fun l ts => (l.isPhi = false ∧ l.isTerminator = false) ∧ ts = l.tokens) ordinary := by
  refine (Parses.orElse parses_arith (Parses.orElse parses_neg parses_compare ?_) ?_).congr
    fun l ts => ?_
  · rintro _ _ _ _ text rest rest' ⟨⟨n, x, rfl⟩, rfl⟩ h ⟨⟨n', op, y, z, rfl⟩, rfl⟩ h' -
    have heq := keyword_head?_eq h h' rfl
    simp [Line.keyword] at heq
  · rintro _ l _ _ text rest rest' ⟨⟨n, op, x, y, rfl⟩, rfl⟩ h
      (⟨⟨n', z, rfl⟩, rfl⟩ | ⟨⟨n', op', z, w, rfl⟩, rfl⟩) h' - <;>
    · have heq := keyword_head?_eq h h' rfl
      cases op <;> simp [Line.keyword, ArithOp.text] at heq
  · cases l <;> simp [Line.isPhi, Line.isTerminator, Line.defines?]

theorem parses_terminator :
    Parses Anything (fun l ts => l.isTerminator = true ∧ ts = l.tokens) terminator := by
  refine (Parses.orElse parses_branch (Parses.orElse parses_jump parses_ret ?_) ?_).congr
    fun l ts => ?_
  · rintro _ _ _ _ text rest rest' ⟨⟨t, rfl⟩, rfl⟩ h ⟨⟨value, rfl⟩, rfl⟩ h' -
    cases value <;> exact absurd (h.head?_eq_of_words h') (by decide)
  · rintro _ _ _ _ text rest rest' ⟨⟨c, t, e, rfl⟩, rfl⟩ h
      (⟨⟨t', rfl⟩, rfl⟩ | ⟨⟨value, rfl⟩, rfl⟩) h' -
    · obtain ⟨mid, h, h'⟩ := h.tail_of_word h'
      obtain ⟨c, rfl, hc⟩ := h.exists_starts h'
      exact absurd hc (by decide)
    · cases value <;> exact absurd (h.head?_eq_of_words h') (by decide)
  · cases l <;> simp [Line.isTerminator, Line.defines?]

end Choices

section Blocks

theorem noComma_of_spelled (h : Spelled (l.tokens ++ ts) text rest) : NoComma text := by
  obtain ⟨mid, h, -⟩ := h.of_append
  intro hcomma
  cases hl : l.isTerminator with
  | false =>
    obtain ⟨n, us, heq⟩ := tokens_of_not_isTerminator hl
    obtain ⟨c, hhead, rfl⟩ := (heq ▸ h).starts
    rw [hcomma] at hhead
    exact absurd hhead (by decide)
  | true =>
    obtain ⟨w, us, heq, hw⟩ := tokens_of_isTerminator hl
    obtain ⟨c, hhead, hc⟩ := (heq ▸ h).starts
    rw [hcomma, Option.some.injEq] at hhead
    subst hhead
    rcases hw with rfl | rfl <;> exact absurd hc (by decide)

theorem tokens_ne_nil (l : Line) : l.tokens ≠ [] := by
  cases l with
  | ret value => cases value <;> exact List.cons_ne_nil _ _
  | _ => exact List.cons_ne_nil _ _

theorem read_phi_eq_none (h : Spelled (l.tokens ++ ts) text rest) (hl : l.isPhi = false) :
    phi.read text = none := by
  obtain ⟨mid, h, -⟩ := h.of_append
  apply Parses.read_eq_none parses_phi
  rintro l' _ rest' ⟨⟨hphi, -⟩, rfl⟩ h'
  rw [isPhi_of_spelled h' h hphi] at hl
  cases hl

/-- The ordinary lines of a block end before the terminator. -/
theorem read_ordinary_eq_none (h : Spelled l.tokens text rest) (hl : l.isTerminator = true) :
    ordinary.read text = none := by
  apply Parses.read_eq_none parses_ordinary
  rintro l' _ rest' ⟨⟨-, hl'⟩, rfl⟩ h'
  rw [not_isTerminator_of_spelled h' h hl'] at hl
  cases hl

theorem parses_block : Parses Anything (fun s ts => s.Shaped ∧ ts = s.tokens) block := by
  have hphis := Parses.many parses_phi (fun _ _ _ _ _ => noComma_of_spelled)
    (fun l _ => tokens_ne_nil l)
  have hbody := Parses.many parses_ordinary (fun _ _ _ _ _ _ => trivial)
    (fun l _ => tokens_ne_nil l)
  refine ((parses_label.next fun name => hphis.bind (fun phis => hbody.bind (fun body =>
    Parses.map parses_terminator fun last =>
      (⟨name, phis ++ body ++ [last]⟩ : Section)) ?_) ?_).part _
        (skips_part _).bind).congr fun s ts => ?_
  · rintro body _ _ text rest ⟨last, -, hlast, rfl⟩ h -
    exact ⟨trivial, read_ordinary_eq_none h hlast⟩
  · rintro phis _ _ text rest ⟨body, _, _, ⟨hbody, rfl⟩, ⟨last, -, hlast, rfl⟩, rfl⟩ h -
    cases body with
    | nil =>
      rw [List.flatMap_nil, List.nil_append, ← List.append_nil last.tokens] at h
      exact ⟨noComma_of_spelled h, read_phi_eq_none h (Line.isPhi_of_isTerminator hlast)⟩
    | cons l body =>
      rw [List.flatMap_cons, List.append_assoc] at h
      exact ⟨noComma_of_spelled h, read_phi_eq_none h (hbody l List.mem_cons_self).1⟩
  · constructor
    · rintro ⟨name, _, _, rfl, ⟨phis, _, _, ⟨hphis, rfl⟩, ⟨body, _, _, ⟨hbody, rfl⟩,
        ⟨last, rfl, hlast, rfl⟩, rfl⟩, rfl⟩, rfl⟩
      refine ⟨⟨⟨phis, body, last, rfl, fun l hl => (hphis l hl).1, hbody, hlast⟩, ?_⟩, ?_⟩
      · simp only [List.forall_mem_append, List.forall_mem_singleton]
        exact ⟨⟨fun l hl => (hphis l hl).2,
          fun l hl => Line.hasSources_of_not_isPhi (hbody l hl).1⟩,
          Line.hasSources_of_not_isPhi (Line.isPhi_of_isTerminator hlast)⟩
      · simp [Section.tokens]
    · rintro ⟨⟨⟨phis, body, last, heq, hphis, hbody, hlast⟩, hsources⟩, rfl⟩
      obtain ⟨name, lines⟩ := s
      subst heq
      simp only [List.forall_mem_append] at hsources
      exact ⟨name, _, _, rfl, ⟨phis, _, _, ⟨fun l hl => ⟨hphis l hl, hsources.1.1 l hl⟩, rfl⟩,
        ⟨body, _, _, ⟨hbody, rfl⟩, ⟨last, rfl, hlast, rfl⟩, rfl⟩, rfl⟩, by simp [Section.tokens]⟩

end Blocks

section Definitions

theorem parses_param : Parses Anything (fun p ts => ts = paramTokens p) param := by
  refine (Parses.part _ (parses_operandType.next fun _ => parses_localName)
    (skips_part _).bind).congr ?_
  simp [paramTokens]

theorem parses_params : Parses (fun rest => ∃ mid, Spelled [.word ")"] rest mid)
    (fun ps ts => ts = separated paramTokens ps) (commaSeparated param <|> pure []) := by
  have hlist : Parses (fun rest => ∃ mid, Spelled [.word ")"] rest mid)
      (fun ps ts => ps ≠ [] ∧ ts = separated paramTokens ps) (commaSeparated param) := by
    refine (Parses.commaSeparated parses_param).mono fun rest ⟨mid, h⟩ hcomma => ?_
    obtain ⟨c, hhead, hc⟩ := h.starts
    rw [hcomma, Option.some.injEq] at hhead
    subst hhead
    exact absurd hc (by decide)
  refine (hlist.orElse (parses_pure []) ?_).congr fun ps ts => ?_
  · rintro ps _ _ _ text rest rest' ⟨hne, rfl⟩ h ⟨-, rfl⟩ h' ⟨mid, hclose⟩
    obtain ⟨p, ps, rfl⟩ := List.exists_cons_of_ne_nil hne
    rw [← Spelled.nil_iff.mp h'] at hclose
    obtain ⟨c, rfl, hc⟩ := Spelled.exists_starts h hclose
    exact absurd hc (by decide)
  · cases ps <;> simp [separated]

theorem parses_definition :
    Parses Anything (fun d ts => d.Shaped ∧ ts = d.tokens) definition := by
  have hblocks := Parses.many1 parses_block (fun _ _ _ _ _ _ => trivial)
    (fun _ _ => List.cons_ne_nil _ _)
  refine (((parses_word (w := "define") rfl ⟨by decide, by decide⟩).next fun _ =>
    parses_resultType.next fun t => parses_globalName.next fun n =>
      (parses_word (w := "(") rfl ⟨by decide, by decide⟩).next fun _ =>
        Parses.bind parses_params (fun ps =>
          (parses_word (w := ")") rfl ⟨by decide, by decide⟩).next fun _ =>
            (parses_word (w := "\x7b") rfl ⟨by decide, by decide⟩).next fun _ =>
              hblocks.bind (fun ss =>
                (parses_word (w := "\x7d") rfl ⟨by decide, by decide⟩).next fun _ =>
                  parses_pure (⟨t, n, ps, ss⟩ : Definition)) ?_) ?_).part _
                    (skips_word _).bind).congr fun d ts => ?_
  · rintro ss _ _ text rest ⟨_, _, vs, rfl, -, rfl⟩ h -
    refine ⟨trivial, Parses.read_eq_none parses_block ?_⟩
    rintro s _ rest' ⟨-, rfl⟩ h'
    obtain ⟨c, hname, hc⟩ := Spelled.exists_starts h' h
    have heq : '\x7d' = c := Option.some.inj hc
    subst heq
    exact absurd (show isNameChar '\x7d' = true from hname) (by decide)
  · rintro ps _ _ text rest ⟨_, _, vs, rfl, -, rfl⟩ h -
    obtain ⟨mid, h, -⟩ := h.of_append
    exact ⟨mid, h⟩
  · obtain ⟨t, n, ps, ss⟩ := d
    simp [Definition.tokens, Definition.Shaped]

theorem read_endOfText_iff :
    endOfText.read text = some ((), rest) ↔ skip text = [] ∧ rest = [] := by
  rw [endOfText, read_part]
  by_cases h : skip text = [] <;> simp [plain, h, eq_comm]

theorem read_program_iff {ds : List Definition} : program.read text = some (ds, rest) ↔
    rest = [] ∧ (∀ d ∈ ds, d.Shaped) ∧
      ∃ tail, Spelled (ds.flatMap Definition.tokens) text tail ∧ skip tail = [] := by
  have hmany := Parses.many parses_definition (fun _ _ _ _ _ _ => trivial)
    (fun _ _ => List.cons_ne_nil _ _)
  change (do let defs ← many definition; endOfText; return defs).read text = _ ↔ _
  rw [read_bind_eq_some_iff]
  constructor
  · rintro ⟨ds', tail, hread, h⟩
    obtain ⟨_, mid, hend, h⟩ := read_bind_eq_some_iff.mp h
    obtain ⟨rfl, rfl⟩ := Prod.mk.inj (Option.some.inj h)
    obtain ⟨htail, rfl⟩ := read_endOfText_iff.mp hend
    obtain ⟨_, ⟨hds, rfl⟩, hspelled⟩ := hmany.spelled hread
    exact ⟨rfl, hds, tail, hspelled, htail⟩
  · rintro ⟨rfl, hds, tail, hspelled, htail⟩
    have hstop : definition.read tail = none := by
      apply Parses.read_eq_none parses_definition
      intro d _ _ hd h
      obtain ⟨c, hhead, -⟩ := Spelled.starts (hd.2 ▸ h)
      rw [htail] at hhead
      cases hhead
    have hread := hmany.reads ⟨hds, rfl⟩ hspelled ⟨trivial, hstop⟩
    refine ⟨ds, tail, hread, read_bind_eq_some_iff.mpr ?_⟩
    exact ⟨(), [], read_endOfText_iff.mpr ⟨htail, rfl⟩, rfl⟩

end Definitions

end Lines

end Reader

/-- A text is read as a listing exactly if the listing can be written down and the text spells its
tokens, with blanks and comments in front of them and at the end. -/
theorem read?_eq_some_iff {text : String} {ds : List Definition} : read? text = some ds ↔
    (∀ d ∈ ds, d.WellFormed) ∧
      ∃ tail, Spelled (ds.flatMap Definition.tokens) text.toList tail ∧ skip tail = [] := by
  constructor
  · intro h
    obtain ⟨⟨ds, rest⟩, hread, rfl⟩ := Option.map_eq_some_iff.mp h
    obtain ⟨-, hds, tail, hspelled, htail⟩ := Reader.read_program_iff.mp hread
    refine ⟨fun d hd => (hds d hd).wellFormed fun t ht => ?_, tail, hspelled, htail⟩
    exact hspelled.wellFormed t (List.mem_flatMap.mpr ⟨d, hd, ht⟩)
  · rintro ⟨hds, hspelled⟩
    have hread : Reader.program.read text.toList = some (ds, []) :=
      Reader.read_program_iff.mpr ⟨rfl, fun d hd => (hds d hd).shaped, hspelled⟩
    rw [read?, hread]
    rfl

/-- Every listing that has been read can be written down. -/
theorem wellFormed_of_read? {text : String} {ds : List Definition} (h : read? text = some ds) :
    ∀ d ∈ ds, d.WellFormed :=
  (read?_eq_some_iff.mp h).1

end LoopBounds.Listing
