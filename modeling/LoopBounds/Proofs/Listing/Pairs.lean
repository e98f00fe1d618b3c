import LoopBounds.Listing.Pair
import LoopBounds.Proofs.Listing.Reading

/-!
# A listing and its pairs

The rules that leave pairs read the same texts as those that give a listing, and up to the same
place. What a listing says is found in the pairs at fixed places: a pair tells a line, a section or
a definition.
-/

namespace LoopBounds.Listing

section Told

namespace Pair

def ofName (n : String) : Pair := .of .name n []

def ofType (t : String) : Pair := .of .operandType t []

/-- A name with the mark in front of it. -/
def marked (rule : Part) (mark : Char) (n : String) : Pair :=
  .of rule (String.ofList (mark :: n.toList)) [ofName n]

def ofLocal (n : String) : Pair := marked .localName '%' n

end Pair

def Operand.pair : Operand → Pair
  | .value n => .ofLocal n
  | .literal digits => .of .integer digits []

inductive SourceToldBy : Operand × String → Pair → Prop
  | intro (x : Operand) (b t : String) :
      SourceToldBy (x, b) (.of .phiSource t [x.pair, .ofLocal b])

/-- The pair of a line, with what the line says at its places. -/
inductive Line.ToldBy : Line → Pair → Prop
  | phi {n t ty : String} {sources : List (Operand × String)} {ps : List Pair} :
      List.Forall₂ SourceToldBy sources ps →
      ToldBy (.phi n sources) (.of .phi t (.ofLocal n :: .ofType ty :: ps))
  | arith {n t ty : String} {op : ArithOp} {x y : Operand} :
      ToldBy (.arith n op x y)
        (.of .arith t [.ofLocal n, .of .arithOp op.text [], .ofType ty, x.pair, y.pair])
  | neg {n t ty : String} {x : Operand} :
      ToldBy (.neg n x) (.of .neg t [.ofLocal n, .ofType ty, x.pair])
  | compare {n t ty : String} {op : Comparison} {x y : Operand} :
      ToldBy (.compare n op x y)
        (.of .compare t [.ofLocal n, .of .comparison op.text [], .ofType ty, x.pair, y.pair])
  | jump {t b : String} : ToldBy (.jump b) (.of .jump t [.ofLocal b])
  | branch {t ty b c : String} {x : Operand} :
      ToldBy (.branch x b c) (.of .branch t [.ofType ty, x.pair, .ofLocal b, .ofLocal c])
  | retNone {t : String} : ToldBy (.ret none) (.of .ret t [])
  | retSome {t ty : String} {x : Operand} :
      ToldBy (.ret (some x)) (.of .ret t [.ofType ty, x.pair])

inductive Section.ToldBy : Section → Pair → Prop
  | intro {l t t' : String} {lines : List Line} {ps : List Pair} :
      List.Forall₂ Line.ToldBy lines ps →
      ToldBy ⟨l, lines⟩ (.of .block t (.of .label t' [.ofName l] :: ps))

inductive ParamToldBy : String → Pair → Prop
  | intro (n t ty : String) : ParamToldBy n (.of .param t [.ofType ty, .ofLocal n])

inductive Definition.ToldBy : Definition → Pair → Prop
  | intro {returns : ResultType} {n t : String} {params : List String} {sections : List Section}
      {ps bs : List Pair} :
      List.Forall₂ ParamToldBy params ps → List.Forall₂ Section.ToldBy sections bs →
      ToldBy ⟨returns, n, params, sections⟩ (.of .definition t
        (.of .resultType returns.text [] :: .marked .globalName '@' n :: (ps ++ bs)))

theorem Definition.ToldBy.exists_inner {d : Definition} {p : Pair} (h : d.ToldBy p) :
    ∃ t ps bs, p = .of .definition t (.of .resultType d.returns.text [] ::
        .marked .globalName '@' d.name :: (ps ++ bs)) ∧
      List.Forall₂ ParamToldBy d.params ps ∧ List.Forall₂ Section.ToldBy d.sections bs := by
  cases h with
  | intro hparams hsections => exact ⟨_, _, _, rfl, hparams, hsections⟩

/-- The pair of a program has those of its definitions, and one for the end of the text. -/
inductive ProgramToldBy : List Definition → Pair → Prop
  | intro {ds : List Definition} {t t' : String} {ps : List Pair} :
      List.Forall₂ Definition.ToldBy ds ps →
      ProgramToldBy ds (.of .program t (ps ++ [.of .endOfText t' []]))

end Told

namespace Reader

variable {α β : Type} {r r' : Reader α} {q q' : Reader (List Pair)} {qs : List (Reader (List Pair))}
variable {k : α → Reader β} {l : List Pair → Reader (List Pair)} {p : Part}
variable {R S : α → List Pair → Prop} {T : β → List Pair → Prop} {Q : α → Pair → Prop}

/-- From `text`, `q` reads what `r` reads and up to the same place, and its pairs are related by `R`
to what `r` gives. -/
def AgreesAt (r : Reader α) (q : Reader (List Pair)) (R : α → List Pair → Prop)
    (text : List Char) : Prop :=
  r.read text = none ∧ q.read text = none ∨
    ∃ a ps rest, r.read text = some (a, rest) ∧ q.read text = some (ps, rest) ∧ R a ps

def Agrees (r : Reader α) (q : Reader (List Pair)) (R : α → List Pair → Prop) : Prop :=
  ∀ text, AgreesAt r q R text

/-- One pair, related by `Q`. -/
def Single (Q : α → Pair → Prop) (a : α) (ps : List Pair) : Prop := ∃ p, ps = [p] ∧ Q a p

section Combinators

theorem Agrees.mono (h : Agrees r q R) (hRS : ∀ a ps, R a ps → S a ps) : Agrees r q S := by
  intro text
  rcases h text with hnone | ⟨a, ps, rest, hr, hq, hR⟩
  · exact .inl hnone
  · exact .inr ⟨a, ps, rest, hr, hq, hRS a ps hR⟩

theorem Agrees.of_read_eq (h : Agrees r q R) (hread : ∀ text, r'.read text = r.read text) :
    Agrees r' q R := by
  intro text
  rw [AgreesAt, hread]
  exact h text

theorem agrees_pure {a : α} {ps : List Pair} (h : R a ps) :
    Agrees (pure a) (pure ps) R := fun text =>
  .inr ⟨a, ps, text, rfl, rfl, h⟩

theorem agrees_silent (r : Reader α) : Agrees r (silent r) fun _ ps => ps = [] := by
  intro text
  rw [AgreesAt, silent, read_bind]
  rcases r.read text with _ | ⟨a, rest⟩
  · exact .inl ⟨rfl, rfl⟩
  · exact .inr ⟨a, [], rest, rfl, rfl, rfl⟩

/-- The pairs of the first reader stand in front of those of the others. -/
theorem Agrees.cons (h : Agrees r q R)
    (hk : ∀ a ps, R a ps → Agrees (k a) (inTurn qs) fun b ps' => T b (ps ++ ps')) :
    Agrees (r >>= k) (inTurn (q :: qs)) T := by
  intro text
  rw [AgreesAt, read_bind, inTurn, read_bind]
  rcases h text with ⟨hr, hq⟩ | ⟨a, ps, rest, hr, hq, hR⟩
  · rw [hr, hq]
    exact .inl ⟨rfl, rfl⟩
  · rw [hr, hq, Option.bind_some, Option.bind_some, read_bind]
    rcases hk a ps hR rest with ⟨hr', hq'⟩ | ⟨b, ps', rest', hr', hq', hT⟩
    · rw [hr', hq']
      exact .inl ⟨rfl, rfl⟩
    · rw [hr', hq']
      exact .inr ⟨b, ps ++ ps', rest', rfl, rfl, hT⟩

theorem Agrees.last (h : Agrees r q R) : Agrees r (inTurn [q]) R := by
  intro text
  rw [AgreesAt, inTurn, read_bind]
  rcases h text with ⟨hr, hq⟩ | ⟨a, ps, rest, hr, hq, hR⟩
  · rw [hr, hq]
    exact .inl ⟨rfl, rfl⟩
  · rw [hr, hq]
    exact .inr ⟨a, ps ++ [], rest, rfl, rfl, (List.append_nil ps).symm ▸ hR⟩

theorem agrees_word_bind {w : String} {k : Unit → Reader β}
    (hk : Agrees (k ()) (inTurn qs) T) :
    Agrees (word w >>= k) (inTurn (Pairs.word w :: qs)) T := by
  refine (agrees_silent _).cons fun _ ps hps => ?_
  rw [hps]
  exact hk

theorem Agrees.orElse (h : Agrees r q R) (h' : Agrees r' q' R) :
    Agrees (r <|> r') (q <|> q') R := by
  intro text
  rw [AgreesAt, read_orElse, read_orElse]
  rcases h text with ⟨hr, hq⟩ | ⟨a, ps, rest, hr, hq, hR⟩
  · rw [hr, hq]
    exact h' text
  · rw [hr, hq]
    exact .inr ⟨a, ps, rest, rfl, rfl, hR⟩

theorem Agrees.map {g : α → β} (h : Agrees r q R) (hT : ∀ a ps, R a ps → T (g a) ps) :
    Agrees (do return g (← r)) q T := by
  intro text
  rw [AgreesAt, read_bind]
  rcases h text with ⟨hr, hq⟩ | ⟨a, ps, rest, hr, hq, hR⟩
  · rw [hr]
    exact .inl ⟨rfl, hq⟩
  · rw [hr]
    exact .inr ⟨g a, ps, rest, rfl, hq, hT a ps hR⟩

theorem AgreesAt.pairHere {text : List Char} (h : AgreesAt r q R text)
    (hQ : ∀ a ps rest, r.read text = some (a, rest) → R a ps → Q a (.of p (front text rest) ps)) :
    AgreesAt (partHere p r) (pairHere p q) (Single Q) text := by
  change r.read text = none ∧ (q.read text).map _ = none ∨ ∃ a ps rest,
    r.read text = some (a, rest) ∧ (q.read text).map _ = some (ps, rest) ∧ _
  rcases h with ⟨hr, hq⟩ | ⟨a, ps, rest, hr, hq, hR⟩
  · rw [hr, hq]
    exact .inl ⟨rfl, rfl⟩
  · rw [hr, hq]
    exact .inr ⟨a, _, rest, rfl, rfl, _, rfl, hQ a ps rest hr hR⟩

theorem Agrees.of_part (h : Agrees r q R) (hQ : ∀ a t ps, R a ps → Q a (.of p t ps)) :
    Agrees (part p r) (pair p q) (Single Q) := fun text =>
  (h (skip text)).pairHere fun a ps _ _ hR => hQ a _ ps hR

theorem front_append (s rest : List Char) : front (s ++ rest) rest = String.ofList s := by
  simp [front]

/-- The text of a part is known if what it is read as tells it. -/
theorem Agrees.of_part_text {w : α → String} (h : Agrees r q R)
    (hw : ∀ text a rest, r.read (skip text) = some (a, rest) → skip text = (w a).toList ++ rest)
    (hQ : ∀ a ps, R a ps → Q a (.of p (w a) ps)) : Agrees (part p r) (pair p q) (Single Q) := by
  intro text
  refine (h (skip text)).pairHere fun a ps rest hr hR => ?_
  rw [hw text a rest hr, front_append, String.ofList_toList]
  exact hQ a ps hR

theorem Agrees.many (h : Agrees r q (Single Q)) :
    Agrees (many r) (star q) (List.Forall₂ Q) := by
  have hup (fuel : ℕ) (text : List Char) : ∃ as pss rest, manyUpTo r fuel text = (as, rest) ∧
      manyUpTo q fuel text = (pss, rest) ∧ List.Forall₂ Q as pss.flatten := by
    induction fuel generalizing text with
    | zero => exact ⟨[], [], text, rfl, rfl, .nil⟩
    | succ fuel ih =>
      unfold manyUpTo
      rcases h text with ⟨hr, hq⟩ | ⟨a, ps, rest, hr, hq, p, rfl, hQ⟩
      · rw [hr, hq]
        exact ⟨[], [], text, rfl, rfl, .nil⟩
      · obtain ⟨as, pss, rest', has, hpss, hall⟩ := ih rest
        rw [hr, hq]
        dsimp only
        rw [has, hpss]
        exact ⟨a :: as, [p] :: pss, rest', rfl, rfl, .cons hQ hall⟩
  intro text
  obtain ⟨as, pss, rest, has, hpss, hall⟩ := hup (text.length + 1) text
  refine .inr ⟨as, pss.flatten, rest, congrArg some has, ?_, hall⟩
  rw [star, read_bind]
  change (some (manyUpTo q (text.length + 1) text)).bind _ = _
  rw [hpss]
  rfl

theorem Agrees.commaSeparated (h : Agrees r q (Single Q)) :
    Agrees (commaSeparated r) (Pairs.commaSeparated q) (List.Forall₂ Q) := by
  refine h.cons ?_
  rintro a _ ⟨p, rfl, hQ⟩
  refine (agrees_word_bind h.last).many.cons fun as ps hall => agrees_pure ?_
  rw [List.append_nil]
  exact .cons hQ hall

end Combinators

section Tokens

theorem agrees_name : Agrees name Pairs.name (Single fun n p => p = .ofName n) := by
  intro text
  refine (agrees_silent _ text).pairHere ?_
  rintro n _ rest hread rfl
  obtain ⟨rfl, -⟩ := read_run_eq_some_iff.mp hread
  rw [front_append, String.ofList_toList]
  rfl

theorem agrees_marked (rule : Part) (mark : Char) :
    Agrees (part rule (do char mark; name)) (pair rule (inTurn [silent (char mark), Pairs.name]))
      (Single fun n p => p = .marked rule mark n) := by
  have hinner : Agrees (do char mark; name) (inTurn [silent (char mark), Pairs.name])
      (Single fun n p => p = .ofName n) := by
    refine (agrees_silent _).cons ?_
    rintro _ _ rfl
    exact Agrees.last agrees_name
  refine hinner.of_part_text (w := fun n => String.ofList (mark :: n.toList)) ?_ ?_
  · intro text n rest hread
    rw [(read_marked_eq_some_iff.mp hread).1, String.toList_ofList]
  · rintro n _ ⟨_, rfl, rfl⟩
    rfl

theorem agrees_localName :
    Agrees localName Pairs.localName (Single fun n p => p = .ofLocal n) :=
  agrees_marked .localName '%'

theorem agrees_globalName :
    Agrees globalName Pairs.globalName (Single fun n p => p = .marked .globalName '@' n) :=
  agrees_marked .globalName '@'

theorem agrees_label : Agrees label Pairs.label
    (Single fun n p => ∃ t, p = .of .label t [.ofName n]) := by
  refine Agrees.of_part (R := Single fun n p => p = .ofName n) ?_ ?_
  · refine Agrees.cons agrees_name ?_
    rintro n _ ⟨_, rfl, rfl⟩
    refine (agrees_silent _).cons ?_
    rintro _ _ rfl
    exact agrees_pure ⟨_, rfl, rfl⟩
  · rintro n t _ ⟨_, rfl, rfl⟩
    exact ⟨t, rfl⟩

/-- Digits, perhaps after a minus sign. A minus sign without digits is no integer either way. -/
theorem agrees_digits :
    Agrees ((do char '-'; return "-" ++ (← run Char.isDigit)) <|> run Char.isDigit)
      (inTurn [silent (char '-') <|> pure [], silent (run Char.isDigit)])
      fun _ ps => ps = [] := by
  intro text
  cases hminus : (char '-').read text with
  | none =>
    have h := (agrees_silent (run Char.isDigit)).last text
    simpa [AgreesAt, inTurn, silent, hminus] using h
  | some result =>
    obtain ⟨_, mid⟩ := result
    obtain rfl := read_char_eq_some_iff.mp hminus
    have hrun : (run Char.isDigit).read ('-' :: mid) = none := by simp [read_run_eq]
    cases hread : (run Char.isDigit).read mid with
    | none => simp [AgreesAt, inTurn, silent, hminus, hrun, hread]
    | some digits => simp [AgreesAt, inTurn, silent, hminus, hread]

theorem agrees_integer :
    Agrees integer Pairs.integer (Single fun n p => p = .of .integer n []) := by
  refine Agrees.of_part_text agrees_digits (w := id) ?_ ?_
  · intro text n rest hread
    exact (read_integer_eq_some_iff.mp hread).1
  · rintro n _ rfl
    rfl

theorem agrees_operand : Agrees operand Pairs.operand (Single fun x p => p = x.pair) := by
  apply Agrees.orElse
  · exact Agrees.map agrees_localName fun n ps h => h
  · exact Agrees.map agrees_integer fun n ps h => h

theorem agrees_oneOf (words : List (String × α)) :
    Agrees (oneOf words) (choice (words.map fun x => Pairs.word x.1)) fun _ ps => ps = [] := by
  intro text
  induction words with
  | nil => exact .inl ⟨rfl, rfl⟩
  | cons x words ih =>
    have hword : (Pairs.word x.1).read text =
        (strip? x.1.toList (skip text)).map fun rest => ([], rest) := by
      rw [Pairs.word, silent, read_bind]
      change ((strip? x.1.toList (skip text)).map _).bind _ = _
      cases strip? x.1.toList (skip text) <;> rfl
    rw [AgreesAt, List.map_cons, choice, read_orElse, hword]
    change (List.findSome? _ _ = none ∧ _) ∨ ∃ a ps rest, List.findSome? _ _ = some (a, rest) ∧ _
    rw [List.findSome?_cons]
    cases strip? x.1.toList (skip text) with
    | none => exact ih
    | some rest => exact .inr ⟨x.2, [], rest, rfl, rfl, rfl⟩

theorem skip_eq_of_read_oneOf {words : List (String × α)} {a : α} {text rest : List Char}
    (h : (oneOf words).read text = some (a, rest)) :
    ∃ x ∈ words, x.2 = a ∧ skip text = x.1.toList ++ rest := by
  obtain ⟨x, hx, hread⟩ := List.exists_of_findSome?_eq_some h
  obtain ⟨rest', hstrip, heq⟩ := Option.map_eq_some_iff.mp hread
  obtain ⟨rfl, rfl⟩ := Prod.mk.inj heq
  exact ⟨x, hx, rfl, strip?_eq_some_iff.mp hstrip⟩

theorem agrees_part_oneOf (rule : Part) (words : List (String × α)) {w : α → String}
    (hw : ∀ x ∈ words, x.1 = w x.2) :
    Agrees (part rule (oneOf words)) (pair rule (choice (words.map fun x => Pairs.word x.1)))
      (Single fun a p => p = .of rule (w a) []) := by
  refine (agrees_oneOf words).of_part_text (w := w) ?_ ?_
  · intro text a rest hread
    obtain ⟨x, hx, rfl, heq⟩ := skip_eq_of_read_oneOf hread
    rw [← skip_skip text, heq, hw x hx]
  · rintro a _ rfl
    rfl

theorem agrees_operandType : Agrees operandType Pairs.operandType
    (Single fun _ p => ∃ t, p = .ofType t) := by
  refine (agrees_oneOf _).of_part ?_
  rintro _ t _ rfl
  exact ⟨t, rfl⟩

theorem agrees_resultType : Agrees resultType Pairs.resultType
    (Single fun r p => p = .of .resultType r.text []) := by
  refine agrees_part_oneOf (w := ResultType.text) .resultType _ ?_
  simp [ResultType.text]

theorem agrees_arithOp : Agrees arithOp Pairs.arithOp
    (Single fun op p => p = .of .arithOp op.text []) := by
  have h := agrees_part_oneOf (w := ArithOp.text) .arithOp
    (ArithOp.all.map fun op => (op.text, op)) (by simp)
  rwa [List.map_map] at h

theorem agrees_comparison : Agrees comparison Pairs.comparison
    (Single fun op p => p = .of .comparison op.text []) := by
  have h := agrees_part_oneOf (w := Comparison.text) .comparison
    (Comparison.all.map fun op => (op.text, op)) (by simp)
  rwa [List.map_map] at h

end Tokens

section Lines

variable {ks : String → Reader β} {ko : Operand → Reader β}

theorem agrees_local_bind
    (hk : ∀ n, Agrees (ks n) (inTurn qs) fun b ps => T b (.ofLocal n :: ps)) :
    Agrees (localName >>= ks) (inTurn (Pairs.localName :: qs)) T := by
  refine Agrees.cons agrees_localName ?_
  rintro n _ ⟨_, rfl, rfl⟩
  exact hk n

theorem agrees_operand_bind
    (hk : ∀ x, Agrees (ko x) (inTurn qs) fun b ps => T b (x.pair :: ps)) :
    Agrees (operand >>= ko) (inTurn (Pairs.operand :: qs)) T := by
  refine Agrees.cons agrees_operand ?_
  rintro x _ ⟨_, rfl, rfl⟩
  exact hk x

/-- A type leaves a pair, but nothing in the listing. -/
theorem agrees_type_bind {k : Unit → Reader β}
    (hk : ∀ ty, Agrees (k ()) (inTurn qs) fun b ps => T b (.ofType ty :: ps)) :
    Agrees (operandType >>= k) (inTurn (Pairs.operandType :: qs)) T := by
  refine Agrees.cons agrees_operandType ?_
  rintro _ _ ⟨_, rfl, ty, rfl⟩
  exact hk ty

theorem agrees_target_bind
    (hk : ∀ n, Agrees (ks n) (inTurn qs) fun b ps => T b (.ofLocal n :: ps)) :
    Agrees (target >>= ks) (inTurn (Pairs.word "label" :: Pairs.localName :: qs)) T := by
  have h : Agrees (word "label" >>= fun _ => localName >>= ks)
      (inTurn (Pairs.word "label" :: Pairs.localName :: qs)) T :=
    agrees_word_bind (agrees_local_bind hk)
  refine h.of_read_eq fun text => ?_
  simp only [target, read_bind, Option.bind_assoc]

theorem agrees_phiSource : Agrees phiSource Pairs.phiSource (Single SourceToldBy) := by
  refine Agrees.of_part (R := fun s ps => ps = [s.1.pair, .ofLocal s.2]) ?_ ?_
  · apply agrees_word_bind
    apply agrees_operand_bind
    intro x
    apply agrees_word_bind
    apply agrees_local_bind
    intro b
    apply agrees_word_bind
    exact agrees_pure rfl
  · rintro s t _ rfl
    exact .intro s.1 s.2 t

theorem agrees_phi : Agrees phi Pairs.phi (Single Line.ToldBy) := by
  refine Agrees.of_part (R := fun l ps => ∃ n ty sources qs, l = .phi n sources ∧
    ps = .ofLocal n :: .ofType ty :: qs ∧ List.Forall₂ SourceToldBy sources qs) ?_ ?_
  · apply agrees_local_bind
    intro n
    apply agrees_word_bind
    apply agrees_word_bind
    apply agrees_type_bind
    intro ty
    refine (Agrees.commaSeparated agrees_phiSource).cons fun sources qs hall => agrees_pure ?_
    exact ⟨n, ty, sources, qs, rfl, by simp, hall⟩
  · rintro _ t _ ⟨n, ty, sources, qs, rfl, rfl, hall⟩
    exact .phi hall

theorem agrees_arith : Agrees arith Pairs.arith (Single Line.ToldBy) := by
  refine Agrees.of_part (R := fun l ps => ∃ n op ty x y, l = .arith n op x y ∧
    ps = [.ofLocal n, .of .arithOp op.text [], .ofType ty, x.pair, y.pair]) ?_ ?_
  · apply agrees_local_bind
    intro n
    apply agrees_word_bind
    refine Agrees.cons agrees_arithOp ?_
    rintro op _ ⟨_, rfl, rfl⟩
    apply agrees_type_bind
    intro ty
    apply agrees_operand_bind
    intro x
    apply agrees_word_bind
    apply agrees_operand_bind
    intro y
    exact agrees_pure ⟨n, op, ty, x, y, rfl, rfl⟩
  · rintro _ t _ ⟨n, op, ty, x, y, rfl, rfl⟩
    exact .arith

theorem agrees_neg : Agrees neg Pairs.neg (Single Line.ToldBy) := by
  refine Agrees.of_part (R := fun l ps => ∃ n ty x, l = .neg n x ∧
    ps = [.ofLocal n, .ofType ty, x.pair]) ?_ ?_
  · apply agrees_local_bind
    intro n
    apply agrees_word_bind
    apply agrees_word_bind
    apply agrees_type_bind
    intro ty
    apply agrees_operand_bind
    intro x
    exact agrees_pure ⟨n, ty, x, rfl, rfl⟩
  · rintro _ t _ ⟨n, ty, x, rfl, rfl⟩
    exact .neg

theorem agrees_compare : Agrees compare Pairs.compare (Single Line.ToldBy) := by
  refine Agrees.of_part (R := fun l ps => ∃ n op ty x y, l = .compare n op x y ∧
    ps = [.ofLocal n, .of .comparison op.text [], .ofType ty, x.pair, y.pair]) ?_ ?_
  · apply agrees_local_bind
    intro n
    apply agrees_word_bind
    apply agrees_word_bind
    refine Agrees.cons agrees_comparison ?_
    rintro op _ ⟨_, rfl, rfl⟩
    apply agrees_type_bind
    intro ty
    apply agrees_operand_bind
    intro x
    apply agrees_word_bind
    apply agrees_operand_bind
    intro y
    exact agrees_pure ⟨n, op, ty, x, y, rfl, rfl⟩
  · rintro _ t _ ⟨n, op, ty, x, y, rfl, rfl⟩
    exact .compare

theorem agrees_ordinary : Agrees ordinary Pairs.ordinary (Single Line.ToldBy) :=
  Agrees.orElse agrees_arith (Agrees.orElse agrees_neg agrees_compare)

theorem agrees_branch : Agrees branch Pairs.branch (Single Line.ToldBy) := by
  refine Agrees.of_part (R := fun l ps => ∃ ty x b c, l = .branch x b c ∧
    ps = [.ofType ty, x.pair, .ofLocal b, .ofLocal c]) ?_ ?_
  · apply agrees_word_bind
    apply agrees_type_bind
    intro ty
    apply agrees_operand_bind
    intro x
    apply agrees_word_bind
    apply agrees_target_bind
    intro b
    apply agrees_word_bind
    apply agrees_target_bind
    intro c
    exact agrees_pure ⟨ty, x, b, c, rfl, rfl⟩
  · rintro _ t _ ⟨ty, x, b, c, rfl, rfl⟩
    exact .branch

theorem agrees_jump : Agrees jump Pairs.jump (Single Line.ToldBy) := by
  refine Agrees.of_part (R := fun l ps => ∃ b, l = .jump b ∧ ps = [.ofLocal b]) ?_ ?_
  · apply agrees_word_bind
    apply agrees_target_bind
    intro b
    exact agrees_pure ⟨b, rfl, rfl⟩
  · rintro _ t _ ⟨b, rfl, rfl⟩
    exact .jump

theorem agrees_ret : Agrees ret Pairs.ret (Single Line.ToldBy) := by
  refine Agrees.of_part (R := fun l ps => l = .ret none ∧ ps = [] ∨
    ∃ ty x, l = .ret (some x) ∧ ps = [.ofType ty, x.pair]) ?_ ?_
  · apply agrees_word_bind
    apply Agrees.last
    apply Agrees.orElse
    · refine (agrees_silent (word "void")).map fun _ ps hps => ?_
      exact .inl ⟨rfl, hps⟩
    · apply agrees_type_bind
      intro ty
      apply agrees_operand_bind
      intro x
      exact agrees_pure (.inr ⟨ty, x, rfl, rfl⟩)
  · rintro _ t _ (⟨rfl, rfl⟩ | ⟨ty, x, rfl, rfl⟩)
    · exact .retNone
    · exact .retSome

theorem agrees_terminator : Agrees terminator Pairs.terminator (Single Line.ToldBy) :=
  Agrees.orElse agrees_branch (Agrees.orElse agrees_jump agrees_ret)

theorem agrees_block : Agrees block Pairs.block (Single Section.ToldBy) := by
  refine Agrees.of_part (R := fun s ps => ∃ t qs, ps = .of .label t [.ofName s.label] :: qs ∧
    List.Forall₂ Line.ToldBy s.lines qs) ?_ ?_
  · refine Agrees.cons agrees_label ?_
    rintro n _ ⟨_, rfl, t, rfl⟩
    refine (Agrees.many agrees_phi).cons fun phis ps hphis => ?_
    refine (Agrees.many agrees_ordinary).cons fun body ps' hbody => ?_
    refine Agrees.cons agrees_terminator ?_
    rintro last _ ⟨p, rfl, hlast⟩
    refine agrees_pure ⟨t, ps ++ ps' ++ [p], by simp, ?_⟩
    exact List.rel_append (List.rel_append hphis hbody) (.cons hlast .nil)
  · rintro ⟨n, lines⟩ t _ ⟨t', qs, rfl, hlines⟩
    exact .intro hlines

theorem agrees_param : Agrees param Pairs.param (Single ParamToldBy) := by
  refine Agrees.of_part (R := fun n ps => ∃ ty, ps = [.ofType ty, .ofLocal n]) ?_ ?_
  · apply agrees_type_bind
    intro ty
    refine (Agrees.last agrees_localName).mono ?_
    rintro n _ ⟨_, rfl, rfl⟩
    exact ⟨ty, rfl⟩
  · rintro n t _ ⟨ty, rfl⟩
    exact .intro n t ty

end Lines

section Programs

theorem agrees_definition : Agrees definition Pairs.definition (Single Definition.ToldBy) := by
  refine Agrees.of_part (R := fun d ps => ∃ qs bs, List.Forall₂ ParamToldBy d.params qs ∧
    List.Forall₂ Section.ToldBy d.sections bs ∧ ps = .of .resultType d.returns.text [] ::
      .marked .globalName '@' d.name :: (qs ++ bs)) ?_ ?_
  · apply agrees_word_bind
    refine Agrees.cons agrees_resultType ?_
    rintro returns _ ⟨_, rfl, rfl⟩
    refine Agrees.cons agrees_globalName ?_
    rintro n _ ⟨_, rfl, rfl⟩
    apply agrees_word_bind
    refine ((Agrees.commaSeparated agrees_param).orElse (agrees_pure .nil)).cons
      fun params qs hparams => ?_
    apply agrees_word_bind
    apply agrees_word_bind
    refine Agrees.cons (R := List.Forall₂ Section.ToldBy) ?_ fun sections bs hsections => ?_
    · refine Agrees.cons agrees_block ?_
      rintro s _ ⟨p, rfl, hs⟩
      refine (Agrees.many agrees_block).cons fun ss ps hss => agrees_pure ?_
      rw [List.append_nil]
      exact .cons hs hss
    · apply agrees_word_bind
      exact agrees_pure ⟨qs, bs, hparams, hsections, by simp⟩
  · rintro ⟨returns, n, params, sections⟩ t _ ⟨qs, bs, hparams, hsections, rfl⟩
    exact .intro hparams hsections

theorem agrees_endOfText : Agrees endOfText Pairs.endOfText
    (Single fun _ p => ∃ t, p = .of .endOfText t []) := by
  have h : Agrees (part .endOfText endOfText) Pairs.endOfText
      (Single fun _ p => ∃ t, p = .of .endOfText t []) := by
    refine (agrees_silent endOfText).of_part ?_
    rintro _ t _ rfl
    exact ⟨t, rfl⟩
  exact h.of_read_eq fun text => by rw [endOfText, read_part, read_part, read_part, skip_skip]

theorem agrees_program : Agrees program Pairs.program (Single ProgramToldBy) := by
  intro text
  have hinner : Agrees (do let defs ← Reader.many definition; endOfText; return defs)
      (inTurn [star Pairs.definition, Pairs.endOfText]) fun ds ps => ∃ qs t,
        List.Forall₂ Definition.ToldBy ds qs ∧ ps = qs ++ [.of .endOfText t []] := by
    refine (Agrees.many agrees_definition).cons fun ds qs hds => ?_
    refine Agrees.cons agrees_endOfText ?_
    rintro _ _ ⟨_, rfl, t, rfl⟩
    exact agrees_pure ⟨qs, t, hds, by simp⟩
  refine (hinner text).pairHere ?_
  rintro ds _ rest - ⟨qs, t, hds, rfl⟩
  exact .intro hds

end Programs

end Reader

/-- A text is a program for both readings or for none, and the pairs tell the listing. -/
theorem pairs?_cases (text : String) : read? text = none ∧ pairs? text = none ∨
    ∃ ds p, read? text = some ds ∧ pairs? text = some [p] ∧ ProgramToldBy ds p := by
  rw [read?, pairs?]
  rcases Reader.agrees_program text.toList with ⟨hr, hq⟩ | ⟨ds, _, rest, hr, hq, p, rfl, hp⟩
  · rw [hr, hq]
    exact .inl ⟨rfl, rfl⟩
  · rw [hr, hq]
    exact .inr ⟨ds, p, rfl, rfl, hp⟩

end LoopBounds.Listing
