import LoopBounds.Proofs.Guarded.Reads
import LoopBounds.Proofs.Listing.Pairs
import LoopBounds.Proofs.Listing.Resolution

/-!
# Guarded reading of pairs

The reader of functions takes the pairs inside a pair one after another, cuts the mark off a name,
and tells rules and operators apart. It takes for granted that a pair is there, that a name has a
mark, and that no other rule or word occurs. Here a pair that is missing, a text that cannot be cut
and a case that should not occur stop the run, and the pairs that tell a line never do.
-/

namespace LoopBounds.Guarded

open Listing

/-- A guarded run that may find something wrong with the text. -/
abbrev Parsing := ExceptT Error Guarded

section Steps

variable {α β γ : Type}

/-- The outcome of a step that looks nothing up. -/
def raised (e : Except Error α) : Parsing α := ExceptT.mk (pure e)

@[simp] theorem run_raised (e : Except Error α) : (raised e).run = pure e := rfl

@[simp] theorem raised_pure (a : α) : raised (pure a) = pure a := rfl

@[simp] theorem liftM_pure_parsing (a : α) : (liftM (pure a : Guarded α) : Parsing α) = pure a :=
  rfl

theorem raised_bind_of {e : Except Error α} {next : α → Parsing β} {next' : α → Except Error β}
    (h : ∀ a, e = .ok a → next a = raised (next' a)) :
    raised e >>= next = raised (e >>= next') := by
  cases e with
  | error _ => rfl
  | ok a => exact h a rfl

theorem raised_bind (e : Except Error α) (next : α → Except Error β) :
    raised (e >>= next) = raised e >>= fun a => raised (next a) :=
  (raised_bind_of fun _ _ => rfl).symm

theorem raised_bind_congr {e : Except Error α} {next next' : α → Parsing β}
    (h : ∀ a, e = .ok a → next a = next' a) : raised e >>= next = raised e >>= next' := by
  cases e with
  | error _ => rfl
  | ok a => exact h a rfl

theorem raised_map (g : α → β) (e : Except Error α) : raised (g <$> e) = g <$> raised e := by
  cases e <;> rfl

/-- Steps that are taken over `l'` as `k` takes them over `l`, where `S` relates the elements at
the same place, while `I` holds of what is left of `l` to do. The right ones keep `I`. -/
theorem foldlM_raised {I : List α → β → Prop} {S : α → γ → Prop} {g : β → γ → Parsing β}
    {k : β → α → Except Error β}
    (h : ∀ a c rest b, S a c → I (a :: rest) b →
      g b c = raised (k b a) ∧ ∀ b', k b a = .ok b' → I rest b')
    {l : List α} {l' : List γ} {b : β} (hl : List.Forall₂ S l l') (hb : I l b) :
    l'.foldlM g b = raised (l.foldlM k b) ∧ ∀ b', l.foldlM k b = .ok b' → I [] b' := by
  induction hl generalizing b with
  | nil =>
    refine ⟨rfl, fun b' hb' => ?_⟩
    obtain rfl := Except.ok.inj hb'
    exact hb
  | cons ha _ ih =>
    obtain ⟨hstep, hkeeps⟩ := h _ _ _ b ha hb
    rw [List.foldlM_cons, List.foldlM_cons, hstep]
    refine ⟨raised_bind_of fun b' hb' => (ih (hkeeps b' hb')).1, fun b'' hb'' => ?_⟩
    obtain ⟨b', hb', hrest⟩ := bind_eq_ok_iff.mp hb''
    exact (ih (hkeeps b' hb')).2 b'' hrest

theorem mapM_raised {S : α → γ → Prop} {g : γ → Parsing β} {k : α → Except Error β}
    (h : ∀ a c, S a c → g c = raised (k a)) {l : List α} {l' : List γ}
    (hl : List.Forall₂ S l l') : l'.mapM g = raised (l.mapM k) := by
  induction hl with
  | nil => rfl
  | cons ha _ ih =>
    simp only [List.mapM_cons, h _ _ ha, ih]
    exact raised_bind_of fun b _ => raised_bind_of fun bs _ => rfl

end Steps

section Pairs

/-- The next one of several pairs, and those after it. -/
def next : List Pair → Guarded (Pair × List Pair)
  | p :: rest => pure (p, rest)
  | [] => throw .noElement

/-- The text of a pair without its first byte, which must be a character of its own. -/
def unmarked (p : Pair) : Guarded String :=
  match p.text.toList with
  | c :: rest => do
      check .slice (c.utf8Size = 1)
      return String.ofList rest
  | [] => throw .slice

/-- Every word but one is taken for a word of integers. -/
def resultTypeOf (p : Pair) : ResultType := if p.text = "void" then .void else .i32

def arithOpOf (p : Pair) : Guarded ArithOp :=
  found .unreachable (ArithOp.all.find? fun op => op.text = p.text)

def comparisonOf (p : Pair) : Guarded Comparison :=
  found .unreachable (Comparison.all.find? fun op => op.text = p.text)

variable (names : Names) (f : Func)

def operandOf (p : Pair) : Parsing InstrId :=
  match p.rule with
  | .integer => raised (names.operand f (.literal p.text))
  | .localName => do raised (names.operand f (.value (← unmarked p)))
  | _ => liftM (throw .unreachable : Guarded InstrId)

def labelOf (p : Pair) : Parsing BlockId := do raised (names.label (← unmarked p))

def sourceOf (p : Pair) : Parsing (InstrId × BlockId) := do
  let (x, ps) ← next p.inner
  let value ← operandOf names f x
  let (b, _) ← next ps
  return (value, ← labelOf names b)

/-- The instruction that the pair of a line stands for. -/
def instrOf (p : Pair) : Parsing Instr :=
  match p.rule with
  | .phi => do return .phi (← (p.inner.drop 2).mapM (sourceOf names f))
  | .arith => do
      let (o, ps) ← next (p.inner.drop 1)
      let op ← arithOpOf o
      let (x, ps) ← next (ps.drop 1)
      let left ← operandOf names f x
      let (y, _) ← next ps
      return .arith op left (← operandOf names f y)
  | .neg => do
      let (x, _) ← next (p.inner.drop 2)
      return .neg (← operandOf names f x)
  | .compare => do
      let (o, ps) ← next (p.inner.drop 1)
      let op ← comparisonOf o
      let (x, ps) ← next (ps.drop 1)
      let left ← operandOf names f x
      let (y, _) ← next ps
      return .compare op left (← operandOf names f y)
  | .jump => do
      let (t, _) ← next p.inner
      return .jump (← labelOf names t)
  | .branch => do
      let (c, ps) ← next (p.inner.drop 1)
      let condition ← operandOf names f c
      let (t, ps) ← next ps
      let ifTrue ← labelOf names t
      let (e, _) ← next ps
      return .branch condition ifTrue (← labelOf names e)
  | .ret =>
      match p.inner[1]? with
      | some x => do return .ret (some (← operandOf names f x))
      | none => return .ret none
  | _ => liftM (throw .unreachable : Guarded Instr)

def definedName? (p : Pair) : Guarded (Option String) :=
  match p.rule with
  | .phi | .arith | .neg | .compare => p.inner.head?.mapM unmarked
  | _ => return none

/-- The integer literals in several pairs, however deep. -/
def literalsIn (ps : List Pair) : List String :=
  ((Pair.allOf ps).filter fun q => q.rule = .integer).map Pair.text

variable {names f} {n : String} {rule : Part} {x : Operand} {l : Line} {p : Pair}

@[simp] theorem next_cons (p : Pair) (ps : List Pair) : next (p :: ps) = pure (p, ps) := rfl

theorem unmarked_marked {mark : Char} (h : mark.utf8Size = 1) :
    unmarked (.marked rule mark n) = pure n := by
  simp only [unmarked, Pair.marked, Pair.text_of, String.toList_ofList, check_eq h, pure_bind,
    String.ofList_toList]

@[simp] theorem unmarked_ofLocal (n : String) : unmarked (.ofLocal n) = pure n :=
  unmarked_marked (by decide)

theorem resultTypeOf_text {t : ResultType} (h : t ≠ .i1) (rule : Part) (ps : List Pair) :
    resultTypeOf (.of rule t.text ps) = t := by
  cases t with
  | i1 => exact absurd rfl h
  | i32 | void => rfl

@[simp] theorem arithOpOf_text (rule : Part) (op : ArithOp) (ps : List Pair) :
    arithOpOf (.of rule op.text ps) = pure op := by
  cases op <;> rfl

@[simp] theorem comparisonOf_text (rule : Part) (op : Comparison) (ps : List Pair) :
    comparisonOf (.of rule op.text ps) = pure op := by
  cases op <;> rfl

@[simp] theorem operandOf_pair (x : Operand) :
    operandOf names f x.pair = raised (names.operand f x) := by
  cases x with
  | value n =>
    have h : operandOf names f (Operand.value n).pair =
        liftM (unmarked (.ofLocal n)) >>= fun n => raised (names.operand f (.value n)) := rfl
    rw [h, unmarked_ofLocal, liftM_pure_parsing, pure_bind]
  | literal digits => rfl

@[simp] theorem labelOf_ofLocal (n : String) :
    labelOf names (.ofLocal n) = raised (names.label n) := by
  rw [labelOf, unmarked_ofLocal, liftM_pure_parsing, pure_bind]

theorem sourceOf_eq {s : Operand × String} (h : SourceToldBy s p) :
    sourceOf names f p = raised (names.source f s) := by
  cases h with
  | intro x b t => simp [sourceOf, Names.source, raised_bind, raised_map]

theorem instrOf_eq (h : l.ToldBy p) : instrOf names f p = raised (names.instr f l) := by
  cases h with
  | phi h =>
    have hsources := mapM_raised (fun s p (h : SourceToldBy s p) => sourceOf_eq h) h
      (g := sourceOf names f) (k := names.source f)
    simp [instrOf, Names.instr, raised_map, hsources]
  | retNone => rfl
  | _ => simp [instrOf, Names.instr, raised_bind, raised_map]

theorem definedName?_eq (h : l.ToldBy p) : definedName? p = pure l.defines? := by
  cases h <;> simp [definedName?, Line.defines?]

@[simp] theorem literalsIn_nil : literalsIn [] = [] := rfl

theorem literalsIn_cons (rule : Part) (t : String) (qs ps : List Pair) :
    literalsIn (.of rule t qs :: ps) =
      (if rule = .integer then [t] else []) ++ literalsIn qs ++ literalsIn ps := by
  by_cases h : rule = .integer <;>
    simp [literalsIn, Pair.allOf, Pair.all, h]

@[simp] theorem literalsIn_marked (h : rule ≠ .integer) (mark : Char) (n : String)
    (ps : List Pair) : literalsIn (.marked rule mark n :: ps) = literalsIn ps := by
  simp [Pair.marked, Pair.ofName, literalsIn_cons, h]

@[simp] theorem literalsIn_ofLocal (n : String) (ps : List Pair) :
    literalsIn (.ofLocal n :: ps) = literalsIn ps := literalsIn_marked (by decide) '%' n ps

@[simp] theorem literalsIn_operand (x : Operand) (ps : List Pair) :
    literalsIn (x.pair :: ps) = x.literal?.toList ++ literalsIn ps := by
  cases x with
  | value n => exact literalsIn_ofLocal n ps
  | literal digits => simp [Operand.pair, Operand.literal?, literalsIn_cons]

theorem literalsIn_sources {sources : List (Operand × String)} {ps : List Pair}
    (h : List.Forall₂ SourceToldBy sources ps) :
    literalsIn ps = (sources.map Prod.fst).filterMap Operand.literal? := by
  induction h with
  | nil => rfl
  | cons hs _ ih =>
    cases hs with
    | intro x b t => cases hx : x.literal? <;> simp [literalsIn_cons, ih, hx]

/-- The literals of a line are found in its pair, in the same order. -/
theorem literalsIn_eq (h : l.ToldBy p) : literalsIn p.inner = l.literals := by
  cases h with
  | phi h => simp [Pair.ofType, literalsIn_cons, literalsIn_sources h, Line.literals,
      Line.operands]
  | @arith _ _ _ _ x y | @compare _ _ _ _ x y =>
    cases hx : x.literal? <;> cases hy : y.literal? <;>
      simp [Pair.ofType, literalsIn_cons, Line.literals, Line.operands, hx, hy]
  | @neg _ _ _ x | @branch _ _ _ _ x | @retSome _ _ x =>
    cases hx : x.literal? <;>
      simp [Pair.ofType, literalsIn_cons, Line.literals, Line.operands, hx]
  | jump | retNone => simp [Line.literals, Line.operands]

end Pairs

end LoopBounds.Guarded
