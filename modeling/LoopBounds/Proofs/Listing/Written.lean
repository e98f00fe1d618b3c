import LoopBounds.Func.Text
import LoopBounds.Listing.Resolve
import Mathlib.Tactic

/-!
# Listings as they are written

A listing that has been read consists of names and literals that can be written down again.
Its blocks are phis, then ordinary instructions, then a terminator. Written in the form in
which functions are printed, it has a comment with the predecessors at every label.
-/

namespace LoopBounds.Listing

section Tokens

/-- A name is a nonempty run of name characters. -/
def IsName (s : String) : Prop := s.toList ≠ [] ∧ ∀ c ∈ s.toList, Reader.isNameChar c = true

/-- A literal is a nonempty run of digits, perhaps after a minus sign. -/
def IsLiteral (s : String) : Prop :=
  ∃ sign digits, s.toList = sign ++ digits ∧ (sign = [] ∨ sign = ['-']) ∧ digits ≠ [] ∧
    ∀ c ∈ digits, c.isDigit = true

theorem isDigit_of_mem_repr {n : ℕ} {c : Char} (hc : c ∈ (Nat.repr n).toList) :
    c.isDigit = true := by
  rw [Nat.repr_eq_ofList_toDigits, String.toList_ofList] at hc
  exact Nat.isDigit_of_mem_toDigits (by decide) (by decide) hc

theorem repr_ne_nil (n : ℕ) : (Nat.repr n).toList ≠ [] := by
  rw [Nat.repr_eq_ofList_toDigits, String.toList_ofList]
  exact Nat.toDigits_ne_nil

theorem isLiteral_toString (z : ℤ) : IsLiteral (toString z) := by
  cases z with
  | ofNat n =>
    exact ⟨[], (Nat.repr n).toList, rfl, .inl rfl, repr_ne_nil n, fun _ => isDigit_of_mem_repr⟩
  | negSucc n =>
    refine ⟨['-'], (Nat.repr (n + 1)).toList, ?_, .inr rfl, repr_ne_nil _,
      fun _ => isDigit_of_mem_repr⟩
    change ("-" ++ Nat.repr (n + 1)).toList = _
    rw [String.toList_append]
    rfl

theorem digitsValue_repr (n : ℕ) : digitsValue (Nat.repr n).toList = n := by
  rw [Nat.repr_eq_ofList_toDigits, String.toList_ofList]
  exact Nat.ofDigitChars_toDigits (by decide) (by decide)

theorem literalValue_toString (z : ℤ) : literalValue (toString z) = z := by
  unfold literalValue
  cases z with
  | ofNat n =>
    have hrepr : toString (Int.ofNat n) = Nat.repr n := rfl
    rw [hrepr]
    split
    · rename_i rest hrest
      have : '-' ∈ (Nat.repr n).toList := hrest ▸ List.mem_cons_self
      exact absurd (isDigit_of_mem_repr this) (by decide)
    · rw [digitsValue_repr]
      rfl
  | negSucc n =>
    have heq : (toString (Int.negSucc n)).toList = '-' :: (Nat.repr (n + 1)).toList := by
      change ("-" ++ Nat.repr (n + 1)).toList = _
      rw [String.toList_append]
      rfl
    rw [heq]
    change -(digitsValue (Nat.repr (n + 1)).toList : ℤ) = _
    rw [digitsValue_repr]
    rfl

theorem readLiteral_toString (v : Int32) : readLiteral (toString v.toInt) = .ok v := by
  rw [readLiteral, literalValue_toString, Word.narrow?_toInt]

theorem isName_temporaryName (k : ℕ) : IsName (Func.temporaryName k) := by
  have heq : (Func.temporaryName k).toList = 't' :: (Nat.repr k).toList := by
    change ("t" ++ Nat.repr k).toList = _
    rw [String.toList_append]
    rfl
  rw [IsName, heq]
  refine ⟨List.cons_ne_nil _ _, List.forall_mem_cons.mpr ⟨by decide, fun c hc => ?_⟩⟩
  simp [Reader.isNameChar, Char.isAlphanum, isDigit_of_mem_repr hc]

theorem temporaryName_injective : Function.Injective Func.temporaryName := by
  intro j k h
  have heq : "t" ++ Nat.repr j = "t" ++ Nat.repr k := h
  rw [← digitsValue_repr j, ← digitsValue_repr k, (String.append_right_inj "t").mp heq]

theorem constantName_injective : Function.Injective Func.constantName := by
  intro v w h
  have htext : toString v.toInt = toString w.toInt := (String.append_right_inj "c").mp h
  have hread := readLiteral_toString v
  rw [htext, readLiteral_toString w] at hread
  exact (Except.ok.inj hread).symm

theorem constantName_ne_temporaryName (v : Int32) (k : ℕ) :
    Func.constantName v ≠ Func.temporaryName k := by
  intro h
  have hchars := congrArg String.toList h
  rw [Func.constantName, Func.temporaryName, String.toList_append, String.toList_append] at hchars
  exact absurd (List.cons.inj hchars).1 (by decide)

end Tokens

section Lines

def Line.isPhi : Line → Bool
  | .phi .. => true
  | _ => false

/-- A line that ends a block; it defines nothing. -/
def Line.isTerminator (l : Line) : Bool := l.defines?.isNone

def Line.targets : Line → List String
  | .jump t => [t]
  | .branch _ t e => [t, e]
  | _ => []

def Operand.WellFormed : Operand → Prop
  | .value name => IsName name
  | .literal digits => IsLiteral digits

def Line.WellFormed : Line → Prop
  | .phi name sources =>
      IsName name ∧ sources ≠ [] ∧ ∀ s ∈ sources, s.1.WellFormed ∧ IsName s.2
  | .arith name _ x y | .compare name _ x y => IsName name ∧ x.WellFormed ∧ y.WellFormed
  | .neg name x => IsName name ∧ x.WellFormed
  | .jump t => IsName t
  | .branch c t e => c.WellFormed ∧ IsName t ∧ IsName e
  | .ret value => ∀ x ∈ value, x.WellFormed

/-- Phis come first, and the last line is the only terminator. -/
def Section.Ordered (s : Section) : Prop :=
  ∃ phis body last, s.lines = phis ++ body ++ [last] ∧ (∀ l ∈ phis, l.isPhi = true) ∧
    (∀ l ∈ body, l.isPhi = false ∧ l.isTerminator = false) ∧ last.isTerminator = true

structure Section.WellFormed (s : Section) : Prop where
  label : IsName s.label
  lines : ∀ l ∈ s.lines, l.WellFormed
  ordered : s.Ordered

/-- What has been read can be written down again. -/
structure Definition.WellFormed (d : Definition) : Prop where
  returns : d.returns ≠ .i1
  name : IsName d.name
  params : ∀ p ∈ d.params, IsName p
  nonempty : d.sections ≠ []
  sections : ∀ s ∈ d.sections, s.WellFormed

end Lines

section Text

def Operand.text : Operand → String
  | .value name => "%" ++ name
  | .literal digits => digits

def sourceText (s : Operand × String) : String := "[" ++ s.1.text ++ ", %" ++ s.2 ++ "]"

/-- The words that tell what kind of line it is. -/
def Line.keyword : Line → String
  | .phi .. => "phi"
  | .arith _ op _ _ => op.text
  | .neg .. => "neg"
  | .compare .. => "icmp"
  | .jump _ => "br label"
  | .branch .. => "br i1"
  | .ret _ => "ret"

/-- What follows these words, after a blank. -/
def Line.rest : Line → String
  | .phi _ sources => "i32 " ++ ", ".intercalate (sources.map sourceText)
  | .arith _ _ x y => "i32 " ++ x.text ++ ", " ++ y.text
  | .neg _ x => "i32 " ++ x.text
  | .compare _ op x y => op.text ++ " i32 " ++ x.text ++ ", " ++ y.text
  | .jump t => "%" ++ t
  | .branch c t e => c.text ++ ", label %" ++ t ++ ", label %" ++ e
  | .ret none => "void"
  | .ret (some x) => "i32 " ++ x.text

/-- A line without the name that it defines. -/
def Line.value (l : Line) : String := l.keyword ++ " " ++ l.rest

def Line.text (l : Line) : String :=
  match l.defines? with
  | some name => "%" ++ name ++ " = " ++ l.value
  | none => l.value

/-- The positions of the blocks that lead to a label. -/
def Definition.preds (d : Definition) (label : String) : List Nat :=
  (d.sections.zipIdx.filter fun t => label ∈ t.1.lines.flatMap Line.targets).map Prod.snd

/-- The comment after the label of the block at position `i`. -/
def commentText (i : Nat) (preds : List Nat) : String :=
  "    ; " ++ BlockId.text ⟨i⟩ ++ " prev: [" ++ ", ".intercalate (preds.map toString) ++ "]"

def lineText (l : Line) : String := "  " ++ l.text ++ "\n"

def Section.text (s : Section) (i : Nat) (preds : List Nat) : String :=
  s.label ++ ":" ++ commentText i preds ++ "\n" ++ String.join (s.lines.map lineText)

def Definition.text (d : Definition) : String :=
  "define " ++ d.returns.text ++ " @" ++ d.name ++ "("
    ++ ", ".intercalate (d.params.map fun p => "i32 %" ++ p) ++ ") \x7b\n"
    ++ String.join (d.sections.zipIdx.map fun t => t.1.text t.2 (d.preds t.1.label)) ++ "\x7d"

end Text

end LoopBounds.Listing
