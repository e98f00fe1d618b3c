import LoopBounds.Listing.Mistake

/-!
# Readers

A reader has two sides. `read` takes the remaining text and returns what it read with
the text that is left. `misses` follows the same reading and collects the parts that it
looked for and did not find; it has no influence on what is read.

A choice takes the first alternative that reads, and a repetition reads on as long as it
can and never gives anything back.
-/

namespace LoopBounds.Listing

structure Reader (α : Type) where
  read : List Char → Option (α × List Char)
  misses : List Char → Misses → Misses

namespace Reader

variable {α β : Type}

/-- A reader that looks for nothing that a report names. -/
def plain (read : List Char → Option (α × List Char)) : Reader α := ⟨read, fun _ m => m⟩

def bind (r : Reader α) (next : α → Reader β) : Reader β where
  read text :=
    match r.read text with
    | some (a, rest) => (next a).read rest
    | none => none
  misses text m :=
    match r.read text with
    | some (a, rest) => (next a).misses rest (r.misses text m)
    | none => r.misses text m

instance : Monad Reader where
  pure a := plain fun text => some (a, text)
  bind := bind

/-- The first of two alternatives that reads. -/
def orElse (r s : Reader α) : Reader α where
  read text :=
    match r.read text with
    | some result => some result
    | none => s.read text
  misses text m :=
    match r.read text with
    | some _ => r.misses text m
    | none => s.misses text (r.misses text m)

instance : OrElse (Reader α) := ⟨fun r s => r.orElse (s ())⟩

@[simp] theorem read_pure (a : α) (text : List Char) :
    (pure a : Reader α).read text = some (a, text) := rfl

@[simp] theorem read_bind (r : Reader α) (next : α → Reader β) (text : List Char) :
    (r >>= next).read text = (r.read text).bind fun x => (next x.1).read x.2 := by
  change (match r.read text with
    | some (a, rest) => (next a).read rest
    | none => none) = _
  cases r.read text <;> rfl

@[simp] theorem read_orElse (r s : Reader α) (text : List Char) :
    (r <|> s).read text = (r.read text <|> s.read text) := by
  change (match r.read text with
    | some result => some result
    | none => s.read text) = _
  cases r.read text <;> rfl

def blanks : Reader Unit := plain fun text => some ((), skip text)

/-- The part `p`, which begins at this very place and is read by `r`. -/
def partHere (p : Part) (r : Reader α) : Reader α where
  read := r.read
  misses text m :=
    let inside := r.misses text m
    match r.read text with
    | some _ => inside
    | none => inside.add p text.length (m.countAt text.length)

/-- The part `p` after blanks and comments. -/
def part (p : Part) (r : Reader α) : Reader α := do
  blanks
  partHere p r

/-- The text after `word`, when the text starts with it. -/
def strip? : List Char → List Char → Option (List Char)
  | [], rest => some rest
  | _ :: _, [] => none
  | c :: word, d :: rest => if c = d then strip? word rest else none

/-- A fixed word or mark. What follows it may touch it. -/
def word (w : String) : Reader Unit := plain fun text =>
  (strip? w.toList (skip text)).map ((), ·)

/-- The first of several words that the text starts with, and what it stands for. -/
def oneOf (words : List (String × α)) : Reader α := plain fun text =>
  words.findSome? fun w => (strip? w.1.toList (skip text)).map (w.2, ·)

/-- One given character, at this very place. -/
def char (c : Char) : Reader Unit := plain fun text =>
  match text with
  | d :: rest => if d = c then some ((), rest) else none
  | [] => none

/-- The longest nonempty run of characters with property `p`, at this very place. -/
def run (p : Char → Bool) : Reader String := plain fun text =>
  match text.takeWhile p with
  | [] => none
  | taken => some (String.ofList taken, text.dropWhile p)

theorem read_run_eq (p : Char → Bool) (text : List Char) : (run p).read text =
    if text.takeWhile p = [] then none
    else some (String.ofList (text.takeWhile p), text.dropWhile p) := by
  unfold run plain
  dsimp only
  split
  · rw [if_pos ‹_›]
  · rw [if_neg ‹_›]

/-- Reads as many items as there are, at most `fuel`. -/
def manyUpTo (item : Reader α) : Nat → List Char → List α × List Char
  | 0, text => ([], text)
  | fuel + 1, text =>
      match item.read text with
      | none => ([], text)
      | some (a, rest) =>
          let (as, rest) := manyUpTo item fuel rest
          (a :: as, rest)

/-- The parts missed in reading as many items as there are, at most `fuel`. -/
def missesUpTo (item : Reader α) : Nat → List Char → Misses → Misses
  | 0, _, m => m
  | fuel + 1, text, m =>
      match item.read text with
      | none => item.misses text m
      | some (_, rest) => missesUpTo item fuel rest (item.misses text m)

/-- As many items as there are. Every item takes at least one character, so the length
of the text bounds their number, and one more look finds that there is none left. -/
def many (item : Reader α) : Reader (List α) where
  read text := some (manyUpTo item (text.length + 1) text)
  misses text m := missesUpTo item (text.length + 1) text m

def many1 (item : Reader α) : Reader (List α) := do
  return (← item) :: (← many item)

/-- At least one item, with commas between items. -/
def commaSeparated (item : Reader α) : Reader (List α) := do
  return (← item) :: (← many (do word ","; item))

end Reader

end LoopBounds.Listing
