import LoopBounds.Descriptor.Basic
import LoopBounds.Proofs.Run.Arithmetic

/-!
# What descriptors denote

An invariant denotes the value of its operations, and a sequence one value for each
iteration. A periodic sequence has the member at place `n` modulo the length in iteration
`n`. A value can be some places ahead of the sequence, or be some member of it of which the
place is not known.
-/

namespace LoopBounds.Descriptor

/-- Invariants as they are stored: operations of constants and fetched values. -/
inductive IsTerm : Descriptor → Prop
  | constant (v) : IsTerm (constant v)
  | fetch (x) : IsTerm (fetch x)
  | neg {b} : IsTerm b → IsTerm (unary .neg b)
  | binary {op a b} : op ∈ [Operation.add, .sub, .mul, .div] → IsTerm a → IsTerm b →
      IsTerm (binary op a b)

/-- The members of a periodic sequence; anything else is its only member. -/
def members : Descriptor → List Descriptor
  | periodic a b => a :: members b
  | d => [d]

/-- Descriptors of values as they are stored. -/
inductive WellFormed : Descriptor → Prop
  | term {d} : IsTerm d → WellFormed d
  | linear {a b} : IsTerm a → IsTerm b → WellFormed (linear a b)
  | periodic {a b} : (∀ m ∈ (periodic a b).members, IsTerm m) → WellFormed (periodic a b)
  | wrapAround {a b} : IsTerm a → WellFormed b → WellFormed (wrapAround a b)

section Repeats

variable {R : Type}

/-- The value `r` is that of iteration `n` in a sequence that repeats the list `l` and is
`ahead` places on. Without a place this only says that `r` is one of the members. -/
def Repeats (ahead : Option ℕ) (l : List R) (n : ℕ) (r : R) : Prop :=
  match ahead with
  | some k => l[(n + k) % l.length]? = some r
  | none => r ∈ l

variable {ahead : Option ℕ} {l : List R} {n : ℕ} {r : R}

theorem Repeats.mem (h : Repeats ahead l n r) : r ∈ l := by
  cases ahead with
  | some k => exact List.mem_of_getElem? h
  | none => exact h

theorem Repeats.mono {ahead' : Option ℕ} (hle : ∀ k, ahead' = some k → ahead = some k)
    (h : Repeats ahead l n r) : Repeats ahead' l n r := by
  cases ahead' with
  | some k => exact hle k rfl ▸ h
  | none => exact h.mem

theorem Repeats.map (h : Repeats ahead l n r) (g : R → R) :
    Repeats ahead (l.map g) n (g r) := by
  cases ahead with
  | some k =>
    change (l.map g)[(n + k) % (l.map g).length]? = some (g r)
    rw [List.length_map, List.getElem?_map, show l[(n + k) % l.length]? = some r from h]
    rfl
  | none => exact List.mem_map_of_mem h

end Repeats

variable {R : Type} [Arithmetic R] {ρ : InstrId → R}

/-- The value of an invariant, where `ρ` reads the fetched values. -/
def value (ρ : InstrId → R) : Descriptor → R
  | constant v => ofWord R v
  | fetch x => ρ x
  | unary .neg b | binary .neg _ b => -value ρ b
  | binary .add a b => value ρ a + value ρ b
  | binary .sub a b => value ρ a - value ρ b
  | binary .mul a b => value ρ a * value ρ b
  | binary .div a b => Arithmetic.quot (value ρ a) (value ρ b)
  | _ => 0

/-- The descriptor gives the value `r` to iteration `n`, where periodic sequences are `ahead`
places on. -/
def Describes (ahead : Option ℕ) (ρ : InstrId → R) : Descriptor → ℕ → R → Prop
  | linear a b, n, r => r = value ρ a * n + value ρ b
  | periodic a b, n, r => Repeats ahead ((periodic a b).members.map (value ρ)) n r
  | wrapAround a _, 0, r => r = value ρ a
  | wrapAround _ b, n + 1, r => Describes ahead ρ b n r
  | tripCount .., _, _ | guardedCount .., _, _ => False
  | d, _, r => r = value ρ d

/-- The value that a descriptor gives to iteration `n`, where periodic sequences are taken
from place `k` on. -/
def valueFrom (k : ℕ) (ρ : InstrId → R) : Descriptor → ℕ → R
  | linear a b, n => value ρ a * n + value ρ b
  | periodic a b, n =>
      let l := (periodic a b).members.map (value ρ)
      l[(n + k) % l.length]?.getD 0
  | wrapAround a _, 0 => value ρ a
  | wrapAround _ b, n + 1 => valueFrom k ρ b n
  | d, _ => value ρ d

def valueAt (ρ : InstrId → R) (d : Descriptor) (n : ℕ) : R := d.valueFrom 0 ρ n

theorem IsTerm.isInvariant {d : Descriptor} (h : IsTerm d) : d.isInvariant = true := by
  cases h <;> rfl

theorem members_ne_nil (d : Descriptor) : d.members ≠ [] := by
  cases d <;> simp [members]

theorem IsTerm.members_eq {d : Descriptor} (h : IsTerm d) : d.members = [d] := by
  cases h <;> rfl

theorem WellFormed.isTerm {d : Descriptor} (h : WellFormed d) (hi : d.isInvariant = true) :
    IsTerm d := by
  cases h with
  | term h => exact h
  | _ => cases hi

theorem describes_of_isTerm {d : Descriptor} (h : IsTerm d) {ahead : Option ℕ} {n : ℕ} {r : R} :
    Describes ahead ρ d n r ↔ r = value ρ d := by
  cases h <;> rfl

theorem Describes.mono {d : Descriptor} {ahead ahead' : Option ℕ}
    (hle : ∀ k, ahead' = some k → ahead = some k) {n : ℕ} {r : R}
    (h : Describes ahead ρ d n r) : Describes ahead' ρ d n r := by
  induction d generalizing n with
  | periodic a b => exact Repeats.mono hle h
  | wrapAround a b _ ih =>
    cases n with
    | zero => exact h
    | succ n => exact ih h
  | _ => exact h

/-- What is described is one of the values of the sequence. -/
theorem Describes.to_none {d : Descriptor} {ahead : Option ℕ} {n : ℕ} {r : R}
    (h : Describes ahead ρ d n r) : Describes none ρ d n r :=
  h.mono fun _ hk => by cases hk

/-- At a known place, a well-formed descriptor gives an iteration exactly one value. -/
theorem WellFormed.describes_iff {d : Descriptor} (h : WellFormed d) {k n : ℕ} {r : R} :
    Describes (some k) ρ d n r ↔ r = valueFrom k ρ d n := by
  induction h generalizing n with
  | term h => cases h <;> rfl
  | linear _ _ => rfl
  | @periodic a b _ =>
    have hlen : 0 < ((Descriptor.periodic a b).members.map (value ρ)).length := by
      rw [List.length_map, List.length_pos_iff]
      exact members_ne_nil _
    have hlt := Nat.mod_lt (n + k) hlen
    change _[_]? = some r ↔ r = _[_]?.getD 0
    rw [List.getElem?_eq_getElem hlt, Option.getD_some, Option.some.injEq, eq_comm]
  | @wrapAround a b _ _ ih =>
    cases n with
    | zero => rfl
    | succ n => exact ih

theorem WellFormed.exists_valueAt {d : Descriptor} (h : WellFormed d) {ahead : Option ℕ} {n : ℕ}
    {r : R} (hr : Describes ahead ρ d n r) : ∃ k, r = valueAt ρ d k := by
  induction h generalizing n with
  | @term d hd =>
    refine ⟨0, ?_⟩
    rw [describes_of_isTerm hd] at hr
    cases hd <;> exact hr
  | linear _ _ => exact ⟨n, hr⟩
  | @periodic a b _ =>
    obtain ⟨k, hk, heq⟩ := List.mem_iff_getElem.mp (Repeats.mem hr)
    refine ⟨k, ?_⟩
    change r = _[_]?.getD 0
    rw [Nat.add_zero, Nat.mod_eq_of_lt hk, List.getElem?_eq_getElem hk, Option.getD_some, heq]
  | @wrapAround a b _ _ ih =>
    cases n with
    | zero => exact ⟨0, hr⟩
    | succ n =>
      obtain ⟨k, hk⟩ := ih hr
      exact ⟨k + 1, hk⟩

end LoopBounds.Descriptor
