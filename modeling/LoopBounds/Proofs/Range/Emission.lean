import LoopBounds.Proofs.Descriptor.Fetched
import LoopBounds.Proofs.Descriptor.Value
import LoopBounds.Proofs.Func.Growth
import LoopBounds.Range.Code

/-!
# Writing code for bounds

The code for a descriptor only adds to the function: constants, and additions, subtractions,
negations and comparisons at the end of one block. Each of these reads fetched values and what
has been written before. So whatever rule the fetched values and the written ones obey is
obeyed by all code, also when the writing stops half way.

Where `canEmit` says so, the code for a term is written in full, and it reads all that the
term fetches.
-/

namespace LoopBounds

namespace Emit

variable {α β : Type} {I : Func → Prop} {g : Func}

/-- What running `e` on a function yields, and the function as it is then. -/
def outcome (e : Emit α) (g : Func) : Option α × Func := e.run.run g

@[simp] theorem outcome_pure (x : α) (g : Func) : outcome (pure x) g = (some x, g) := rfl

@[simp] theorem outcome_failure (g : Func) : outcome (failure : Emit α) g = (none, g) := rfl

@[simp] theorem outcome_constant (v : Int32) (g : Func) :
    outcome (Emit.constant v) g = (some (g.addConstant v).1, (g.addConstant v).2) := rfl

@[simp] theorem outcome_append (b : BlockId) (i : Instr) (g : Func) :
    outcome (Emit.append b i) g = (some g.nextId, g.addInstr b none i) := rfl

theorem outcome_bind (e : Emit α) (k : α → Emit β) (g : Func) :
    outcome (e >>= k) g = match outcome e g with
      | (some x, g') => outcome (k x) g'
      | (none, g') => (none, g') := by
  simp only [outcome, OptionT.run_bind, Option.elimM, StateT.run_bind]
  change (match e.run.run g with
    | (o, g') => StateT.run (o.elim (pure none) fun x => (k x).run) g') = _
  rcases e.run.run g with ⟨_ | x, g'⟩ <;> rfl

theorem outcome_bind_of_some {e : Emit α} {k : α → Emit β} {x : α} {g' : Func}
    (h : outcome e g = (some x, g')) : outcome (e >>= k) g = outcome (k x) g' := by
  rw [outcome_bind, h]

/-- Run on `g`, the code `e` leaves a function with `I` that has grown from `g`; if there is
a result, it has `Q` there. -/
structure Yields (I : Func → Prop) (e : Emit α) (g : Func) (Q : Func → α → Prop) : Prop where
  keeps : I (outcome e g).2
  grows : g.Extends (outcome e g).2
  result : ∀ x, (outcome e g).1 = some x → Q (outcome e g).2 x

section Yields

variable {Q : Func → α → Prop} {R : Func → β → Prop}

theorem yields_failure (hg : I g) : Yields I failure g Q :=
  ⟨hg, Func.extends_refl g, by simp⟩

theorem yields_pure {x : α} (hg : I g) (hx : Q g x) : Yields I (pure x) g Q where
  keeps := hg
  grows := Func.extends_refl g
  result _ hy := Option.some.inj hy ▸ hx

theorem Yields.bind {e : Emit α} {k : α → Emit β} (he : Yields I e g Q)
    (hk : ∀ x g', g.Extends g' → I g' → Q g' x → Yields I (k x) g' R) :
    Yields I (e >>= k) g R := by
  obtain ⟨hkeeps, hgrows, hresult⟩ := he
  cases h : outcome e g with
  | mk o g' =>
    rw [h] at hkeeps hgrows hresult
    cases o with
    | none =>
      have hnone : outcome (e >>= k) g = (none, g') := by rw [outcome_bind, h]
      exact ⟨by rwa [hnone], by rwa [hnone], by simp [hnone]⟩
    | some x =>
      obtain ⟨hkeeps', hgrows', hresult'⟩ := hk x g' hgrows hkeeps (hresult x rfl)
      rw [← outcome_bind_of_some h] at hkeeps' hgrows' hresult'
      exact ⟨hkeeps', hgrows.trans hgrows', hresult'⟩

end Yields

/-- A rule for code in block `target`: functions with `I` keep it when code is added whose
operands have `Q`, and what has been added has `Q` from then on. -/
structure Rule (target : BlockId) (I : Func → Prop) (Q : Func → InstrId → Prop) : Prop where
  constant : ∀ g v, I g → Yields I (Emit.constant v) g Q
  append : ∀ g i, I g → i.IsCode → (∀ y ∈ i.operands, Q g y) →
    Yields I (Emit.append target i) g Q
  mono : ∀ g g' y, I g → g.Extends g' → Q g y → Q g' y

/-- The code obeys the rule wherever it is run. -/
def Keeps (I : Func → Prop) (Q : Func → InstrId → Prop) (e : Emit InstrId) : Prop :=
  ∀ g, I g → Yields I e g Q

section Keeps

variable {target : BlockId} {Q : Func → InstrId → Prop} (hrule : Rule target I Q)

include hrule

theorem Rule.keeps_append₁ {e : Emit InstrId} {k : InstrId → Instr} (he : Keeps I Q e)
    (hk : ∀ x, (k x).IsCode ∧ ∀ z ∈ (k x).operands, z = x) :
    Keeps I Q (do Emit.append target (k (← e))) := by
  intro g hg
  refine (he g hg).bind fun x g' _ hg' hx => ?_
  exact hrule.append g' (k x) hg' (hk x).1 fun z hz => (hk x).2 z hz ▸ hx

theorem Rule.keeps_append₂ {e₁ e₂ : Emit InstrId} {k : InstrId → InstrId → Instr}
    (h₁ : Keeps I Q e₁) (h₂ : Keeps I Q e₂)
    (hk : ∀ x y, (k x y).IsCode ∧ ∀ z ∈ (k x y).operands, z = x ∨ z = y) :
    Keeps I Q (do
      let x ← e₁
      let y ← e₂
      Emit.append target (k x y)) := by
  intro g hg
  refine (h₁ g hg).bind fun x g₁ _ hg₁ hx => (h₂ g₁ hg₁).bind fun y g₂ hext hg₂ hy => ?_
  refine hrule.append g₂ (k x y) hg₂ (hk x y).1 fun z hz => ?_
  rcases (hk x y).2 z hz with rfl | rfl
  · exact hrule.mono g₁ g₂ z hg₁ hext hx
  · exact hy

end Keeps

/-- Run where there is a block `target`, the code has a result, and a valid function that has
grown further and has the result at the end of `target` has all of `reads` there, too. -/
def Reads (target : BlockId) (ys : List InstrId) (e : Emit InstrId) : Prop :=
  ∀ g : Func, target.index < g.blocks.size → ∃ x g', outcome e g = (some x, g') ∧ g.Extends g' ∧
    ∀ f, g'.Extends f → f.Valid → f.AvailableAtEnd target x →
      ∀ y ∈ ys, f.AvailableAtEnd target y

/-- The same, where the result is one of the instructions written, and so is there anyway. -/
def Demands (target : BlockId) (ys : List InstrId) (e : Emit InstrId) : Prop :=
  ∀ g : Func, target.index < g.blocks.size → ∃ x g', outcome e g = (some x, g') ∧ g.Extends g' ∧
    ∀ f, g'.Extends f → f.Valid → ∀ y ∈ ys, f.AvailableAtEnd target y

section Reads

variable {target : BlockId} {ys ys₁ ys₂ : List InstrId} {f : Func} {i : Instr}

theorem available_of_addInstr (ht : target.index < g.blocks.size) (hi : i.IsCode)
    (hgf : (g.addInstr target none i).Extends f) (hf : f.Valid) :
    ∀ y ∈ i.operands, f.AvailableAtEnd target y := by
  have hmem : g.nextId ∈ (f.block target).body := by
    apply hgf.body_subset
    rw [Func.block_addInstr, if_pos ⟨rfl, ht⟩]
    simp
  have hlt := Func.nextId_lt_addInstr g target none i
  have hinstr : f.instr g.nextId = i := (hgf.instr hlt).trans Func.instr_addNode_nextId
  have hinstrs : g.nextId ∈ (f.block target).instrs :=
    List.mem_append_left _ (List.mem_append_right _ hmem)
  intro y hy
  obtain ⟨done, rest, heq⟩ := List.append_of_mem hinstrs
  rcases hf.operand_available target done _ rest heq (hinstr ▸ hi.kind.1) y (hinstr ▸ hy) with
    hleaf | hdone | ⟨hlisted, -, hd⟩
  · exact .inl hleaf
  · obtain ⟨hlisted, hhome⟩ := hf.listed_of_mem_done heq hdone
    exact .inr ⟨hlisted, hhome ▸ .refl _⟩
  · exact .inr ⟨hlisted, hd⟩

theorem Demands.reads {e : Emit InstrId} (he : Demands target ys e) : Reads target ys e := by
  intro g ht
  obtain ⟨x, g', h, hext, hreads⟩ := he g ht
  exact ⟨x, g', h, hext, fun f hgf hf _ => hreads f hgf hf⟩

theorem reads_constant (v : Int32) : Reads target [] (Emit.constant v) := fun g _ =>
  ⟨_, _, outcome_constant v g, Func.extends_addConstant g v, by simp⟩

theorem reads_pure (x : InstrId) : Reads target [x] (pure x) := fun g _ =>
  ⟨x, g, outcome_pure x g, Func.extends_refl g, fun _ _ _ hx => by simpa using hx⟩

theorem demands_append₁ {e : Emit InstrId} {k : InstrId → Instr} (he : Reads target ys e)
    (hk : ∀ x, (k x).IsCode ∧ x ∈ (k x).operands) :
    Demands target ys (do Emit.append target (k (← e))) := by
  intro g ht
  obtain ⟨x, g₁, h, hext, hreads⟩ := he g ht
  have hadd := Func.extends_addInstr g₁ target none (hk x).1
  refine ⟨_, _, (outcome_bind_of_some h).trans (outcome_append target (k x) g₁),
    hext.trans hadd, fun f hgf hf => ?_⟩
  have hav := available_of_addInstr (hext.blocks ▸ ht) (hk x).1 hgf hf
  exact hreads f (hadd.trans hgf) hf (hav x (hk x).2)

theorem demands_append₂ {e₁ e₂ : Emit InstrId} {k : InstrId → InstrId → Instr}
    (h₁ : Reads target ys₁ e₁) (h₂ : Reads target ys₂ e₂)
    (hk : ∀ x y, (k x y).IsCode ∧ x ∈ (k x y).operands ∧ y ∈ (k x y).operands) :
    Demands target (ys₁ ++ ys₂) (do
      let x ← e₁
      let y ← e₂
      Emit.append target (k x y)) := by
  intro g ht
  obtain ⟨x, g₁, hx, hext₁, hreads₁⟩ := h₁ g ht
  obtain ⟨y, g₂, hy, hext₂, hreads₂⟩ := h₂ g₁ (hext₁.blocks ▸ ht)
  have hadd := Func.extends_addInstr g₂ target none (hk x y).1
  have hout : outcome (do
      let x ← e₁
      let y ← e₂
      Emit.append target (k x y)) g = (some g₂.nextId, g₂.addInstr target none (k x y)) := by
    rw [outcome_bind_of_some hx, outcome_bind_of_some hy, outcome_append]
  refine ⟨_, _, hout, (hext₁.trans hext₂).trans hadd, fun f hgf hf => ?_⟩
  have hav := available_of_addInstr (hext₂.blocks ▸ hext₁.blocks ▸ ht) (hk x y).1 hgf hf
  refine List.forall_mem_append.mpr ⟨?_, ?_⟩
  · exact hreads₁ f (hext₂.trans (hadd.trans hgf)) hf (hav x (hk x y).2.1)
  · exact hreads₂ f (hadd.trans hgf) hf (hav y (hk x y).2.2)

end Reads

end Emit

namespace Descriptor

open Emit

variable {target : BlockId} {I : Func → Prop} {Q : Func → InstrId → Prop}
variable {a b d t : Descriptor} {trip : Option Descriptor} {inBody : Bool} {s : Side}

section Keeps

variable (hrule : Rule target I Q)

include hrule

theorem keeps_emitIterations {count : Emit InstrId} {kind : TripKind} (hcount : Keeps I Q count)
    (s : Side) :
    Keeps I Q (match s with
      | .lower => Emit.constant 0
      | .upper =>
          if inBody then do
            let n ← count
            let one ← Emit.constant 1
            Emit.arith target .sub n one
          else if kind.needsTaken then failure
          else count) := by
  cases s with
  | lower => exact fun g => hrule.constant g 0
  | upper =>
    dsimp only
    split_ifs
    · exact hrule.keeps_append₂ hcount (fun g => hrule.constant g 1)
        fun x y => ⟨.inr rfl, by simp [Instr.operands]⟩
    · exact fun _ => yields_failure
    · exact hcount

theorem keeps_emitWith {linearCode : Descriptor → Side → Emit InstrId → Emit InstrId}
    (hlinear : ∀ stride s e, Keeps I Q e → Keeps I Q (linearCode stride s e))
    (hd : d.FetchesOnly fun x => ∀ g, I g → Q g x) (s : Side) :
    Keeps I Q (d.emitWith inBody target linearCode s) := by
  induction d generalizing s with
  | constant v => exact fun g => hrule.constant g v
  | fetch x => exact fun g hg => yields_pure hg (fetchesOnly_fetch.mp hd g hg)
  | unary op b ih =>
    cases op with
    | neg =>
      exact hrule.keeps_append₁ (ih (fetchesOnly_unary.mp hd) s.flip)
        fun x => ⟨trivial, by simp [Instr.operands]⟩
    | _ => exact fun _ => yields_failure
  | binary op a b iha ihb =>
    obtain ⟨ha, hb⟩ := fetchesOnly_binary.mp hd
    have hcompare (cmp : Comparison) : Keeps I Q (do
        let x ← a.emitWith inBody target linearCode s
        let y ← b.emitWith inBody target linearCode s
        Emit.append target (.compare cmp x y)) :=
      hrule.keeps_append₂ (iha ha s) (ihb hb s) fun x y => ⟨trivial, by simp [Instr.operands]⟩
    cases op with
    | add =>
      exact hrule.keeps_append₂ (iha ha s) (ihb hb s)
        fun x y => ⟨.inl rfl, by simp [Instr.operands]⟩
    | sub =>
      exact hrule.keeps_append₂ (iha ha s) (ihb hb s.flip)
        fun x y => ⟨.inr rfl, by simp [Instr.operands]⟩
    | neg =>
      exact hrule.keeps_append₁ (ihb hb s.flip) fun x => ⟨trivial, by simp [Instr.operands]⟩
    | mul | div => exact fun _ => yields_failure
    | lt => exact hcompare .lt
    | le => exact hcompare .le
    | gt => exact hcompare .gt
    | ge => exact hcompare .ge
  | linear stride start _ ih =>
    exact hlinear stride s _ (ih (fetchesOnly_linear.mp hd).2 s)
  | periodic | wrapAround => exact fun _ => yields_failure
  | tripCount kind count ih => exact keeps_emitIterations hrule (ih hd .upper) s
  | guardedCount kind count taken ih =>
    exact keeps_emitIterations hrule (ih (fetchesOnly_guardedCount.mp hd).1 .upper) s

theorem keeps_emitLinear {tripCode : Side → Emit InstrId} (htrip : ∀ s, Keeps I Q (tripCode s))
    (stride : Descriptor) (s : Side) {e : Emit InstrId} (he : Keeps I Q e) :
    Keeps I Q (emitLinear target tripCode stride s e) := by
  unfold emitLinear
  split
  · rename_i side _
    split_ifs
    · exact hrule.keeps_append₂ (htrip side) he fun x y => ⟨.inl rfl, by simp [Instr.operands]⟩
    · exact hrule.keeps_append₂ (k := fun i x => .arith .sub x i) (htrip side) he
        fun x y => ⟨.inr rfl, by simp [Instr.operands, or_comm]⟩
  · exact fun _ => yields_failure

theorem keeps_emitCount (ht : t.FetchesOnly fun x => ∀ g, I g → Q g x) (n : ℕ) (s : Side) :
    Keeps I Q (t.emitCount inBody target n s) := by
  induction n generalizing s with
  | zero => exact fun _ => yields_failure
  | succ n ih =>
    exact keeps_emitWith hrule (fun stride s _ => keeps_emitLinear hrule ih stride s) ht s

theorem keeps_emitTrip (ht : ∀ t, trip = some t → t.FetchesOnly fun x => ∀ g, I g → Q g x)
    (s : Side) : Keeps I Q (emitTrip trip inBody target s) := by
  cases trip with
  | none => exact fun _ => yields_failure
  | some t => exact keeps_emitCount hrule (ht t rfl) 2 s

theorem keeps_emit (ht : ∀ t, trip = some t → t.FetchesOnly fun x => ∀ g, I g → Q g x)
    (hd : d.FetchesOnly fun x => ∀ g, I g → Q g x) (s : Side) :
    Keeps I Q (d.emit trip inBody target s) :=
  keeps_emitWith hrule (fun stride s _ => keeps_emitLinear hrule (keeps_emitTrip hrule ht) stride s)
    hd s

end Keeps

theorem yields_emitBounds {q : Query} (hrule : Rule target I Q)
    (ht : ∀ t, q.trip = some t → t.FetchesOnly fun x => ∀ g, I g → Q g x)
    (hd : q.descriptor.FetchesOnly fun x => ∀ g, I g → Q g x) {g : Func} (hg : I g) :
    Yields I (q.emitBounds target) g fun g c => (∀ y ∈ c.lower, Q g y) ∧ Q g c.upper := by
  have hemit (s : Side) {g' : Func} (hg' : I g') :
      Yields I (q.descriptor.emit q.trip q.inBody target s) g' Q := keeps_emit hrule ht hd s g' hg'
  have hrest {lower : Option InstrId} {g' : Func} (hg' : I g') (hlower : ∀ y ∈ lower, Q g' y) :
      Yields I (do
        return (⟨lower, ← q.descriptor.emit q.trip q.inBody target .upper⟩ : BoundCode)) g'
        fun g c => (∀ y ∈ c.lower, Q g y) ∧ Q g c.upper :=
    (hemit .upper hg').bind fun _ g'' hext h hupper =>
      yields_pure h ⟨fun y hy => hrule.mono g' g'' y hg' hext (hlower y hy), hupper⟩
  unfold Query.emitBounds
  split_ifs
  · exact hrest hg (by simp)
  · rw [map_eq_pure_bind, bind_assoc]
    exact (hemit .lower hg).bind fun _ _ _ hg' hx => hrest hg' (by simpa using hx)

/-- The code for a comparison is that for its sides and the comparison. -/
theorem emit_compare {op : Operation} {cmp : Comparison} (hop : op.comparison? = some cmp) :
    (binary op a b).emit trip inBody target s = (do
      let x ← a.emit trip inBody target s
      let y ← b.emit trip inBody target s
      Emit.append target (.compare cmp x y)) := by
  cases op with
  | lt | le | gt | ge =>
    cases hop
    rfl
  | _ => cases hop

section Reads

variable {linearOk : Descriptor → Side → Bool → Bool}
variable {linearCode : Descriptor → Side → Emit InstrId → Emit InstrId}

theorem IsTerm.reads_emitWith (hd : d.IsTerm) (h : d.canEmitWith inBody linearOk s = true) :
    Reads target d.fetched (d.emitWith inBody target linearCode s) := by
  induction hd generalizing s with
  | constant v => exact reads_constant v
  | fetch x => exact reads_pure x
  | neg _ ih =>
    exact (demands_append₁ (k := .neg) (ih h) fun x => ⟨trivial, by simp [Instr.operands]⟩).reads
  | binary hop _ _ iha ihb =>
    have hreads {op : ArithOp} (x y : InstrId) :
        x ∈ (Instr.arith op x y).operands ∧ y ∈ (Instr.arith op x y).operands := by
      simp [Instr.operands]
    simp only [List.mem_cons, List.not_mem_nil, or_false] at hop
    rcases hop with rfl | rfl | rfl | rfl
    · obtain ⟨ha, hb⟩ := Bool.and_eq_true_iff.mp h
      exact (demands_append₂ (k := .arith .add) (iha ha) (ihb hb)
        fun x y => ⟨.inl rfl, hreads x y⟩).reads
    · obtain ⟨ha, hb⟩ := Bool.and_eq_true_iff.mp h
      exact (demands_append₂ (k := .arith .sub) (iha ha) (ihb hb)
        fun x y => ⟨.inr rfl, hreads x y⟩).reads
    · cases h
    · cases h

/-- If there is code for a comparison of terms, it is written and reads all that they fetch. -/
theorem demands_emit_compare {op : Operation} {cmp : Comparison}
    (hop : op.comparison? = some cmp) (ha : a.IsTerm) (hb : b.IsTerm)
    (h : (binary op a b).canEmit trip inBody .upper = true) :
    Demands target (binary op a b).fetched ((binary op a b).emit trip inBody target .upper) := by
  have hcan : a.canEmit trip inBody .upper = true ∧ b.canEmit trip inBody .upper = true := by
    cases op with
    | lt | le | gt | ge => exact Bool.and_eq_true_iff.mp h
    | _ => cases hop
  have hreads {e : Descriptor} (he : e.IsTerm) (hcan : e.canEmit trip inBody .upper = true) :
      Reads target e.fetched (e.emit trip inBody target .upper) := he.reads_emitWith hcan
  rw [emit_compare hop]
  exact demands_append₂ (k := .compare cmp) (hreads ha hcan.1) (hreads hb hcan.2)
    fun x y => ⟨trivial, by simp [Instr.operands]⟩

end Reads

end Descriptor

end LoopBounds
