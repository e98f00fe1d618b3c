import LoopBounds.Proofs.Range.Hoisting

/-!
# What code is written for

For a constant or a fetched value no instruction is written. The code for any other bounds ends in
an instruction of its own, so that the block in which it is written gets longer. What is hoisted
in front of a loop is settled by the queries on the function as it was, however much has been
written before; so it is known from these queries which preheaders get longer.
-/

namespace LoopBounds

variable {f g h : Func} {p b : BlockId} {x context : InstrId} {l : LoopId}

namespace Func

/-- The body of block `p` is longer in `g`. -/
def Longer (f g : Func) (p : BlockId) : Prop := (f.block p).body.length < (g.block p).body.length

theorem Extends.length_body_le (hfg : f.Extends g) (p : BlockId) :
    (f.block p).body.length ≤ (g.block p).body.length := by
  rw [(hfg.extendsBlock_added p).block, List.length_append]
  exact Nat.le_add_right _ _

theorem Longer.extends (hfg : f.Longer g p) (hgh : g.Extends h) : f.Longer h p :=
  Nat.lt_of_lt_of_le hfg (hgh.length_body_le p)

theorem Extends.longer (hfg : f.Extends g) (hgh : g.Longer h p) : f.Longer h p :=
  Nat.lt_of_le_of_lt (hfg.length_body_le p) hgh

theorem longer_addInstr (f : Func) (i : Instr) (hp : p.index < f.blocks.size) :
    f.Longer (f.addInstr p none i) p := by
  rw [Longer, block_addInstr, if_pos ⟨rfl, hp⟩, List.length_append, List.length_singleton]
  exact Nat.lt_succ_self _

theorem Extends.added_ne_nil_iff (hfg : f.Extends g) : f.added g p ≠ [] ↔ f.Longer g p := by
  rw [Longer, (hfg.extendsBlock_added p).block, List.length_append, ← List.length_pos_iff]
  omega

theorem Extends.block_of_not_longer (hfg : f.Extends g) (h : ¬ f.Longer g p) :
    g.block p = f.block p := by
  have hnone : f.added g p = [] := by
    by_contra hne
    exact h (hfg.added_ne_nil_iff.mp hne)
  rw [(hfg.extendsBlock_added p).block, hnone, List.append_nil]

end Func

namespace Emit

variable {α β : Type} {e : Emit α} {k : α → Emit β}

/-- The code only adds to the function. -/
def Grows (e : Emit α) : Prop := ∀ g : Func, g.Extends (outcome e g).2

/-- Code that comes to a result has made block `p` longer. -/
def Lengthens (p : BlockId) (e : Emit α) : Prop :=
  ∀ (g : Func) x g', p.index < g.blocks.size → outcome e g = (some x, g') → g.Longer g' p

theorem grows_pure (x : α) : Grows (pure x) := fun g => Func.extends_refl g

theorem lengthens_failure (p : BlockId) : Lengthens p (failure : Emit α) := by
  intro g x g' _ h
  cases h

theorem lengthens_append (p : BlockId) (i : Instr) : Lengthens p (Emit.append p i) := by
  intro g x g' hp h
  obtain ⟨-, rfl⟩ := Prod.mk.inj h
  exact Func.longer_addInstr g i hp

theorem Grows.lengthens_bind (he : Grows e) (hk : ∀ x, Lengthens p (k x)) :
    Lengthens p (e >>= k) := by
  intro g y g' hp h
  have hext := he g
  cases hout : outcome e g with
  | mk o g₁ =>
    rw [hout] at hext
    rw [outcome_bind, hout] at h
    cases o with
    | none => cases h
    | some x => exact hext.longer (hk x g₁ y g' (hext.blocks ▸ hp) h)

theorem Lengthens.bind (he : Lengthens p e) (hk : ∀ x, Grows (k x)) : Lengthens p (e >>= k) := by
  intro g y g' hp h
  cases hout : outcome e g with
  | mk o g₁ =>
    rw [outcome_bind, hout] at h
    cases o with
    | none => cases h
    | some x =>
      have hext := hk x g₁
      rw [show outcome (k x) g₁ = (some y, g') from h] at hext
      exact (he g x g₁ hp hout).extends hext

theorem Grows.append₁ {e : Emit InstrId} (he : Grows e) (k : InstrId → Instr) :
    Lengthens p (do Emit.append p (k (← e))) :=
  he.lengthens_bind fun x => lengthens_append p (k x)

theorem Grows.append₂ {e₁ e₂ : Emit InstrId} (h₁ : Grows e₁) (h₂ : Grows e₂)
    (k : InstrId → InstrId → Instr) :
    Lengthens p (do
      let x ← e₁
      let y ← e₂
      Emit.append p (k x y)) :=
  h₁.lengthens_bind fun x => h₂.append₁ (k x)

end Emit

namespace Descriptor

open Emit

variable {d : Descriptor} {trip : Option Descriptor} {inBody : Bool} {s : Side}

/-- A constant or a fetched value, for which no instruction is written. -/
def isAtom : Descriptor → Bool
  | constant _ | fetch _ => true
  | _ => false

theorem grows_emit (d : Descriptor) (trip : Option Descriptor) (inBody : Bool) (p : BlockId)
    (s : Side) : Grows (d.emit trip inBody p s) := fun g =>
  (keeps_emit (rule_true p) (fun _ _ _ _ _ _ => trivial) (fun _ _ _ _ => trivial) s g trivial).grows

theorem grows_emitTrip (trip : Option Descriptor) (inBody : Bool) (p : BlockId) (s : Side) :
    Grows (emitTrip trip inBody p s) := fun g =>
  (keeps_emitTrip (rule_true p) (fun _ _ _ _ _ _ => trivial) s g trivial).grows

/-- The code for anything but a constant or a fetched value makes the block longer. -/
theorem lengthens_emit (hatom : d.isAtom = false) (hkind : d.tripKind? = none) :
    Lengthens p (d.emit trip inBody p s) := by
  have hgrows (e : Descriptor) (s : Side) := grows_emit e trip inBody p s
  cases d with
  | constant v => cases hatom
  | fetch x => cases hatom
  | unary op b =>
    cases op with
    | neg => exact (hgrows b s.flip).append₁ .neg
    | _ => exact lengthens_failure p
  | binary op a b =>
    cases op with
    | add => exact (hgrows a s).append₂ (hgrows b s) (.arith .add)
    | sub => exact (hgrows a s).append₂ (hgrows b s.flip) (.arith .sub)
    | neg => exact (hgrows b s.flip).append₁ .neg
    | mul | div => exact lengthens_failure p
    | lt => exact (hgrows a s).append₂ (hgrows b s) (.compare .lt)
    | le => exact (hgrows a s).append₂ (hgrows b s) (.compare .le)
    | gt => exact (hgrows a s).append₂ (hgrows b s) (.compare .gt)
    | ge => exact (hgrows a s).append₂ (hgrows b s) (.compare .ge)
  | linear stride start =>
    change Lengthens p
      (emitLinear p (emitTrip trip inBody p) stride s (start.emit trip inBody p s))
    unfold emitLinear
    split
    · rename_i side _
      have hcount := grows_emitTrip trip inBody p side
      split_ifs
      · exact hcount.append₂ (hgrows start s) (.arith .add)
      · exact hcount.append₂ (hgrows start s) fun i x => .arith .sub x i
    · exact lengthens_failure p
  | periodic | wrapAround => exact lengthens_failure p
  | tripCount | guardedCount => cases hkind

end Descriptor

open Emit

namespace Query

variable {q : Query}

theorem lengthens_emitBounds (hatom : q.descriptor.isAtom = false)
    (hkind : q.descriptor.tripKind? = none) : Lengthens p (q.emitBounds p) := by
  have hrest (lower : Option InstrId) : Lengthens p (do
      return (⟨lower, ← q.descriptor.emit q.trip q.inBody p .upper⟩ : BoundCode)) :=
    (Descriptor.lengthens_emit hatom hkind).bind fun y => grows_pure _
  unfold emitBounds
  split_ifs
  · exact hrest none
  · rw [map_eq_pure_bind, bind_assoc]
    exact (Descriptor.grows_emit _ _ _ p .lower).lengthens_bind fun x => hrest (some x)

theorem block_emitBounds_of_isAtom (h : q.descriptor.isAtom = true) (g : Func) (b : BlockId) :
    (outcome (q.emitBounds p) g).2.block b = g.block b := by
  obtain ⟨d, trip, inBody⟩ := q
  cases d with
  | constant v => exact Func.block_addConstant g v b
  | fetch x => rfl
  | _ => cases h

theorem extends_emitBounds (q : Query) (p : BlockId) (g : Func) :
    g.Extends (outcome (q.emitBounds p) g).2 :=
  (Descriptor.yields_emitBounds (rule_true p) (fun _ _ _ _ _ _ => trivial) (fun _ _ _ _ => trivial)
    trivial).grows

/-- The bounds are hoisted: there is code for them, and they hold without a finite test. -/
def isHoisted (q : Query) : Bool := q.tests?.any fun tests => !tests.needsFinite

/-- Hoisting the bounds takes an instruction, for the bounds themselves or for a taken test. -/
def writesCode (q : Query) : Bool := q.needsTaken || !q.descriptor.isAtom

theorem exists_emitBounds {tests : GuardTests} (h : q.tests? = some tests) (p : BlockId)
    (g : Func) : ∃ code g', outcome (q.emitBounds p) g = (some code, g') := by
  obtain ⟨-, -, -, hcan, -⟩ := Query.tests?_eq_some_iff.mp h
  exact ((q.decides_emitBounds p).iff g).mp hcan

theorem isHoisted_eq_true_iff : q.isHoisted = true ↔
    ∃ tests, q.tests? = some tests ∧ tests.needsFinite = false := by
  rw [isHoisted]
  cases q.tests? <;> simp

end Query

namespace Analysis

/-- The bounds that a query asks for are hoisted to block `p`. -/
def Hoisted.add (p : BlockId) (h : Hoisted) (q : Query) : Hoisted :=
  ⟨(outcome (q.emitBounds p) h.func).2, true, h.needsTaken || q.needsTaken⟩

variable {a : Analysis} {h : Hoisted} {q : Query}

theorem hoistValue_of_query? (hq : a.query? h.func context x = some q) :
    a.hoistValue context p h x = if q.isHoisted then h.add p q else h := by
  have htests : a.tests? h.func context x = q.tests? := by rw [tests?, hq, Option.bind_some]
  rw [hoistValue, htests, Query.isHoisted]
  cases hsome : q.tests? with
  | none => rfl
  | some tests =>
    obtain ⟨code, g, hcode⟩ := Query.exists_emitBounds hsome p h.func
    obtain ⟨-, -, -, -, rfl⟩ := Query.tests?_eq_some_iff.mp hsome
    have hgen : a.generateBounds h.func context x p = (some code, g) := by
      rw [generateBounds, hq]
      dsimp only
      rw [hsome]
      exact hcode
    rw [hgen, Hoisted.add, hcode]
    cases q.needsFinite <;> rfl

theorem hoistValue_of_none (hq : a.query? h.func context x = none) :
    a.hoistValue context p h x = h := by
  rw [hoistValue, tests?, hq]
  rfl

section Add

variable {qs : List Query}

theorem extends_foldl_add (qs : List Query) (h : Hoisted) :
    h.func.Extends (qs.foldl (Hoisted.add p) h).func := by
  induction qs generalizing h with
  | nil => exact Func.extends_refl h.func
  | cons q qs ih => exact (q.extends_emitBounds p h.func).trans (ih (h.add p q))

theorem changed_foldl_add (qs : List Query) (h : Hoisted) :
    (qs.foldl (Hoisted.add p) h).changed = (h.changed || !qs.isEmpty) := by
  induction qs generalizing h with
  | nil => simp
  | cons q qs ih =>
    rw [List.foldl_cons, ih]
    simp [Hoisted.add]

theorem needsTaken_foldl_add (qs : List Query) (h : Hoisted) :
    (qs.foldl (Hoisted.add p) h).needsTaken = (h.needsTaken || qs.any Query.needsTaken) := by
  induction qs generalizing h with
  | nil => simp
  | cons q qs ih =>
    rw [List.foldl_cons, ih, List.any_cons, ← Bool.or_assoc]
    rfl

theorem block_foldl_add (hqs : ∀ q ∈ qs, q.descriptor.isAtom = true) (h : Hoisted) (b : BlockId) :
    (qs.foldl (Hoisted.add p) h).func.block b = h.func.block b := by
  induction qs generalizing h with
  | nil => rfl
  | cons q qs ih =>
    rw [List.foldl_cons, ih fun r hr => hqs r (List.mem_cons_of_mem q hr)]
    exact Query.block_emitBounds_of_isAtom (hqs q List.mem_cons_self) h.func b

end Add

/-- The queries about the values of a loop, asked at the end of its body, whose bounds are
hoisted. -/
def hoistedQueries (a : Analysis) (f : Func) (l : LoopId) : List Query :=
  match (a.forest.get l).preheader, a.bodyContext? f l with
  | some _, some context =>
      (((a.loopValues f l).map Prod.fst).filterMap (a.query? f context)).filter Query.isHoisted
  | _, _ => []

theorem mem_hoistedQueries : q ∈ a.hoistedQueries f l ↔
    ∃ p context x d, (a.forest.get l).preheader = some p ∧ a.bodyContext? f l = some context ∧
      (x, d) ∈ a.loopValues f l ∧ a.query? f context x = some q ∧ q.isHoisted = true := by
  unfold hoistedQueries
  split
  · rename_i p context hp hc
    rw [List.mem_filter, List.mem_filterMap]
    constructor
    · rintro ⟨⟨x, hx, hq⟩, hhoisted⟩
      obtain ⟨⟨y, d⟩, ht, rfl⟩ := List.mem_map.mp hx
      exact ⟨p, context, y, d, hp, hc, ht, hq, hhoisted⟩
    · rintro ⟨p', context', x, d, -, hc', hx, hq, hhoisted⟩
      obtain rfl := Option.some.inj (hc.symm.trans hc')
      exact ⟨⟨x, List.mem_map_of_mem hx, hq⟩, hhoisted⟩
  · rename_i hnone
    simp only [List.not_mem_nil, false_iff]
    rintro ⟨p, context, x, d, hp, hc, -⟩
    exact hnone p context hp hc

/-- Where bounds that are hoisted hold only in a loop that is entered, there is a test for that,
and code for the test. -/
theorem exists_takenTest? (hq : a.query? f context x = some q) (hhoisted : q.isHoisted = true)
    (hneeds : q.needsTaken = true) : ∃ m t test, a.tripCount? f m = some t ∧
      t.taken? = some test ∧ a.takenTest? f context = some (test, q.inBody) ∧
      test.canEmit none q.inBody .upper = true := by
  obtain ⟨m, inBody, d, hm, -, rfl⟩ := query?_eq_some hq
  obtain ⟨tests, htests, -⟩ := Query.isHoisted_eq_true_iff.mp hhoisted
  obtain ⟨t, ht, htaken, -, -⟩ := Query.tests?_eq_some_iff.mp htests
  have hcan := htaken hneeds
  unfold Query.canEmitTaken at hcan
  cases htest : t.taken? with
  | none =>
    rw [htest] at hcan
    cases hcan
  | some test =>
    rw [htest] at hcan
    refine ⟨m, t, test, ht, htest, ?_, hcan⟩
    simp [takenTest?, hm, show a.tripCount? f m = some t from ht, htest]

theorem longer_generateTaken {test : Descriptor} {inBody : Bool} (hp : p.index < g.blocks.size)
    (htest : a.takenTest? g context = some (test, inBody))
    (hcan : test.canEmit none inBody .upper = true) (hatom : test.isAtom = false)
    (hkind : test.tripKind? = none) : g.Longer (a.generateTaken g context p).2 p := by
  obtain ⟨x, g', hout⟩ := ((Descriptor.decides_emit none test .upper).iff g).mp hcan
  have hcode : a.generateTaken g context p = (some x, g') := by
    rw [generateTaken, htest]
    dsimp only
    rw [if_pos hcan]
    exact hout
  rw [hcode]
  exact Descriptor.lengthens_emit hatom hkind g x g' hp hout

theorem foldl_hoistValue_eq {values : List InstrId} (hcontext : context.index < f.nodes.size)
    (hvalues : ∀ x ∈ values, x.index < f.nodes.size) (hh : f.Extends h.func) :
    values.foldl (a.hoistValue context p) h =
      ((values.filterMap (a.query? f context)).filter Query.isHoisted).foldl (Hoisted.add p) h := by
  induction values generalizing h with
  | nil => rfl
  | cons x values ih =>
    have hold := hh.query?_eq a hcontext (hvalues x List.mem_cons_self)
    have hrest : ∀ y ∈ values, y.index < f.nodes.size :=
      fun y hy => hvalues y (List.mem_cons_of_mem x hy)
    rw [List.foldl_cons]
    cases hq : a.query? f context x with
    | none => rw [hoistValue_of_none (hold.trans hq), List.filterMap_cons_none hq, ih hrest hh]
    | some q =>
      rw [hoistValue_of_query? (hold.trans hq), List.filterMap_cons_some hq, List.filter_cons]
      split_ifs
      · exact ih hrest (hh.trans (q.extends_emitBounds p h.func))
      · exact ih hrest hh

theorem hoistLoop_place (hg : f.Extends g) (l : LoopId) :
    ((ofFunc f).hoistLoop g l = (g, false) ∧ (ofFunc f).hoistedQueries f l = []) ∨
      ∃ p context, (f.flow.loopForest.get l).preheader = some p ∧
        (ofFunc f).bodyContext? f l = some context := by
  rw [hoistLoop, hoistedQueries, forest_ofFunc, hg.bodyContext?_eq]
  cases (f.flow.loopForest.get l).preheader with
  | none => exact .inl ⟨rfl, rfl⟩
  | some p =>
    cases (ofFunc f).bodyContext? f l with
    | none => exact .inl ⟨rfl, rfl⟩
    | some context => exact .inr ⟨p, context, rfl, rfl⟩

section Linked

variable (hf : f.Linked)

include hf

/-- The queries ask only for values of the loop, or for what is fetched. -/
theorem tripKind?_of_mem_hoistedQueries (hq : q ∈ (ofFunc f).hoistedQueries f l) :
    q.descriptor.tripKind? = none := by
  obtain ⟨p, context, x, d, hp, hc, hx, hq, -⟩ := mem_hoistedQueries.mp hq
  obtain ⟨hmem, -⟩ := bodyContext?_spec hf.toCoherent hp hc
  obtain ⟨-, hstored, hvalue⟩ := mem_loopValues.mp hx
  obtain ⟨m, inBody, e, hm, he, rfl⟩ := query?_eq_some hq
  by_cases hne : m = l
  · subst hne
    rw [lookup, hstored] at he
    obtain rfl := Option.some.inj he
    simp only [isLoopValue, Bool.and_eq_true, Option.isNone_iff_eq_none] at hvalue
    exact hvalue.1.1.1
  · rw [lookup_of_contextLoop?_ne hf hx hm hmem hne] at he
    obtain rfl := Option.some.inj he
    rfl

theorem longer_foldl_add {qs : List Query} (hqs : ∀ q ∈ qs, q ∈ (ofFunc f).hoistedQueries f l)
    (hq : q ∈ qs) (hatom : q.descriptor.isAtom = false) (hp : p.index < h.func.blocks.size) :
    h.func.Longer (qs.foldl (Hoisted.add p) h).func p := by
  obtain ⟨u, w, rfl⟩ := List.append_of_mem hq
  rw [List.foldl_append, List.foldl_cons]
  have hbefore := extends_foldl_add (p := p) u h
  have hmem := hqs q hq
  obtain ⟨-, -, -, -, -, -, -, -, hhoisted⟩ := mem_hoistedQueries.mp hmem
  obtain ⟨tests, htests, -⟩ := Query.isHoisted_eq_true_iff.mp hhoisted
  obtain ⟨code, g, hcode⟩ := Query.exists_emitBounds htests p (u.foldl (Hoisted.add p) h).func
  have hlonger :=
    Query.lengthens_emitBounds hatom (tripKind?_of_mem_hoistedQueries hf hmem) _ code g
    (hbefore.blocks ▸ hp) hcode
  have hadd : ((u.foldl (Hoisted.add p) h).add p q).func = g := congrArg Prod.snd hcode
  exact (hbefore.longer (hadd ▸ hlonger)).extends (extends_foldl_add w _)

variable (hfill : f.Filled)

include hfill

theorem hoistLoop_eq (hg : f.Extends g) (hp : (f.flow.loopForest.get l).preheader = some p)
    (hc : (ofFunc f).bodyContext? f l = some context) {h : Hoisted}
    (hh : ((ofFunc f).hoistedQueries f l).foldl (Hoisted.add p) ⟨g, false, false⟩ = h) :
    (ofFunc f).hoistLoop g l =
      (if h.needsTaken then ((ofFunc f).generateTaken h.func context p).2 else h.func,
        h.changed) := by
  obtain ⟨-, hinstrs⟩ := bodyContext?_spec hf.toCoherent hp hc
  have hvalues : ∀ x ∈ ((ofFunc f).loopValues f l).map Prod.fst, x.index < f.nodes.size := by
    intro x hx
    obtain ⟨t, ht, rfl⟩ := List.mem_map.mp hx
    exact (mem_loopValues.mp ht).1
  rw [← hh, hoistLoop, hoistedQueries, forest_ofFunc, hp, hg.bodyContext?_eq, hc]
  dsimp only
  rw [loopValues_eq hf hfill hg, foldl_hoistValue_eq (hfill _ context hinstrs) hvalues hg]

theorem changed_hoistLoop (hg : f.Extends g) (l : LoopId) :
    ((ofFunc f).hoistLoop g l).2 = !((ofFunc f).hoistedQueries f l).isEmpty := by
  rcases hoistLoop_place hg l with ⟨hsame, hnone⟩ | ⟨p, context, hp, hc⟩
  · rw [hsame, hnone]
    rfl
  · rw [hoistLoop_eq hf hfill hg hp hc rfl, changed_foldl_add, Bool.false_or]

theorem longer_hoistLoop (hg : f.Extends g) (hq : q ∈ (ofFunc f).hoistedQueries f l)
    (hwrites : q.writesCode = true)
    (htests : ∀ m t test, (ofFunc f).tripCount? f m = some t → t.taken? = some test →
      test.isAtom = false ∧ test.tripKind? = none) :
    ∃ p, g.Longer ((ofFunc f).hoistLoop g l).1 p := by
  obtain ⟨p, context, x, d, hp, hc, hx, hquery, hhoisted⟩ := mem_hoistedQueries.mp hq
  have hlt : p.index < g.blocks.size := hg.blocks ▸ index_lt_of_preheader hf.toCoherent hp
  obtain ⟨-, hinstrs⟩ := bodyContext?_spec hf.toCoherent hp hc
  generalize hh : ((ofFunc f).hoistedQueries f l).foldl (Hoisted.add p) ⟨g, false, false⟩ = h
  have hbounds : g.Extends h.func := hh ▸ extends_foldl_add _ ⟨g, false, false⟩
  refine ⟨p, ?_⟩
  rw [hoistLoop_eq hf hfill hg hp hc hh]
  dsimp only
  by_cases hatom : q.descriptor.isAtom = true
  · have hneeds : q.needsTaken = true := by simpa [Query.writesCode, hatom] using hwrites
    have htaken : h.needsTaken = true := by
      rw [← hh, needsTaken_foldl_add, Bool.false_or]
      exact List.any_eq_true.mpr ⟨q, hq, hneeds⟩
    obtain ⟨m, t, test, ht, htest, htakenTest, hcan⟩ := exists_takenTest? hquery hhoisted hneeds
    obtain ⟨hatom, hkind⟩ := htests m t test ht htest
    rw [if_pos htaken]
    rw [← (hg.trans hbounds).takenTest?_eq _ (hfill _ context hinstrs)] at htakenTest
    exact hbounds.longer
      (longer_generateTaken (hbounds.blocks ▸ hlt) htakenTest hcan hatom hkind)
  · have hlonger := longer_foldl_add hf (fun _ => id) hq (Bool.eq_false_of_not_eq_true hatom)
      (h := ⟨g, false, false⟩) hlt
    rw [hh] at hlonger
    split_ifs
    · exact hlonger.extends ((ofFunc f).extends_generateTaken h.func context p)
    · exact hlonger

theorem block_hoistLoop (hg : f.Extends g)
    (hnone : ∀ q ∈ (ofFunc f).hoistedQueries f l, q.writesCode = false) (b : BlockId) :
    ((ofFunc f).hoistLoop g l).1.block b = g.block b := by
  rcases hoistLoop_place hg l with ⟨hsame, -⟩ | ⟨p, context, hp, hc⟩
  · rw [hsame]
  · have hquery : ∀ q ∈ (ofFunc f).hoistedQueries f l,
        q.needsTaken = false ∧ q.descriptor.isAtom = true := by
      intro q hq
      simpa [Query.writesCode] using hnone q hq
    have htaken : (((ofFunc f).hoistedQueries f l).foldl (Hoisted.add p)
        ⟨g, false, false⟩).needsTaken = false := by
      rw [needsTaken_foldl_add, Bool.false_or, List.any_eq_false]
      intro q hq
      simp [(hquery q hq).1]
    rw [hoistLoop_eq hf hfill hg hp hc rfl, htaken, if_neg Bool.false_ne_true]
    exact block_foldl_add (fun q hq => (hquery q hq).2) ⟨g, false, false⟩ b

theorem changed_foldl_hoistStep (ls : List LoopId) {s : Func × Bool} (hs : f.Extends s.1) :
    (ls.foldl (ofFunc f).hoistStep s).2 =
      (s.2 || ls.any fun l => !((ofFunc f).hoistedQueries f l).isEmpty) := by
  induction ls generalizing s with
  | nil => simp
  | cons l ls ih =>
    have hstep : f.Extends ((ofFunc f).hoistStep s l).1 := by
      rw [hoistStep_fst]
      exact hs.trans ((ofFunc f).extends_hoistLoop s.1 l)
    rw [List.foldl_cons, ih hstep, List.any_cons, ← Bool.or_assoc, hoistStep,
      changed_hoistLoop hf hfill hs]

end Linked

end Analysis

namespace Func

variable {q : Query} (hf : f.Linked) (hfill : f.Filled)

include hf

theorem mem_outerToInner_of_mem_hoistedQueries (hq : q ∈ (Analysis.ofFunc f).hoistedQueries f l) :
    l ∈ (Analysis.ofFunc f).forest.outerToInner := by
  obtain ⟨p, -, -, -, hp, -⟩ := Analysis.mem_hoistedQueries.mp hq
  exact hf.flow.finished.mem_outerToInner.mpr (Analysis.mem_ids_of_preheader hp)

include hfill

theorem changed_hoistBounds : f.hoistBounds.2 = true ↔
    ∃ l q, q ∈ (Analysis.ofFunc f).hoistedQueries f l := by
  rw [hoistBounds_eq, Analysis.changed_foldl_hoistStep hf hfill _ (extends_refl f), Bool.false_or,
    List.any_eq_true]
  constructor
  · rintro ⟨l, -, hl⟩
    obtain ⟨q, hq⟩ := List.exists_mem_of_ne_nil ((Analysis.ofFunc f).hoistedQueries f l)
      (by simpa using hl)
    exact ⟨l, q, hq⟩
  · rintro ⟨l, q, hq⟩
    exact ⟨l, mem_outerToInner_of_mem_hoistedQueries hf hq, by simpa using List.ne_nil_of_mem hq⟩

theorem longer_hoistBounds (hq : q ∈ (Analysis.ofFunc f).hoistedQueries f l)
    (hwrites : q.writesCode = true)
    (htests : ∀ m t test, (Analysis.ofFunc f).tripCount? f m = some t → t.taken? = some test →
      test.isAtom = false ∧ test.tripKind? = none) :
    ∃ p, f.Longer f.hoistBounds.1 p := by
  obtain ⟨u, w, heq⟩ := List.append_of_mem (mem_outerToInner_of_mem_hoistedQueries hf hq)
  have hbefore := Analysis.extends_foldl_hoistStep (Analysis.ofFunc f) u (f, false)
  generalize hs : u.foldl (Analysis.ofFunc f).hoistStep (f, false) = s at hbefore
  obtain ⟨p, hp⟩ := Analysis.longer_hoistLoop hf hfill hbefore hq hwrites htests
  have hafter := Analysis.extends_foldl_hoistStep (Analysis.ofFunc f) w
    ((Analysis.ofFunc f).hoistStep s l)
  rw [Analysis.hoistStep_fst] at hafter
  refine ⟨p, ?_⟩
  rw [hoistBounds_eq, heq, List.foldl_append, List.foldl_cons, hs]
  exact (hbefore.longer hp).extends hafter

/-- If no query writes code, hoisting leaves all blocks as they are. -/
theorem block_hoistBounds
    (hnone : ∀ l, ∀ q ∈ (Analysis.ofFunc f).hoistedQueries f l, q.writesCode = false)
    (b : BlockId) : f.hoistBounds.1.block b = f.block b := by
  have hsame : f.Extends f.hoistBounds.1 ∧ f.hoistBounds.1.block b = f.block b := by
    rw [hoistBounds_eq]
    refine (Analysis.ofFunc f).foldl_hoistStep_keeps
      (I := fun g => f.Extends g ∧ g.block b = f.block b) (fun g l hg => ?_) _ ⟨extends_refl f, rfl⟩
    exact ⟨hg.1.trans ((Analysis.ofFunc f).extends_hoistLoop g l),
      (Analysis.block_hoistLoop hf hfill hg.1 (hnone l) b).trans hg.2⟩
  exact hsame.2

end Func

end LoopBounds
