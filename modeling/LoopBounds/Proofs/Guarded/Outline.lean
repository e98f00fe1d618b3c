import LoopBounds.Proofs.Guarded.Pairs
import LoopBounds.Proofs.Listing.Resolved

/-!
# Guarded tables of names

The pairs of a function are its parameters and its blocks. Before any line is read, each of these
gets its place in the function, and so does each line that defines a value; the names are entered
one by one into tables that take every name only once.
-/

namespace LoopBounds.Guarded

open Listing

section Tables

variable {α : Type} {fault : String → Error} {table entries : List (String × α)}

/-- Enters a name that is not in the table. -/
def enter (fault : String → Error) (table : List (String × α)) (entry : String × α) :
    Except Error (List (String × α)) :=
  if entry.1 ∈ table.map Prod.fst then .error (fault entry.1) else .ok (table ++ [entry])

theorem firstRepeated?_append_cons {seen names rest : List String} {n : String}
    (hnodup : names.Nodup) (hseen : ∀ m ∈ names, m ∉ seen) (hn : n ∈ seen ∨ n ∈ names) :
    firstRepeated? seen (names ++ n :: rest) = some n := by
  induction names generalizing seen with
  | nil =>
    rw [List.nil_append, firstRepeated?, if_pos (hn.resolve_right List.not_mem_nil)]
  | cons m names ih =>
    obtain ⟨hm, hnodup⟩ := List.nodup_cons.mp hnodup
    rw [List.cons_append, firstRepeated?, if_neg (hseen m List.mem_cons_self)]
    apply ih hnodup
    · intro k hk
      rw [List.mem_cons, not_or]
      exact ⟨fun heq => hm (heq ▸ hk), hseen k (List.mem_cons_of_mem _ hk)⟩
    · rcases hn with hn | hn
      · exact .inl (List.mem_cons_of_mem _ hn)
      · rcases List.mem_cons.mp hn with rfl | hn
        · exact .inl List.mem_cons_self
        · exact .inr hn

/-- Entering names one by one finds the first of them that is repeated. -/
theorem foldlM_enter (h : (table.map Prod.fst).Nodup) : entries.foldlM (enter fault) table =
    match firstRepeated? [] (table.map Prod.fst ++ entries.map Prod.fst) with
    | some n => .error (fault n)
    | none => .ok (table ++ entries) := by
  induction entries generalizing table with
  | nil =>
    have hnone : firstRepeated? [] (table.map Prod.fst) = none :=
      firstRepeated?_eq_none_iff.mpr ⟨h, fun _ _ => List.not_mem_nil⟩
    simp [hnone]
    rfl
  | cons entry entries ih =>
    rw [List.foldlM_cons, enter]
    split_ifs with hmem
    · rw [List.map_cons, firstRepeated?_append_cons h (fun _ _ => List.not_mem_nil) (.inr hmem)]
      rfl
    · have hnodup : ((table ++ [entry]).map Prod.fst).Nodup := by
        rw [List.map_append, List.map_singleton]
        refine List.nodup_append.mpr ⟨h, List.nodup_singleton _, fun m hm k hk heq => ?_⟩
        rw [heq, List.mem_singleton.mp hk] at hm
        exact hmem hm
      change entries.foldlM (enter fault) (table ++ [entry]) = _
      rw [ih hnodup]
      simp

theorem foldlM_enter_distinct (d : Definition) (fault : String → Fault)
    (table entries : List (String × α)) (h : (table.map Prod.fst).Nodup) :
    entries.foldlM (enter fun n => .malformed d.name (fault n)) table = (do
      d.distinct (table.map Prod.fst ++ entries.map Prod.fst) fault
      return table ++ entries) := by
  rw [foldlM_enter h, Definition.distinct]
  cases firstRepeated? [] (table.map Prod.fst ++ entries.map Prod.fst) <;> rfl

end Tables

section Places

variable {α : Type}

/-- Names with the places where they stand, from `start` on. -/
def places (place : ℕ → α) (start : ℕ) (names : List String) : List (String × α) :=
  (names.zipIdx start).map fun (n, i) => (n, place i)

theorem places_cons (place : ℕ → α) (start : ℕ) (n : String) (names : List String) :
    places place start (n :: names) = (n, place start) :: places place (start + 1) names := rfl

theorem map_fst_places (place : ℕ → α) (start : ℕ) (names : List String) :
    (places place start names).map Prod.fst = names := by
  rw [places, List.map_map]
  exact List.zipIdx_map_fst start names

end Places

/-- A function with its parameters, the table of their names, and the pairs of its blocks. -/
structure Outline where
  f : Func
  values : List (String × InstrId)
  blocks : List (String × List Pair)

def Outline.lines (o : Outline) : List Pair := o.blocks.flatMap Prod.snd

/-- Adds what one of the pairs of a function stands for. -/
def addPart (o : Outline) (p : Pair) : Parsing Outline :=
  match p.rule with
  | .param => do
      let n ← unmarked (← (found .noElement p.inner[1]? : Guarded Pair))
      let values ← raised
        (enter (fun n => .malformed o.f.name (.valueDefinedTwice n)) o.values (n, o.f.nextId))
      return ⟨o.f.addParam n, values, o.blocks⟩
  | .block => do
      let (l, lines) ← next p.inner
      let (n, _) ← next l.inner
      return { o with blocks := o.blocks ++ [(n.text, lines)] }
  | _ => liftM (throw .unreachable : Guarded Outline)

/-- Adds a block, or names the one that is there from the beginning. -/
def addLabel (o : Func × List (String × BlockId)) (l : String × ℕ) :
    Parsing (Func × List (String × BlockId)) := do
  let (f, table) := o
  let (f, b) ←
    if l.2 = 0 then do
      let _ ← block f .entry
      pure (f.renameBlock .entry l.1, BlockId.entry)
    else pure (f.addBlock l.1, ⟨f.blocks.size⟩)
  let table ← raised (enter (fun n => .malformed f.name (.labelDefinedTwice n)) table (l.1, b))
  return (f, table)

/-- Enters the name that a line defines. The first line comes right after the nodes of `f`. -/
def defineLine (f : Func) (values : List (String × InstrId)) (p : Pair × ℕ) :
    Parsing (List (String × InstrId)) := do
  match ← definedName? p.1 with
  | some n => raised (enter (fun n => .malformed f.name (.valueDefinedTwice n)) values
      (n, ⟨f.nodes.size + p.2⟩))
  | none => return values

section Outlines

variable {o : Outline} {params : List String} {ps : List Pair} {n : String} {p : Pair}

theorem addPart_param (h : ParamToldBy n p) : addPart o p = raised (do
    let values ←
      enter (fun n => .malformed o.f.name (.valueDefinedTwice n)) o.values (n, o.f.nextId)
    return ⟨o.f.addParam n, values, o.blocks⟩) := by
  cases h with
  | intro => simp [addPart, raised_map]

theorem foldlM_params (h : List.Forall₂ ParamToldBy params ps) :
    ps.foldlM addPart o = raised (do
      let values ← (places InstrId.mk o.f.nodes.size params).foldlM
        (enter fun n => .malformed o.f.name (.valueDefinedTwice n)) o.values
      return ⟨params.foldl Func.addParam o.f, values, o.blocks⟩) := by
  induction h generalizing o with
  | nil => rfl
  | @cons n p params ps hp _ ih =>
    rw [List.foldlM_cons, addPart_param hp, places_cons, List.foldlM_cons]
    simp only [bind_assoc, raised_bind]
    refine bind_congr fun values => ?_
    have hsize : (o.f.addParam n).nodes.size = o.f.nodes.size + 1 := Array.size_push _
    rw [raised_pure, pure_bind, ih, hsize, raised_bind]
    rfl

/-- The pairs of the lines of a section stand beside its label. -/
def BlockToldBy (s : Section) (b : String × List Pair) : Prop :=
  b.1 = s.label ∧ List.Forall₂ Line.ToldBy s.lines b.2

section Blocks

variable {sections : List Section} {blocks : List (String × List Pair)}

theorem labels_of_toldBy (h : List.Forall₂ BlockToldBy sections blocks) :
    blocks.map Prod.fst = sections.map Section.label := by
  induction h with
  | nil => rfl
  | cons hb _ ih => rw [List.map_cons, List.map_cons, hb.1, ih]

theorem lines_of_toldBy (h : List.Forall₂ BlockToldBy sections blocks) :
    List.Forall₂ Line.ToldBy (sections.flatMap Section.lines) (blocks.flatMap Prod.snd) := by
  induction h with
  | nil => exact .nil
  | cons hb _ ih => exact List.rel_append hb.2 ih

theorem literals_of_toldBy {lines : List Line} (h : List.Forall₂ Line.ToldBy lines ps) :
    ps.flatMap (fun p => literalsIn p.inner) = lines.flatMap Line.literals := by
  induction h with
  | nil => rfl
  | cons hl _ ih => rw [List.flatMap_cons, List.flatMap_cons, literalsIn_eq hl, ih]

end Blocks

theorem foldlM_sections {sections : List Section} (h : List.Forall₂ Section.ToldBy sections ps) :
    ∃ blocks, List.Forall₂ BlockToldBy sections blocks ∧
      ∀ o : Outline, ps.foldlM addPart o = pure { o with blocks := o.blocks ++ blocks } := by
  induction h with
  | nil => exact ⟨[], .nil, by simp⟩
  | @cons s p sections ps hs _ ih =>
    cases hs with
    | @intro l t t' lines qs hlines =>
      have hstep (o : Outline) : addPart o (.of .block t (.of .label t' [.ofName l] :: qs)) =
          pure { o with blocks := o.blocks ++ [(l, qs)] } := by
        simp [addPart, Pair.ofName]
      obtain ⟨blocks, hblocks, heq⟩ := ih
      refine ⟨(l, qs) :: blocks, .cons ⟨rfl, hlines⟩ hblocks, fun o => ?_⟩
      rw [List.foldlM_cons, hstep, pure_bind, heq]
      simp

variable {f : Func}

theorem foldlM_addLabel (labels : List String) (table : List (String × BlockId))
    (h : f.blocks.size ≠ 0) :
    (labels.zipIdx f.blocks.size).foldlM addLabel (f, table) = raised (do
      let table ← (places BlockId.mk f.blocks.size labels).foldlM
        (enter fun n => .malformed f.name (.labelDefinedTwice n)) table
      return (labels.foldl Func.addBlock f, table)) := by
  induction labels generalizing f table with
  | nil => rfl
  | cons l labels ih =>
    have hsize : (f.addBlock l).blocks.size = f.blocks.size + 1 := Array.size_push _
    have hstep : addLabel (f, table) (l, f.blocks.size) = raised (do
        let table ← enter (fun n => .malformed f.name (.labelDefinedTwice n)) table
          (l, ⟨f.blocks.size⟩)
        return (f.addBlock l, table)) := by
      simp [addLabel, h, raised_map]
      rfl
    rw [List.zipIdx_cons, places_cons, List.foldlM_cons, List.foldlM_cons, hstep]
    simp only [bind_assoc, raised_bind]
    refine bind_congr fun table => ?_
    rw [raised_pure, pure_bind, ← hsize, ih table (by omega), raised_bind]
    rfl

theorem foldlM_defineLine {lines : List Line} (h : List.Forall₂ Line.ToldBy lines ps) (k : ℕ)
    (values : List (String × InstrId)) :
    (ps.zipIdx k).foldlM (defineLine f) values = raised
      (((lines.zipIdx k).filterMap fun (l, i) => l.defines?.map (·, ⟨f.nodes.size + i⟩)).foldlM
        (enter fun n => .malformed f.name (.valueDefinedTwice n)) values) := by
  induction h generalizing k values with
  | nil => rfl
  | @cons l p lines ps hl _ ih =>
    rw [List.zipIdx_cons, List.zipIdx_cons, List.foldlM_cons, defineLine, definedName?_eq hl]
    cases hname : l.defines? with
    | none => simpa [hname] using ih (k + 1) values
    | some n =>
      rw [List.filterMap_cons_some (b := (n, ⟨f.nodes.size + k⟩)) (by simp [hname]),
        List.foldlM_cons, raised_bind]
      simp only [liftM_pure_parsing, pure_bind, ih (k + 1)]

variable {d : Definition} {bs lines : List Pair}

/-- The parameters must have different names. -/
theorem foldlM_addPart (hparams : List.Forall₂ ParamToldBy d.params ps)
    (hsections : List.Forall₂ Section.ToldBy d.sections bs) :
    ∃ blocks, List.Forall₂ BlockToldBy d.sections blocks ∧
      (ps ++ bs).foldlM addPart ⟨Func.empty d.name d.returns, [], []⟩ = raised (do
        d.distinct d.params .valueDefinedTwice
        return ⟨d.params.foldl Func.addParam (Func.empty d.name d.returns),
          places InstrId.mk 0 d.params, blocks⟩) := by
  obtain ⟨blocks, hblocks, heq⟩ := foldlM_sections hsections
  refine ⟨blocks, hblocks, ?_⟩
  have henter := foldlM_enter_distinct d .valueDefinedTwice [] (places InstrId.mk 0 d.params) .nil
  rw [map_fst_places] at henter
  rw [List.foldlM_append, foldlM_params hparams]
  change raised (List.foldlM (enter fun n => .malformed d.name _) _ (places InstrId.mk 0 d.params)
    >>= _) >>= _ = _
  simp only [henter, raised_bind, bind_assoc, pure_bind, raised_pure, heq]
  rfl

theorem foldlM_addLabel_skeleton : d.labels.zipIdx.foldlM addLabel
    (d.params.foldl Func.addParam (Func.empty d.name d.returns), []) = raised (do
      d.distinct d.labels .labelDefinedTwice
      return (d.skeleton, places BlockId.mk 0 d.labels)) := by
  obtain ⟨-, -, hblocks, hname, -⟩ := foldl_addParam (Func.empty d.name d.returns) d.params rfl
  rw [Definition.skeleton]
  set f := d.params.foldl Func.addParam (Func.empty d.name d.returns)
  cases hlabels : d.labels with
  | nil => rfl
  | cons first rest =>
    have hsize : (f.renameBlock .entry first).blocks.size = 1 := by
      rw [Func.renameBlock, Func.size_modifyBlock, hblocks]
      rfl
    have hstep : addLabel (f, []) (first, 0) =
        pure (f.renameBlock .entry first, [(first, .entry)]) := by
      simp [addLabel, enter, block_eq (f := f) (b := .entry) (hblocks ▸ Nat.one_pos)]
      rfl
    have henter := foldlM_enter_distinct d .labelDefinedTwice [(first, .entry)]
      (places BlockId.mk 1 rest) (List.nodup_singleton _)
    rw [map_fst_places] at henter
    have hrest := foldlM_addLabel rest [(first, .entry)] (hsize.trans_ne Nat.one_ne_zero)
    rw [hsize] at hrest
    rw [List.zipIdx_cons, List.foldlM_cons, hstep, pure_bind, hrest]
    have hname' : (f.renameBlock .entry first).name = d.name := hname
    rw [hname', henter]
    simp only [bind_assoc, pure_bind]
    rfl

theorem foldlM_defineLine_names (hlines : List.Forall₂ Line.ToldBy d.lines lines)
    (hname : f.name = d.name) (hparams : d.params.Nodup) :
    lines.zipIdx.foldlM (defineLine f) (places InstrId.mk 0 d.params) = raised (do
      d.distinct (d.params ++ d.lines.filterMap Line.defines?) .valueDefinedTwice
      return (d.names f.nodes.size).values) := by
  have hkeys := map_fst_places InstrId.mk 0 d.params
  have hall := keys_values d f.nodes.size
  change (places InstrId.mk 0 d.params ++ _).map Prod.fst = _ at hall
  rw [List.map_append, hkeys] at hall
  rw [foldlM_defineLine hlines 0, hname,
    foldlM_enter_distinct d _ _ _ (hkeys.symm ▸ hparams), hkeys]
  exact congrArg (fun names => raised (do
    d.distinct names .valueDefinedTwice
    return (d.names f.nodes.size).values)) hall

end Outlines

end LoopBounds.Guarded
