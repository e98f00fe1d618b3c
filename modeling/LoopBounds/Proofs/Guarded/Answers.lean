import LoopBounds.Proofs.Guarded.Parse
import LoopBounds.Proofs.Guarded.Text

/-!
# No text stops a guarded run

Every function of a text is analysed, queried, printed and reported on, with guards at every
lookup, at every check that the program makes of itself and wherever an integer could overflow.
What a text parses to can be written and is linked, so that none of the guards stops the run.
-/

namespace LoopBounds

/-- All that can be asked of a function. -/
structure Answers where
  dominators : Dominators
  analysis : Analysis
  /-- The range of each value and the tests for its code, for the terminator of each block. -/
  queries : List (Option ValueRange × Option GuardTests)
  text : String
  hoisted : String
  induction : String
  ranges : String

namespace Func

variable (f : Func)

/-- The range of each value and the tests for its code, at one context. -/
def queriesAt (a : Analysis) (context : InstrId) : List (Option ValueRange × Option GuardTests) :=
  f.instrIds.map fun x => (a.range? f context x, a.tests? f context x)

/-- The same for the terminators of all blocks. -/
def queries (a : Analysis) : List (Option ValueRange × Option GuardTests) :=
  f.blockIds.flatMap fun b => ((f.terminator? b).map (f.queriesAt a)).getD []

def answers : Answers where
  dominators := f.flow.dominators
  analysis := Analysis.ofFunc f
  queries := f.queries (Analysis.ofFunc f)
  text := f.text
  hoisted := f.hoistBounds.1.text
  induction := Report.induction f (Analysis.ofFunc f)
  ranges := Report.ranges f (Analysis.ofFunc f)

end Func

namespace Guarded

section Queries

variable (a : Analysis) (f : Func)

def queriesAt (context : InstrId) : Guarded (List (Option ValueRange × Option GuardTests)) :=
  f.instrIds.mapM fun x => do
    return (← (range? a f context x).run, ← (tests? a f context x).run)

def queries : Guarded (List (Option ValueRange × Option GuardTests)) :=
  f.blockIds.flatMapM fun b => do
    match ← terminator? f b with
    | some context => queriesAt a f context
    | none => return []

variable {a f}

theorem queriesAt_eq {context : InstrId} (ha : a.Within f) (hc : context.index < f.nodes.size) :
    queriesAt a f context = pure (f.queriesAt a context) := by
  refine mapM_eq fun x hx => ?_
  have hx : x.index < f.nodes.size := by
    obtain ⟨k, hk, rfl⟩ := List.mem_map.mp hx
    exact List.mem_range.mp hk
  simp only [range?_eq ha hc hx, tests?_eq ha hc hx, run_given, pure_bind]

theorem queries_eq (ha : a.Within f) : queries a f = pure (f.queries a) := by
  refine flatMapM_eq fun b hb => ?_
  rw [terminator?_eq (Func.mem_blockIds.mp hb), pure_bind]
  cases h : f.terminator? b with
  | none => rfl
  | some context => exact queriesAt_eq ha (ha.index_lt_of_terminator? h)

end Queries

def answers (f : Func) : Guarded Answers := do
  let d ← dominators f
  let a ← analysis f
  return {
    dominators := d
    analysis := a
    queries := ← queries a f
    text := ← text f
    hoisted := ← text (← hoistBounds f).1
    induction := ← induction f a
    ranges := ← ranges f a }

/-- What can be asked of the functions of a text, or the first thing wrong with it. -/
def answersTo (source : String) : Parsing (List Answers) := do
  (← parse source).mapM fun f => liftM (answers f)

theorem answers_eq {f : Func} (hw : f.Writable) (hf : f.Linked) :
    answers f = pure f.answers := by
  have hwithin := Analysis.within_ofFunc hw hf
  simp only [answers, dominators_eq hf.flow, analysis_eq hf hw.filled, queries_eq hwithin,
    text_eq hw, hoistBounds_eq hw hf, text_eq (hw.hoistBounds hf), induction_eq hwithin,
    ranges_eq hwithin, pure_bind]
  rfl

/-- On every text the guarded run finds all that it looks up, none of its checks fails, and its
outcome is that of the program. -/
theorem answersTo_eq (source : String) : answersTo source =
    raised ((Func.parse source).map fun program => program.map Func.answers) := by
  rw [answersTo, parse_eq]
  cases h : Func.parse source with
  | error e => rfl
  | ok program =>
    have hanswers : program.mapM (fun f => liftM (answers f)) =
        (pure (program.map Func.answers) : Parsing (List Answers)) := by
      refine mapM_eq fun f hf => ?_
      rw [answers_eq (Func.writable_of_parse h hf) (Func.linked_of_parse h hf)]
      rfl
    change program.mapM (fun f => (liftM (answers f) : Parsing Answers)) = _
    rw [hanswers]
    rfl

end Guarded

end LoopBounds
