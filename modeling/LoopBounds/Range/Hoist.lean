import LoopBounds.Range.Code

/-!
# Bounds in front of loops

For every loop with a preheader the bounds of its values in the body are computed in the
preheader, as far as there is code for them and they hold without a finite test. If one
of them holds only once the loop is entered, the taken test is computed there, too.
-/

namespace LoopBounds

namespace Analysis

variable (a : Analysis)

/-- The terminator of the first latch that is not the header: it lies in the body. -/
def bodyContext? (f : Func) (l : LoopId) : Option InstrId :=
  let loop := a.forest.get l
  (loop.latches.filter (· ≠ loop.header)).findSome? f.terminator?

/-- The function with the bounds hoisted so far, whether there are any, and whether one
of them needs a taken test. -/
structure Hoisted where
  func : Func
  changed : Bool
  needsTaken : Bool
  deriving DecidableEq, Repr

/-- Hoists the bounds of one value. -/
def hoistValue (context : InstrId) (target : BlockId) (h : Hoisted) (x : InstrId) :
    Hoisted :=
  match a.tests? h.func context x with
  | none => h
  | some tests =>
      if tests.needsFinite then h
      else
        match a.generateBounds h.func context x target with
        | (some _, f) => ⟨f, true, h.needsTaken || tests.needsTaken⟩
        | (none, f) => { h with func := f }

/-- Hoists the bounds of the values of one loop; tells whether there are any. -/
def hoistLoop (f : Func) (l : LoopId) : Func × Bool :=
  match (a.forest.get l).preheader, a.bodyContext? f l with
  | some target, some context =>
      let h := ((a.loopValues f l).map Prod.fst).foldl (a.hoistValue context target)
        ⟨f, false, false⟩
      let f := if h.needsTaken then (a.generateTaken h.func context target).2 else h.func
      (f, h.changed)
  | _, _ => (f, false)

end Analysis

/-- Hoists the bounds of all loops, outer loops first; tells whether any were found. -/
def Func.hoistBounds (f : Func) : Func × Bool :=
  let a := Analysis.ofFunc f
  a.forest.outerToInner.foldl
    (fun (f, changed) l =>
      let (f, here) := a.hoistLoop f l
      (f, changed || here))
    (f, false)

end LoopBounds
