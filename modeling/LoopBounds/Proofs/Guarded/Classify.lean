import LoopBounds.Proofs.Guarded.View

/-!
# Guarded classification

Both operands of an instruction are looked up before either is used, the first value of an
entry phi and the first member of a component must be there, a shift must stay within the word,
and limits are computed on 64 bits.
-/

namespace LoopBounds.Guarded

open LoopView (Present)

variable (v : LoopView)

section Trivial

/-- All of the values have the descriptor `d`. -/
def allMean (meaning : InstrId → Attempt Descriptor) (d : Descriptor) (ys : List InstrId) :
    Guarded Bool := ys.allM fun y => do return (← (meaning y).run) = some d

def common (meaning : InstrId → Attempt Descriptor) (x : InstrId) (start : Nat) :
    Attempt Descriptor := do
  match (← inputs v x).drop start with
  | [] => failure
  | first :: rest =>
      let d ← meaning first
      if ← allMean meaning d rest then return d else failure

/-- The word `2 ^ k`, for a `k` less than the length of a word. -/
def powerOfTwo (k : Int) : Guarded Int32 := do
  check .overflow (0 ≤ k ∧ k < 32)
  return Int32.ofNat (1 <<< k.toNat)

def shl? (x : Descriptor) (k : Int) : Attempt Descriptor := do
  if 0 ≤ k ∧ k < 31 then given (x.mul? (.constant (← powerOfTwo k))) else failure

/-- The result of an operation on two values, either of which may have no descriptor. -/
def arith (op : ArithOp) (a b : Option Descriptor) : Attempt Descriptor := do
  if op = .rem then failure
  let a ← given a
  let b ← given b
  match op with
  | .add => given (a.sum? false b)
  | .sub => given (a.sum? true b)
  | .mul => given (a.mul? b)
  | .div => given (a.div? b)
  | .shl => shl? a (← given b.always?).toInt
  | .rem => failure

def classifyTrivial (known : Classes) (x : InstrId) : Attempt Descriptor := do
  match ← instr v.func x with
  | .phi _ => common v (lookup v known) x 0
  | .arith op l r =>
      let a ← tried (lookup v known l)
      let b ← tried (lookup v known r)
      arith op a b
  | .neg y => given (← lookup v known y).neg?
  | _ => failure

def addTrivial (known : Classes) (x : InstrId) : Guarded Classes := do
  match ← (classifyTrivial v known x).run with
  | some d => return (x, d) :: known
  | none => return known

variable {v} {x : InstrId} {known : Classes} (hfound : v.Found)

section Common

variable {meaning : InstrId → Attempt Descriptor} {meaning' : InstrId → Option Descriptor}

include hfound

theorem common_eq (hx : x.index < v.func.nodes.size)
    (hmeaning : ∀ y ∈ v.inputs x, meaning y = given (meaning' y)) (start : ℕ) :
    common v meaning x start = given (v.common meaning' x start) := by
  have hdrop : ∀ y ∈ (v.inputs x).drop start, meaning y = given (meaning' y) :=
    fun y hy => hmeaning y (List.mem_of_mem_drop hy)
  simp only [common, inputs_eq hfound hx, liftM_pure_attempt, pure_bind, LoopView.common]
  cases hrest : (v.inputs x).drop start with
  | nil => rfl
  | cons first rest =>
    rw [hrest] at hdrop
    obtain ⟨hfirst, hrest⟩ := List.forall_mem_cons.mp hdrop
    have hall (d : Descriptor) : allMean meaning d rest =
        pure (rest.all fun y => meaning' y = some d) :=
      allM_eq fun y hy => by simp [hrest y hy]
    simp only [hfirst, hall]
    cases meaning' first with
    | none => rfl
    | some d =>
      simp only [given_some, pure_bind, liftM_pure_attempt]
      split_ifs <;> rfl

end Common

theorem shl?_eq (d : Descriptor) (k : Int) : shl? d k = given (d.shl? k) := by
  unfold shl? Descriptor.shl?
  split_ifs with hk
  · have hword : 0 ≤ k ∧ k < 32 := ⟨hk.1, hk.2.trans (by decide)⟩
    simp [powerOfTwo, check_eq hword]
  · rfl

theorem arith_eq (op : ArithOp) (a b : Option Descriptor) : arith op a b = given (do
    if op = .rem then none
    let a ← a
    let b ← b
    match op with
    | .add => a.sum? false b
    | .sub => a.sum? true b
    | .mul => a.mul? b
    | .div => a.div? b
    | .shl => a.shl? (← b.always?).toInt
    | .rem => none) := by
  cases a with
  | none => cases op <;> rfl
  | some a =>
    cases b with
    | none => cases op <;> rfl
    | some b =>
      cases op with
      | shl =>
        change (do shl? a (← given b.always?).toInt) = given (do a.shl? (← b.always?).toInt)
        exact given_bind_of fun k _ => shl?_eq a k.toInt
      | _ => rfl

include hfound

theorem classifyTrivial_eq (hx : v.Present x) :
    classifyTrivial v known x = given (v.classifyTrivial known x) := by
  have hoperand := hx.operand
  simp only [classifyTrivial, instr_eq hx.node, liftM_pure_attempt, pure_bind,
    LoopView.classifyTrivial]
  cases hi : v.func.instr x with
  | phi sources => exact common_eq hfound hx.node (fun y hy => lookup_eq hfound (hx.input hy)) 0
  | arith op l r =>
    rw [hi] at hoperand
    have hl := hoperand l (by simp [Instr.operands])
    have hr := hoperand r (by simp [Instr.operands])
    simp only [lookup_eq hfound hl, lookup_eq hfound hr, tried_given, pure_bind]
    exact arith_eq op _ _
  | neg y =>
    rw [hi] at hoperand
    have hy := hoperand y (by simp [Instr.operands])
    simp only [lookup_eq hfound hy]
    exact given_bind_of fun d _ => rfl
  | _ => rfl

theorem addTrivial_eq (hx : v.Present x) :
    addTrivial v known x = pure (v.addTrivial known x) := by
  simp only [addTrivial, classifyTrivial_eq hfound hx, run_given, pure_bind, LoopView.addTrivial]
  cases v.classifyTrivial known x <;> rfl

end Trivial

section Meanings

def invariant? (known : Classes) (x : InstrId) : Attempt Descriptor := do
  let d ← lookup v known x
  if d.isInvariant then return d else failure

/-- The value with which the phi `p` of the header starts. -/
def firstInput (p : InstrId) : Guarded InstrId := do found .noElement (← inputs v p).head?

def start? (known : Classes) (p : InstrId) : Attempt Descriptor := do
  lookup v known (← firstInput v p)

def phiMeaning (known cycle : Classes) (entry x : InstrId) : Attempt Descriptor := do
  match ← tried (common v (fun y => given (cycle.lookup y)) x 0) with
  | some d => return d
  | none =>
      match ← inputs v x with
      | [outside, carried] =>
          if (← home v.func x) = (← header v) then
            let first ← invariant? v known outside
            if carried = entry then return .periodic first (← start? v known entry)
            else
              let rest ← common v (fun y => given (cycle.lookup y)) x 1
              if rest.isPeriodic then return .periodic first rest else failure
          else failure
      | _ => failure

def stepMeaning (known cycle : Classes) (entry : InstrId) (minus : Bool) (x y : InstrId) :
    Attempt Descriptor := do
  let b ← invariant? v known y
  if x = entry then return if minus then .combine .neg none b else b
  else
    let a ← given ((cycle.lookup x).filter Descriptor.isInvariant)
    return .combine (Descriptor.sumOp minus) (some a) b

def reflectMeaning (known : Classes) (entry z x y : InstrId) : Attempt Descriptor := do
  match ← inputs v entry with
  | [outside, carried] =>
      if y = entry ∧ carried = z then
        let a ← invariant? v known x
        let initial ← lookup v known outside
        return .periodic (.combine .sub (some a) initial) initial
      else failure
  | _ => failure

def meaning (known cycle : Classes) (entry z : InstrId) : Attempt Descriptor := do
  match ← instr v.func z with
  | .phi _ => phiMeaning v known cycle entry z
  | .arith .add x y =>
      stepMeaning v known cycle entry false x y <|> stepMeaning v known cycle entry false y x
  | .arith .sub x y =>
      stepMeaning v known cycle entry true x y <|> reflectMeaning v known entry z x y
  | _ => failure

def meanings (known : Classes) (entry : InstrId) : Classes → List InstrId → Attempt Classes
  | cycle, [] => return cycle
  | cycle, z :: rest => do
      let d ← meaning v known cycle entry z
      meanings known entry ((z, d) :: cycle) rest

variable {v} {known cycle : Classes} {entry x y z : InstrId} {others : List InstrId}
variable (hfound : v.Found) (hentry : v.Present entry) (hne : v.inputs entry ≠ [])

include hfound

theorem invariant?_eq (hx : x.index < v.func.nodes.size) :
    invariant? v known x = given (v.invariant? known x) := by
  simp only [invariant?, lookup_eq hfound hx, LoopView.invariant?]
  cases v.lookup known x with
  | none => rfl
  | some d => cases hd : d.isInvariant <;> simp [hd, failure_eq, Option.filter]

theorem start?_eq (hx : v.Present x) (hne : v.inputs x ≠ []) :
    start? v known x = given (v.start? known x) := by
  obtain ⟨first, rest, hin⟩ := List.exists_cons_of_ne_nil hne
  have hfirst : first.index < v.func.nodes.size := hx.input (hin ▸ List.mem_cons_self)
  simp [start?, firstInput, LoopView.start?, inputs_eq hfound hx.node, hin, lookup_eq hfound hfirst]

theorem common_cycle_eq (hx : v.Present x) (start : ℕ) :
    common v (fun y => given (cycle.lookup y)) x start =
      given (v.common (fun y => cycle.lookup y) x start) :=
  common_eq hfound hx.node (fun _ _ => rfl) start

include hentry hne in
theorem phiMeaning_eq (hx : v.Present x) :
    phiMeaning v known cycle entry x = given (v.phiMeaning known cycle entry x) := by
  have hin {y : InstrId} (hy : y ∈ v.inputs x) : invariant? v known y =
      given (v.invariant? known y) := invariant?_eq hfound (hx.input hy)
  simp only [phiMeaning, common_cycle_eq hfound hx, tried_given, inputs_eq hfound hx.node,
    home_eq hx.node, header_eq hfound, start?_eq hfound hentry hne, liftM_pure_attempt, pure_bind,
    LoopView.phiMeaning]
  cases v.common (fun y => cycle.lookup y) x 0 with
  | some d => rfl
  | none =>
    dsimp only
    rcases hinputs : v.inputs x with _ | ⟨outside, _ | ⟨carried, _ | _⟩⟩
    · rfl
    · rfl
    · simp only [hin (hinputs ▸ List.mem_cons_self)]
      split_ifs
      · exact given_bind_of fun first _ => given_bind_of fun initial _ => rfl
      · refine given_bind_of fun first _ => given_bind_of fun rest _ => ?_
        split_ifs <;> rfl
      · rfl
    · rfl

theorem stepMeaning_eq {minus : Bool} (hy : y.index < v.func.nodes.size) :
    stepMeaning v known cycle entry minus x y =
      given (v.stepMeaning known cycle entry minus x y) := by
  simp only [stepMeaning, invariant?_eq hfound hy, LoopView.stepMeaning]
  refine given_bind_of fun b _ => ?_
  split_ifs
  · rfl
  · rfl
  · exact given_bind_of fun a _ => rfl

include hentry in
theorem reflectMeaning_eq (hx : x.index < v.func.nodes.size) :
    reflectMeaning v known entry z x y = given (v.reflectMeaning known entry z x y) := by
  have hin {y : InstrId} (hy : y ∈ v.inputs entry) : lookup v known y =
      given (v.lookup known y) := lookup_eq hfound (hentry.input hy)
  simp only [reflectMeaning, inputs_eq hfound hentry.node, invariant?_eq hfound hx,
    liftM_pure_attempt,
    pure_bind, LoopView.reflectMeaning]
  rcases hinputs : v.inputs entry with _ | ⟨outside, _ | ⟨carried, _ | _⟩⟩
  · rfl
  · rfl
  · simp only [hin (hinputs ▸ List.mem_cons_self)]
    split_ifs
    · exact given_bind_of fun a _ => given_bind_of fun initial _ => rfl
    · rfl
  · rfl

include hentry hne in
theorem meaning_eq (hz : v.Present z) :
    meaning v known cycle entry z = given (v.meaning known cycle entry z) := by
  have hoperand := hz.operand
  simp only [meaning, instr_eq hz.node, liftM_pure_attempt, pure_bind, LoopView.meaning]
  cases hi : v.func.instr z with
  | phi sources => exact phiMeaning_eq hfound hentry hne hz
  | arith op x y =>
    rw [hi] at hoperand
    have hx := hoperand x (by simp [Instr.operands])
    have hy := hoperand y (by simp [Instr.operands])
    cases op with
    | add => simp only [stepMeaning_eq hfound hx, stepMeaning_eq hfound hy, given_orElse]
    | sub => simp only [stepMeaning_eq hfound hy, reflectMeaning_eq hfound hentry hx, given_orElse]
    | _ => rfl
  | _ => rfl

include hentry hne in
theorem meanings_eq (hothers : ∀ z ∈ others, v.Present z) :
    meanings v known entry cycle others = given (v.meanings known entry cycle others) := by
  induction others generalizing cycle with
  | nil => rfl
  | cons z others ih =>
    obtain ⟨hz, hothers⟩ := List.forall_mem_cons.mp hothers
    simp only [meanings, meaning_eq hfound hentry hne hz]
    exact given_bind_of fun d _ => ih hothers

end Meanings

section Cycle

def classifyAlone (known : Classes) (p : InstrId) (initial : Descriptor) : Guarded Classes := do
  match ← (common v (lookup v known) p 1).run with
  | some update => return (p, .wrapAround initial update) :: known
  | none => return known

/-- What the cycle brings back to the phi `p`. -/
def broughtBack (known : Classes) (p : InstrId) (others : List InstrId) : Attempt Descriptor := do
  let cycle ← meanings v known p [] others
  common v (fun y => given (cycle.lookup y)) p 1

def classifyRound (known : Classes) (p : InstrId) (others : List InstrId)
    (initial : Descriptor) : Guarded Classes := do
  match ← (broughtBack v known p others).run with
  | none => return known
  | some d =>
      if d.isInvariant then others.foldlM (addTrivial v) ((p, .linear d initial) :: known)
      else if d.isPeriodic then return LoopView.spread known d (others.reverse ++ [p])
      else return known

def classifyCycle (known : Classes) (p : InstrId) (others : List InstrId) : Guarded Classes := do
  match (← (start? v known p).run).filter Descriptor.isInvariant with
  | none => return known
  | some initial =>
      match others with
      | [] => classifyAlone v known p initial
      | _ => classifyRound v known p others initial

def fromEntry (component : List InstrId) : Guarded (List InstrId) := do
  let marked ← component.mapM fun x => do return (x, ← isEntryPhi v x)
  return (marked.dropWhile (!·.2) ++ marked.takeWhile (!·.2)).map Prod.fst

def classifyComponent (known : Classes) (component : List InstrId) : Guarded Classes := do
  match ← component.anyM (isEntryPhi v), component with
  | _, [] => throw .noElement
  | false, [x] => addTrivial v known x
  | false, _ => return known
  | true, component =>
      match ← fromEntry v component with
      | [] => throw .noElement
      | p :: others => classifyCycle v known p others

def classes : Guarded Classes := do
  (← components (deps v) (← members v)).foldlM (classifyComponent v) []

variable {v} {known : Classes} {p : InstrId} {others component : List InstrId} {d : Descriptor}

section View

variable (hfound : v.Found)

include hfound

theorem classifyAlone_eq (hp : v.Present p) :
    classifyAlone v known p d = pure (v.classifyAlone known p d) := by
  have hcommon : common v (lookup v known) p 1 = given (v.common (v.lookup known) p 1) :=
    common_eq hfound hp.node (fun y hy => lookup_eq hfound (hp.input hy)) 1
  simp only [classifyAlone, hcommon, run_given, pure_bind, LoopView.classifyAlone]
  cases v.common (v.lookup known) p 1 <;> rfl

theorem broughtBack_eq (hp : v.Present p) (hne : v.inputs p ≠ [])
    (hothers : ∀ z ∈ others, v.Present z) : broughtBack v known p others =
      given ((v.meanings known p [] others).bind fun cycle =>
        v.common (fun y => cycle.lookup y) p 1) := by
  simp only [broughtBack, meanings_eq hfound hp hne hothers]
  exact given_bind_of fun cycle _ => common_cycle_eq hfound hp 1

theorem foldlM_addTrivial_eq (hothers : ∀ z ∈ others, v.Present z) :
    others.foldlM (addTrivial v) known = pure (others.foldl v.addTrivial known) :=
  foldlM_eq (I := fun _ => True) (fun _ _ x hx => ⟨addTrivial_eq hfound (hothers x hx), trivial⟩)
    trivial

theorem classifyRound_eq (hp : v.Present p) (hne : v.inputs p ≠ [])
    (hothers : ∀ z ∈ others, v.Present z) :
    classifyRound v known p others d = pure (v.classifyRound known p others d) := by
  simp only [classifyRound, broughtBack_eq hfound hp hne hothers, run_given, pure_bind,
    foldlM_addTrivial_eq hfound hothers, LoopView.classifyRound]
  cases (v.meanings known p [] others).bind fun cycle => v.common (fun y => cycle.lookup y) p 1 with
  | none => rfl
  | some d =>
    dsimp only
    split_ifs <;> rfl

theorem classifyCycle_eq (hp : v.Present p) (hne : v.inputs p ≠ [])
    (hothers : ∀ z ∈ others, v.Present z) :
    classifyCycle v known p others = pure (v.classifyCycle known p others) := by
  simp only [classifyCycle, start?_eq hfound hp hne, run_given, pure_bind, LoopView.classifyCycle]
  cases (v.start? known p).filter Descriptor.isInvariant with
  | none => rfl
  | some initial =>
    cases others with
    | nil => exact classifyAlone_eq hfound hp
    | cons z others => exact classifyRound_eq hfound hp hne hothers

theorem fromEntry_eq (hcomponent : ∀ x ∈ component, v.Present x) :
    fromEntry v component = pure (v.fromEntry component) := by
  have hmarked : component.mapM (fun x => do return (x, ← isEntryPhi v x)) =
      (pure (component.map fun x => (x, v.isEntryPhi x)) : Guarded _) :=
    mapM_eq fun x hx => by simp [isEntryPhi_eq hfound (hcomponent x hx).node]
  simp only [fromEntry, hmarked, pure_bind, List.dropWhile_map, List.takeWhile_map, List.map_append,
    List.map_map, LoopView.fromEntry]
  exact congrArg pure (congrArg₂ _ (List.map_id _) (List.map_id _))

theorem classifyComponent_eq (hne : component ≠ []) (hcomponent : ∀ x ∈ component, v.Present x) :
    classifyComponent v known component = pure (v.classifyComponent known component) := by
  have hany : component.anyM (isEntryPhi v) = pure (component.any v.isEntryPhi) :=
    anyM_eq fun x hx => isEntryPhi_eq hfound (hcomponent x hx).node
  simp only [classifyComponent, hany, pure_bind, LoopView.classifyComponent]
  obtain ⟨x, rest, rfl⟩ := List.exists_cons_of_ne_nil hne
  cases h : (x :: rest).any v.isEntryPhi with
  | false =>
    cases rest with
    | nil => exact addTrivial_eq hfound (hcomponent x List.mem_cons_self)
    | cons => rfl
  | true =>
    simp only [fromEntry_eq hfound hcomponent, pure_bind]
    have hperm := v.fromEntry_perm (x :: rest)
    cases hfrom : v.fromEntry (x :: rest) with
    | nil => cases (hfrom ▸ hperm).nil_eq
    | cons p others =>
      have hmem : ∀ y ∈ p :: others, v.Present y :=
        fun y hy => hcomponent y (hperm.mem_iff.mp (hfrom ▸ hy))
      obtain ⟨hp, hothers⟩ := List.forall_mem_cons.mp hmem
      exact classifyCycle_eq hfound hp (LoopView.inputs_ne_nil_of_isEntryPhi
        (Setting.isEntryPhi_of_fromEntry h hfrom)) hothers

end View

variable (hv : v.Grounded)

include hv

theorem components_deps_eq : components (deps v) v.members = pure v.components :=
  components_eq (fun _ hx => deps_eq hv.toFound (hv.present_of_mem_members hx))
    fun _ _ hx hy => LoopView.mem_members_of_mem_deps hv.finished hv.linked hx hy

theorem classes_eq : classes v = pure v.classes := by
  have hspec := Components.invariant_components
    (fun _ _ hx hy => LoopView.mem_members_of_mem_deps hv.finished hv.linked hx hy)
    (fun _ (hx : _ ∈ v.members) => hx)
  simp only [classes, members_eq hv.toFound hv.blocks, components_deps_eq hv, pure_bind]
  refine foldlM_eq (I := fun _ => True) (fun known _ c hc => ⟨?_, trivial⟩) trivial
  refine classifyComponent_eq hv.toFound (hspec.nonempty c hc) fun x hx => ?_
  have hseen := hspec.seen x (List.mem_append_right _ (List.mem_flatten.mpr ⟨c, hc, hx⟩))
  exact hv.present_of_mem_members hseen.2

end Cycle

section TripCount

/-- The result of an operation on 64 bits. -/
def wide (z : Int) : Guarded Int := do
  check .overflow (-2 ^ 63 ≤ z ∧ z < 2 ^ 63)
  return z

theorem wide_eq {z : Int} (h : -2 ^ 63 ≤ z ∧ z < 2 ^ 63) : wide z = pure z := by
  simp only [wide, check_eq h, pure_bind]

def surelyFinite (upper : Descriptor) (stride : Int) (cmp : Comparison) : Guarded Bool := do
  let most (limit : Int) : Bool := upper.atMost?.any fun v => v.toInt ≤ limit
  let least (limit : Int) : Bool := upper.atLeast?.any fun v => limit ≤ v.toInt
  match cmp with
  | .lt => return stride = 1 || most (← wide ((← wide (Int32.maxValue.toInt - stride)) + 1))
  | .le => return most (← wide (Int32.maxValue.toInt - stride))
  | .gt => return stride = -1 || least (← wide ((← wide (Int32.minValue.toInt - stride)) - 1))
  | .ge => return least (← wide (Int32.minValue.toInt - stride))
  | _ => return false

def tripCountOf (lower upper stride : Descriptor) (step : Int) (cmp : Comparison) :
    Guarded Descriptor := do
  let finite ← surelyFinite upper step cmp
  let size ← wide step.natAbs
  let cancels := (cmp = .lt ∨ cmp = .gt) ∧ size = 1
  let limit :=
    if cancels then upper
    else .combine .add (some (Descriptor.inclusiveLimit upper cmp)) stride
  return .guardedCount
    ⟨!Descriptor.surelyHolds lower upper cmp, !finite⟩
    (.combine .div (some (.combine .sub (some limit) lower)) stride)
    (.combine (Descriptor.testOperation cmp) (some lower) upper)

def linearTripCount? (stride lower upper : Descriptor) (cmp : Comparison) :
    Attempt Descriptor := do
  let step := (← given stride.always?).toInt
  let cmp := Descriptor.orderedTest lower upper step cmp
  if Descriptor.movesTowards step cmp then tripCountOf lower upper stride step cmp else failure

def conditionTripCount? (a b : Descriptor) (cmp : Comparison) : Attempt Descriptor :=
  match a, b with
  | .linear stride lower, b =>
      if b.isInvariant then linearTripCount? stride lower b cmp else failure
  | a, .linear stride lower =>
      if a.isInvariant && cmp ≠ .eq then linearTripCount? stride lower a cmp.swap
      else failure
  | _, _ => failure

def control? (known : Classes) (x : InstrId) :
    Attempt (Descriptor × Descriptor × Comparison) := do
  match ← instr v.func x with
  | .branch c t e =>
      match ← instr v.func c with
      | .compare op l r =>
          let a ← tried (lookup v known l)
          let b ← tried (lookup v known r)
          let a ← given a
          let b ← given b
          match ← contains v.forest v.id t, ← contains v.forest v.id e with
          | true, false => return (a, b, op)
          | false, true => return (a, b, op.inverse)
          | _, _ => failure
      | _ => failure
  | _ => failure

def tripCount? (known : Classes) (control : InstrId) : Attempt Descriptor := do
  let (a, b, cmp) ← control? v known control
  conditionTripCount? a b cmp

def classesWithTripCount : Guarded Classes := do
  let known ← classes v
  match ← terminator? v.func (← header v) with
  | none => return known
  | some control =>
      match ← (tripCount? v known control).run with
      | some trip => return (control, trip) :: known
      | none => return known

variable {v} {known : Classes} {control : InstrId} {stride lower upper : Descriptor}

section Limits

variable {step : Int} (hstep : Int32.minValue.toInt ≤ step ∧ step ≤ Int32.maxValue.toInt)

include hstep

theorem surelyFinite_eq (cmp : Comparison) :
    surelyFinite upper step cmp = pure (upper.surelyFinite step cmp) := by
  rw [Int32.toInt_minValue, Int32.toInt_maxValue] at hstep
  have hwide {z : Int} (h : -2 ^ 33 ≤ z ∧ z ≤ 2 ^ 33) : wide z = pure z := wide_eq (by omega)
  cases cmp with
  | lt =>
    simp only [surelyFinite]
    rw [Int32.toInt_maxValue, hwide (by omega), pure_bind, hwide (by omega)]
    rfl
  | le =>
    simp only [surelyFinite]
    rw [Int32.toInt_maxValue, hwide (by omega)]
    rfl
  | gt =>
    simp only [surelyFinite]
    rw [Int32.toInt_minValue, hwide (by omega), pure_bind, hwide (by omega)]
    rfl
  | ge =>
    simp only [surelyFinite]
    rw [Int32.toInt_minValue, hwide (by omega)]
    rfl
  | eq | ne => rfl

theorem tripCountOf_eq (cmp : Comparison) : tripCountOf lower upper stride step cmp =
    pure (Descriptor.tripCountOf lower upper stride step cmp) := by
  have hsize : wide step.natAbs = pure (step.natAbs : Int) := by
    rw [Int32.toInt_minValue, Int32.toInt_maxValue] at hstep
    exact wide_eq (by omega)
  simp only [tripCountOf, surelyFinite_eq hstep, hsize, pure_bind, Nat.cast_eq_one]
  rfl

end Limits

theorem linearTripCount?_eq (cmp : Comparison) : linearTripCount? stride lower upper cmp =
    given (Descriptor.linearTripCount? stride lower upper cmp) := by
  refine given_bind_of fun (c : Int32) _ => ?_
  have hstep := And.intro c.minValue_le_toInt c.toInt_le
  simp only [tripCountOf_eq hstep]
  split_ifs <;> rfl

theorem conditionTripCount?_eq (a b : Descriptor) (cmp : Comparison) :
    conditionTripCount? a b cmp = given (Descriptor.conditionTripCount? a b cmp) := by
  cases a with
  | linear stride lower =>
    simp only [conditionTripCount?, Descriptor.conditionTripCount?, linearTripCount?_eq]
    split_ifs <;> rfl
  | _ =>
    cases b with
    | linear stride lower =>
      simp only [conditionTripCount?, Descriptor.conditionTripCount?, linearTripCount?_eq]
      split_ifs <;> rfl
    | _ => rfl

section View

variable (hfound : v.Found)

include hfound

theorem control?_eq (hcontrol : v.Present control)
    (htest : ∀ c ∈ (v.func.instr control).operands, v.Present c) :
    control? v known control = given (v.control? known control) := by
  simp only [control?, instr_eq hcontrol.node, liftM_pure_attempt, pure_bind, LoopView.control?]
  cases hi : v.func.instr control with
  | branch c t e =>
    rw [hi] at htest
    have hc := htest c (List.mem_singleton_self c)
    have hoperand := hc.operand
    simp only [instr_eq hc.node, liftM_pure_attempt, pure_bind]
    cases hi : v.func.instr c with
    | compare op l r =>
      rw [hi] at hoperand
      have hl := hoperand l (by simp [Instr.operands])
      have hr := hoperand r (by simp [Instr.operands])
      simp only [lookup_eq hfound hl, lookup_eq hfound hr,
        contains_eq hfound.finished.toClimbable, tried_given, pure_bind,
        liftM_pure_attempt]
      refine given_bind_of fun a _ => given_bind_of fun b _ => ?_
      change _ = given (match v.forest.contains v.id t, v.forest.contains v.id e with
        | true, false => some (a, b, op)
        | false, true => some (a, b, op.inverse)
        | _, _ => none)
      cases v.forest.contains v.id t <;> cases v.forest.contains v.id e <;> rfl
    | _ => rfl
  | _ => rfl

theorem tripCount?_eq (hcontrol : v.Present control)
    (htest : ∀ c ∈ (v.func.instr control).operands, v.Present c) :
    tripCount? v known control = given (v.tripCount? known control) := by
  simp only [tripCount?, control?_eq hfound hcontrol htest]
  exact given_bind_of fun t _ => conditionTripCount?_eq t.1 t.2.1 t.2.2

end View

theorem classesWithTripCount_eq (hv : v.Grounded) :
    classesWithTripCount v = pure v.classesWithTripCount := by
  simp only [classesWithTripCount, classes_eq hv, header_eq hv.toFound, terminator?_eq hv.header,
    pure_bind, LoopView.classesWithTripCount]
  cases hterm : v.func.terminator? v.header with
  | none => rfl
  | some control =>
    have hlisted : control ∈ (v.func.block v.header).instrs :=
      List.mem_append_right _ (Option.mem_toList.mpr hterm)
    simp only [tripCount?_eq hv.toFound (hv.present hlisted)
        (fun c hc => hv.present_operand hlisted hc),
      run_given, pure_bind]
    cases v.tripCount? v.classes control <;> rfl

end TripCount

section Analysis

/-- The loops of a function and the descriptors of their values. -/
def analysis (f : Func) : Guarded Analysis := do
  let forest ← loopForest f
  let classes ← forest.ids.mapM fun l => classesWithTripCount ⟨f, forest, l⟩
  return ⟨forest, classes.toArray⟩

variable {f : Func} (hf : f.Linked) (hfill : f.Filled)

include hf hfill

theorem grounded {l : LoopId} (hl : l ∈ f.flow.loopForest.ids) :
    (LoopView.mk f f.flow.loopForest l).Grounded where
  id := hl
  finished := hf.flow.finished
  linked := hf
  filled := hfill
  header := hf.flow.index_lt_of_reachable
    ((hf.flow.natural hl).reachable _ (hf.flow.natural hl).header_mem)
  blocks b hb := hf.flow.index_lt_of_reachable ((hf.flow.natural hl).reachable b hb)

theorem analysis_eq : analysis f = pure (Analysis.ofFunc f) := by
  have hclasses : f.flow.loopForest.ids.mapM
      (fun l => classesWithTripCount ⟨f, f.flow.loopForest, l⟩) =
      pure (f.flow.loopForest.ids.map fun l =>
        (LoopView.mk f f.flow.loopForest l).classesWithTripCount) :=
    mapM_eq fun l hl => classesWithTripCount_eq (grounded hf hfill hl)
  simp only [analysis, loopForest_eq hf.flow, hclasses, pure_bind]
  rfl

end Analysis

end LoopBounds.Guarded
