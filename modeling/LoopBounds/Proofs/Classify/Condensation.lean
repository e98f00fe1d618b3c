import LoopBounds.Proofs.Classify.Solving
import LoopBounds.Proofs.Listing.Hoisted
import Mathlib.Order.Antisymmetrization

/-!
# The components of a loop

The graph of a loop has the listed instructions whose block has the loop as its innermost one, and
an edge from each of them to those of its operands that are in the graph, too. Solving the loop
classifies the strongly connected components of this graph, each of them once, and after all others
that it leads to.
-/

namespace LoopBounds

open Relation (ReflTransGen)

namespace Components

variable {α : Type}

/-- The lists are the strongly connected components of the graph with the nodes `p` and the edges
`r`, each once and after all others that it leads to. -/
structure Condenses (r : α → α → Prop) (p : α → Prop) (found : List (List α)) : Prop where
  /-- A list holds what leads to some node and back. -/
  component : ∀ c ∈ found, ∃ x, p x ∧ ∀ y, y ∈ c ↔ AntisymmRel (ReflTransGen r) x y
  unique : ∀ x, p x → ∃! c, c ∈ found ∧ x ∈ c
  nodup : found.flatten.Nodup
  first : ∀ before c after, found = before ++ c :: after → ∀ x ∈ c, ∀ d ∈ found, ∀ y ∈ d,
    ReflTransGen r x y → d = c ∨ d ∈ before

variable {r : α → α → Prop} {deps : α → List α} {p : α → Prop} {found : List (List α)}
variable {c d : List α} {x y : α}

theorem Leads.reflTransGen (h : Leads deps p x y) (hr : ∀ x y, p x → y ∈ deps x → r x y) :
    ReflTransGen r x y := by
  induction h with
  | refl _ => exact .refl
  | step hx hy _ ih => exact .head (hr _ _ hx hy) ih

theorem DependenciesFirst.eq_of_mem (h : DependenciesFirst deps found)
    (hnodup : found.flatten.Nodup) (hc : c ∈ found) (hd : d ∈ found) (hxc : x ∈ c)
    (hxd : x ∈ d) : c = d :=
  h.eq_of_leads hnodup hc hd hxc hxd (.refl (c := fun _ => True) trivial) (.refl trivial)

section Graph

variable (hdeps : ∀ x, p x → ∀ y, y ∈ deps x ↔ r x y) (hp : ∀ x y, r x y → p y)

include hp in
theorem property_of_reflTransGen (h : ReflTransGen r x y) (hx : p x) : p y := by
  rcases h.cases_tail with rfl | ⟨z, -, hzy⟩
  · exact hx
  · exact hp z y hzy

include hdeps hp

theorem leads_of_reflTransGen (h : ReflTransGen r x y) (hx : p x) :
    Leads deps (fun _ => True) x y := by
  induction h using ReflTransGen.head_induction_on with
  | refl => exact .refl trivial
  | head hxz _ ih => exact .step trivial ((hdeps _ hx _).mpr hxz) (ih (hp _ _ hxz))

variable (hfirst : DependenciesFirst deps found) (hnodup : found.flatten.Nodup)
variable (hmem : ∀ x, x ∈ found.flatten ↔ p x)

include hfirst hnodup hmem

theorem mem_iff_antisymmRel (hc : c ∈ found) (hjoined : Joined deps c) (hx : x ∈ c) :
    y ∈ c ↔ AntisymmRel (ReflTransGen r) x y := by
  have hpc (z : α) (hz : z ∈ c) : p z := (hmem z).mp (List.mem_flatten.mpr ⟨c, hc, hz⟩)
  constructor
  · intro hy
    have hpath {z w : α} (hz : z ∈ c) (hw : w ∈ c) : ReflTransGen r z w :=
      (hjoined z hz w hw).reflTransGen fun a b ha hb => (hdeps a (hpc a ha) b).mp hb
    exact ⟨hpath hx hy, hpath hy hx⟩
  · rintro ⟨hxy, hyx⟩
    have hy : p y := property_of_reflTransGen hp hxy (hpc x hx)
    obtain ⟨d, hd, hyd⟩ := List.mem_flatten.mp ((hmem y).mpr hy)
    rwa [hfirst.eq_of_leads hnodup hc hd hx hyd
      (leads_of_reflTransGen hdeps hp hxy (hpc x hx)) (leads_of_reflTransGen hdeps hp hyx hy)]

/-- Joined lists of the nodes, dependencies first, are the strongly connected components. -/
theorem condenses_of_dependenciesFirst (hjoined : ∀ c ∈ found, Joined deps c)
    (hne : ∀ c ∈ found, c ≠ []) : Condenses r p found where
  component c hc := by
    obtain ⟨x, hx⟩ := List.exists_mem_of_ne_nil c (hne c hc)
    exact ⟨x, (hmem x).mp (List.mem_flatten.mpr ⟨c, hc, hx⟩),
      fun _ => mem_iff_antisymmRel hdeps hp hfirst hnodup hmem hc (hjoined c hc) hx⟩
  unique x hx := by
    obtain ⟨c, hc, hxc⟩ := List.mem_flatten.mp ((hmem x).mpr hx)
    exact ⟨c, ⟨hc, hxc⟩, fun d ⟨hd, hxd⟩ => hfirst.eq_of_mem hnodup hd hc hxd hxc⟩
  nodup := hnodup
  first before c after heq x hx d hd y hy hxy := by
    have hsplit : found = (before ++ [c]) ++ after := by simp [heq]
    have hpx : p x := (hmem x).mp (List.mem_flatten.mpr ⟨c, by simp [heq], hx⟩)
    have hbefore : y ∈ (before ++ [c]).flatten :=
      hfirst.mem_of_leads hsplit (by simp [hx]) (leads_of_reflTransGen hdeps hp hxy hpx)
    obtain ⟨e, he, hye⟩ := List.mem_flatten.mp hbefore
    obtain rfl := hfirst.eq_of_mem hnodup hd (hsplit ▸ List.mem_append_left _ he) hy hye
    exact (List.mem_append.mp he).symm.imp_left List.mem_singleton.mp

end Graph

theorem condenses_components [DecidableEq α] {nodes : List α}
    (hdeps : ∀ x ∈ nodes, ∀ y, y ∈ deps x ↔ r x y) (hnodes : ∀ x y, r x y → y ∈ nodes) :
    Condenses r (· ∈ nodes) (components deps nodes) := by
  have hclosed (x y : α) (hx : x ∈ nodes) (hy : y ∈ deps x) : y ∈ nodes :=
    hnodes x y ((hdeps x hx y).mp hy)
  have hinvariant := invariant_components hclosed (fun _ (hx : _ ∈ nodes) => hx)
  obtain ⟨hnodup, hjoined, hmem⟩ := components_spec hclosed (fun _ (hx : _ ∈ nodes) => hx)
  obtain ⟨hfirst, hall⟩ := components_order hclosed
  refine condenses_of_dependenciesFirst hdeps hnodes hfirst hnodup (fun x => ⟨fun hx => ?_, hall x⟩)
    hjoined hinvariant.nonempty
  obtain ⟨c, hc, hx⟩ := List.mem_flatten.mp hx
  exact hmem c hc x hx

end Components

namespace LoopView

variable {v : LoopView} {x y : InstrId}

/-- A listed instruction whose block has the loop as its innermost one. -/
def Inside (v : LoopView) (x : InstrId) : Prop :=
  ∃ b, x ∈ (v.func.block b).instrs ∧ v.forest.innermost? b = some v.id

/-- The instruction `y` is an operand of `x`, and both are inside. -/
def Uses (v : LoopView) (x y : InstrId) : Prop :=
  v.Inside x ∧ v.Inside y ∧ y ∈ (v.func.instr x).operands

variable (hv : v.forest.Finished)

include hv

theorem mem_members_iff : x ∈ v.members ↔ v.Inside x := by
  simp only [members, List.mem_flatMap, List.mem_filter, decide_eq_true_eq]
  constructor
  · rintro ⟨b, ⟨-, hinnermost⟩, hx⟩
    exact ⟨b, hx, hinnermost⟩
  · rintro ⟨b, hx, hinnermost⟩
    exact ⟨b, ⟨(hv.mem_of_innermost? hinnermost).2, hinnermost⟩, hx⟩

theorem mem_deps_iff_uses (hf : v.func.Linked) (hx : x ∈ v.members) :
    y ∈ v.deps x ↔ v.Uses x y := by
  rw [Uses, ← mem_members_iff hv, ← mem_members_iff hv, ← mem_inputs_iff]
  constructor
  · intro hy
    exact ⟨hx, mem_members_of_mem_deps hv hf hx hy, List.mem_of_mem_filter hy⟩
  · rintro ⟨-, hy, hin⟩
    exact List.mem_filter.mpr ⟨hin, (owns_of_mem_members hv hf hy).member⟩

theorem condenses (hf : v.func.Linked) : Components.Condenses v.Uses v.Inside v.components := by
  have hmembers : v.Inside = (· ∈ v.members) :=
    funext fun x => propext (mem_members_iff hv).symm
  rw [hmembers]
  exact Components.condenses_components (fun x hx y => mem_deps_iff_uses hv hf hx)
    fun x y h => (mem_members_iff hv).mpr h.2.1

/-- The recursion ends in one state only, and what it has found condenses the graph. -/
theorem exists_solution (hf : v.func.Linked) :
    ∃ r : Progress, (∀ t, v.Solves v.members .start t ↔ t = r) ∧
      r.known = r.search.found.foldl v.classifyComponent [] ∧
      r.search.found = v.components ∧ r.known = v.classes ∧
      Components.Condenses v.Uses v.Inside r.search.found :=
  ⟨_, fun _ => solves_iff hv hf, rfl, rfl, rfl, condenses hv hf⟩

end LoopView

/-- Solving a loop of a parsed function ends, in one state only. What has been classified are the
strongly connected components of the loop's graph, each once and after all others that it leads
to. -/
theorem Func.condenses_of_parse {text : String} {fs : List Func} {f : Func}
    (h : parse text = .ok fs) (hmem : f ∈ fs) (l : LoopId) :
    let v := LoopView.mk f f.flow.loopForest l
    ∃ r : Progress, (∀ t, v.Solves v.members .start t ↔ t = r) ∧
      r.known = r.search.found.foldl v.classifyComponent [] ∧
      r.search.found = v.components ∧ r.known = v.classes ∧
      Components.Condenses v.Uses v.Inside r.search.found := by
  have hf : f.Linked := linked_of_parse h hmem
  exact LoopView.exists_solution (v := ⟨f, f.flow.loopForest, l⟩) hf.flow.finished hf

/-- A loop of which one phi takes the value of the other, and that one the value of a sum. -/
def relayText : String :=
  "define i32 @relay(i32 %n) \x7b
entry:
  br label %header
header:
  %p = phi i32 [ 0, %entry ], [ %r, %body ]
  %q = phi i32 [ 1, %entry ], [ %p, %body ]
  %test = icmp slt i32 %q, %n
  br i1 %test, label %body, label %exit
body:
  %r = add i32 %q, 1
  br label %header
exit:
  ret i32 %q
\x7d
"

/-- The phis and the sum are one component. The test and the jumps come after it. -/
theorem relay_condenses : ∃ f, Func.parse relayText = .ok [f] ∧
    let v := LoopView.mk f f.flow.loopForest ⟨0⟩
    ∃ r : Progress, (∀ t, v.Solves v.members .start t ↔ t = r) ∧
      r.search.found = [[⟨5⟩, ⟨8⟩, ⟨4⟩], [⟨6⟩], [⟨7⟩], [⟨9⟩]] ∧
      Components.Condenses v.Uses v.Inside r.search.found := by
  obtain ⟨f, hparse, hcomponents⟩ := Func.exists_parsed (rfl : relayText = _)
    (P := fun f => (LoopView.mk f f.flow.loopForest ⟨0⟩).components =
      [[⟨5⟩, ⟨8⟩, ⟨4⟩], [⟨6⟩], [⟨7⟩], [⟨9⟩]]) (by decide +kernel)
  obtain ⟨r, hsolves, -, hfound, -, hcondenses⟩ :=
    Func.condenses_of_parse hparse (List.mem_singleton_self f) ⟨0⟩
  exact ⟨f, hparse, r, hsolves, hfound.trans hcomponents, hcondenses⟩

end LoopBounds
