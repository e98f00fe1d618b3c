import LoopBounds.Proofs.Func.Growth

/-!
# Where a function has grown

What a block lists beyond what it listed before is code that has been added to it. A function
appends in certain blocks when it adds code to these only and every new node is a constant or
such code. The added code of a block stands in the order in which it was written, and each
instruction reads only what comes before it.
-/

namespace LoopBounds.Func

variable {f g h : Func} {P : BlockId → Prop} {b : BlockId} {x : InstrId} {i : Instr}

/-- The code that `g` has at the end of the body of block `b` and that `f` has not. -/
def added (f g : Func) (b : BlockId) : List InstrId :=
  (g.block b).body.drop (f.block b).body.length

theorem added_eq {code : List InstrId} (h : (g.block b).body = (f.block b).body ++ code) :
    f.added g b = code := by
  rw [added, h, List.drop_left]

@[simp] theorem added_self (f : Func) (b : BlockId) : f.added f b = [] := List.drop_length

theorem Extends.extendsBlock_added (hfg : f.Extends g) (b : BlockId) :
    f.ExtendsBlock g b (f.added g b) := by
  obtain ⟨code, hcode⟩ := hfg.block b
  rwa [added_eq (congrArg Block.body hcode.block)]

/-- The function `g` is `f` with constants and with code that has been appended to the bodies
of some blocks with `P`. -/
structure Appends (f : Func) (P : BlockId → Prop) (g : Func) : Prop extends f.Extends g where
  confined : ∀ b, f.added g b ≠ [] → P b
  sorted : ∀ b, (f.added g b).Pairwise (·.index < ·.index)
  operand : ∀ b, ∀ x ∈ f.added g b, ∀ y ∈ (g.instr x).operands, y.index < x.index
  fresh : ∀ x, f.nodes.size ≤ x.index → x.index < g.nodes.size →
    (∃ v, g.instr x = .constant v) ∨ x ∈ f.added g (g.home x)

theorem appends_refl (f : Func) (P : BlockId → Prop) : f.Appends P f where
  toExtends := extends_refl f
  confined b h := absurd (added_self f b) h
  sorted b := by simp
  operand b x hx := absurd hx (by simp)
  fresh x hx hlt := absurd hlt (Nat.not_lt.mpr hx)

theorem Extends.nodes_prefix (hfg : f.Extends g) : f.nodes.toList <+: g.nodes.toList := by
  rw [List.prefix_iff_getElem]
  refine ⟨by simpa using hfg.size, fun k hk => ?_⟩
  rw [Array.length_toList] at hk
  have hnode := hfg.node ⟨k⟩ hk
  simp only [Func.node, Array.getElem?_eq_getElem hk,
    Array.getElem?_eq_getElem (hk.trans_le hfg.size), Option.getD_some] at hnode
  exact hnode.symm

theorem added_addInstr (hfg : f.Extends g) (hb : b.index < f.blocks.size) :
    f.added (g.addInstr b none i) b = f.added g b ++ [g.nextId] := by
  apply added_eq
  rw [block_addInstr, if_pos ⟨rfl, hfg.blocks ▸ hb⟩, (hfg.extendsBlock_added b).block,
    List.append_assoc]

namespace Appends

variable (hg : f.Appends P g)

include hg

theorem isCode (hx : x ∈ f.added g b) : (g.instr x).IsCode :=
  (hg.extendsBlock_added b).isCode x hx

theorem home_eq (hx : x ∈ f.added g b) : g.home x = b := (hg.extendsBlock_added b).home x hx

theorem index_lt (hx : x ∈ f.added g b) : x.index < g.nodes.size :=
  ((hg.extendsBlock_added b).new x hx).2

/-- Without new nodes and new code nothing is new but the counter of names. -/
theorem addConstant (v : Int32) : f.Appends P (g.addConstant v).2 := by
  have hext := extends_addConstant g v
  have hadded (b : BlockId) : f.added (g.addConstant v).2 b = f.added g b := by
    rw [added, block_addConstant, added]
  refine ⟨hg.toExtends.trans hext, fun b => ?_, fun b => ?_, fun b x hx => ?_, fun x hx hlt => ?_⟩
  · exact hadded b ▸ hg.confined b
  · exact hadded b ▸ hg.sorted b
  · rw [hadded] at hx
    rw [hext.instr (hg.index_lt hx)]
    exact hg.operand b x hx
  · by_cases hold : x.index < g.nodes.size
    · rw [hext.instr hold, hext.home hold, hadded]
      exact hg.fresh x hx hold
    · refine .inl ⟨v, ?_⟩
      unfold Func.addConstant at hlt ⊢
      split at hlt
      · exact absurd hlt hold
      · rw [nodes_pushConstant, Array.size_push] at hlt
        obtain rfl := eq_nextId hold hlt
        exact instr_pushConstant_nextId g v

theorem addInstr (hb : b.index < f.blocks.size) (hP : P b) (hi : i.IsCode)
    (hops : ∀ y ∈ i.operands, y.index < g.nodes.size) : f.Appends P (g.addInstr b none i) := by
  have hext := extends_addInstr g b none hi
  have hadded : f.added (g.addInstr b none i) b = f.added g b ++ [g.nextId] :=
    added_addInstr hg.toExtends hb
  have hother {c : BlockId} (hc : b ≠ c) : f.added (g.addInstr b none i) c = f.added g c := by
    rw [added, block_addInstr, if_neg (fun h => hc h.1), added]
  have hinstr : (g.addInstr b none i).instr g.nextId = i := instr_addNode_nextId (f := g)
  have hsorted : (f.added g b ++ [g.nextId]).Pairwise (·.index < ·.index) := by
    refine List.pairwise_append.mpr ⟨hg.sorted b, List.pairwise_singleton _ _, fun x hx y hy => ?_⟩
    rw [List.mem_singleton.mp hy]
    exact hg.index_lt hx
  have hold {c : BlockId} {x : InstrId} (hx : x ∈ f.added g c) :
      ∀ y ∈ ((g.addInstr b none i).instr x).operands, y.index < x.index := by
    rw [hext.instr (hg.index_lt hx)]
    exact hg.operand c x hx
  refine ⟨hg.toExtends.trans hext, fun c hc => ?_, fun c => ?_, fun c x hx => ?_,
    fun x hx hlt => ?_⟩
  · by_cases hbc : b = c
    · exact hbc ▸ hP
    · exact hg.confined c (hother hbc ▸ hc)
  · by_cases hbc : b = c
    · rw [← hbc, hadded]
      exact hsorted
    · exact hother hbc ▸ hg.sorted c
  · by_cases hbc : b = c
    · rw [← hbc, hadded] at hx
      rcases List.mem_append.mp hx with hx | hx
      · exact hold hx
      · rw [List.mem_singleton.mp hx, hinstr]
        exact hops
    · exact hold (hother hbc ▸ hx)
  · by_cases hlt' : x.index < g.nodes.size
    · rw [hext.instr hlt', hext.home hlt']
      refine (hg.fresh x hx hlt').imp_right fun hmem => ?_
      by_cases hbc : b = g.home x
      · rw [← hbc, hadded]
        exact List.mem_append_left _ (hbc ▸ hmem)
      · rwa [hother hbc]
    · obtain rfl := eq_nextId hlt' (by rwa [nodes_size_addInstr] at hlt)
      have hhome : (g.addInstr b none i).home g.nextId = b := home_addNode_nextId (f := g)
      rw [hhome, hadded]
      exact .inr (List.mem_append_right _ List.mem_cons_self)

end Appends

end LoopBounds.Func
