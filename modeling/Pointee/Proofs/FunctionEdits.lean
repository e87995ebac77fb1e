import Mathlib.Logic.Relation
import Pointee.Function
import Pointee.Proofs.GraphConsistency
import Pointee.Proofs.LayoutOrder

/-!
# Edits of a function

The passes change a function in two ways only: they insert a new instruction that defines a value
(`Function.Inserts`), and they make a value another operand of an instruction (`Graph.Rewires`).
`Function.Interposes` is the combination that all of them use: a new instruction is placed where an
operand is computed and takes the place of that operand. `Function.Sound` is kept by every edit.
-/

namespace Pointee

namespace Inst

/-- The property is one of the kind and the fields of an instruction, not of its operands. -/
def OfShape (P : Inst → Prop) : Prop := ∀ inst, P inst.shape ↔ P inst

/-- What is computed from the kind and the fields alone gives such properties. -/
theorem ofShape_eq {α : Type} {F : Inst → α} (hF : ∀ inst, F inst.shape = F inst) (a : α) :
    OfShape (F · = a) := by
  intro inst
  show F inst.shape = a ↔ F inst = a
  rw [hF]

theorem eq_of_shape {α : Type} {F : Inst → α} (hF : ∀ inst, F inst.shape = F inst)
    {inst inst' : Inst} (h : inst'.shape = inst.shape) : F inst' = F inst := by
  rw [← hF, h, hF]

theorem ofShape_isPhi : OfShape (·.isPhi = true) := by
  intro inst
  cases inst <;> exact Iff.rfl

end Inst

namespace Function

/-- Graph and layout are sound, and only instructions that exist have a place. -/
structure Sound (f : Function) : Prop where
  graph : f.graph.Sound
  layout : f.layout.Sound
  placed : ∀ b, ∀ i ∈ f.layout.instsOf b, i.index < f.graph.insts.size

/-- The function is sound, and all instructions that it has are placed. -/
structure Written (f : Function) : Prop extends Sound f where
  filled : ∀ i, i.index < f.graph.insts.size → i ∈ f.insts

variable {f f' : Function} {loc : Location} {inst : Inst} {ty : Ty} {b : BlockId}
  {front back : List InstId} {user : InstId} {slot : Nat}

theorem Sound.exists_inst (hf : f.Sound) {i : InstId} (hi : i ∈ f.layout.instsOf b) :
    ∃ inst, f.graph.inst i = .ok inst := Graph.exists_inst (hf.placed b i hi)

theorem Sound.mem_insts (hf : f.Sound) {i : InstId} :
    i ∈ f.insts ↔ ∃ b, i ∈ f.layout.instsOf b := hf.layout.mem_allInsts

theorem Sound.nodup_insts (hf : f.Sound) : f.insts.Nodup := hf.layout.nodup_allInsts

theorem Sound.lt_of_mem_insts (hf : f.Sound) {i : InstId} (hi : i ∈ f.insts) :
    i.index < f.graph.insts.size := by
  obtain ⟨b, hb⟩ := hf.mem_insts.1 hi
  exact hf.placed b i hb

theorem Sound.nextInst_fresh (hf : f.Sound) (c : BlockId) : f.graph.nextInst ∉ f.layout.instsOf c :=
  fun h => absurd (hf.placed c _ h) (Nat.lt_irrefl _)

/-- A function stays written if the instruction that it gets is placed. -/
theorem Written.more (hf : f.Written) (hf' : f'.Sound)
    (hsize : f'.graph.insts.size = f.graph.insts.size + 1)
    (hmem : ∀ i, i ∈ f'.insts ↔ i ∈ f.insts ∨ i = f.graph.nextInst) : f'.Written := by
  refine ⟨hf', fun i hi => (hmem i).2 ?_⟩
  rw [hsize] at hi
  rcases Nat.lt_succ_iff_lt_or_eq.1 hi with hi | hi
  · exact .inl (hf.filled i hi)
  · exact .inr (InstId.ext hi)

/-! ## Insertion -/

/-- `f'` is `f` with the new instruction `inst`, which defines a value of type `ty`, between `front`
and `back` in block `b`. -/
structure Inserts (f : Function) (b : BlockId) (front : List InstId) (inst : Inst) (ty : Ty)
    (back : List InstId) (f' : Function) : Prop where
  args : f'.args = f.args
  insts : f'.graph.insts = f.graph.insts.push inst
  values : f'.graph.values = f.graph.values.push (.inst f.graph.nextInst ty)
  result? : ∀ j, f'.graph.result? j =
    if j = f.graph.nextInst then some f.graph.nextValue else f.graph.result? j
  layout : f.layout.Inserts b front f.graph.nextInst back f'.layout
  sound : f'.Sound

namespace Inserts

theorem inst_eq (h : f.Inserts b front inst ty back f') (j : InstId) :
    f'.graph.inst j = if j = f.graph.nextInst then .ok inst else f.graph.inst j := by
  simp only [Graph.inst, h.insts, Array.getElem?_push, InstId.ext_iff, Graph.nextInst]
  split <;> rfl

theorem inst_new (h : f.Inserts b front inst ty back f') :
    f'.graph.inst f.graph.nextInst = .ok inst := by
  rw [h.inst_eq, if_pos rfl]

/-- An instruction that exists stays what it is. -/
theorem inst_old (h : f.Inserts b front inst ty back f') {j : InstId} {old : Inst}
    (hj : f.graph.inst j = .ok old) : f'.graph.inst j = .ok old := by
  rw [h.inst_eq, if_neg]
  · exact hj
  · rintro rfl
    exact absurd (Graph.inst_lt hj) (Nat.lt_irrefl _)

theorem value_eq (h : f.Inserts b front inst ty back f') (w : ValueId) :
    f'.graph.value w =
      if w = f.graph.nextValue then .ok (.inst f.graph.nextInst ty) else f.graph.value w := by
  simp only [Graph.value, h.values, Array.getElem?_push, ValueId.ext_iff, Graph.nextValue]
  split <;> rfl

theorem value_new (h : f.Inserts b front inst ty back f') :
    f'.graph.value f.graph.nextValue = .ok (.inst f.graph.nextInst ty) := by
  rw [h.value_eq, if_pos rfl]

theorem operand_eq (h : f.Inserts b front inst ty back f') (j : InstId) (s : Nat) :
    f'.graph.operand j s =
      if j = f.graph.nextInst then require inst.operands[s]? .outOfBounds
      else f.graph.operand j s := by
  simp only [Graph.operand, h.inst_eq]
  split <;> rfl

/-- An operand that exists stays what it is. -/
theorem operand_old (h : f.Inserts b front inst ty back f') {j : InstId} {s : Nat} {v : ValueId}
    (hv : f.graph.operand j s = .ok v) : f'.graph.operand j s = .ok v := by
  obtain ⟨old, hold, hs⟩ := Graph.operand_eq_ok.1 hv
  exact Graph.operand_eq_ok.2 ⟨old, h.inst_old hold, hs⟩

theorem mem_insts (h : f.Inserts b front inst ty back f') (hf : f.Sound) {i : InstId} :
    i ∈ f'.insts ↔ i ∈ f.insts ∨ i = f.graph.nextInst := h.layout.mem_allInsts hf.layout

theorem written (h : f.Inserts b front inst ty back f') (hf : f.Written) : f'.Written :=
  hf.more h.sound (by rw [h.insts, Array.size_push]) fun _ => h.mem_insts hf.toSound

/-- The new instruction is the only one that gets a place. -/
theorem length_insts (h : f.Inserts b front inst ty back f') (hf : f.Sound) :
    f'.insts.length = f.insts.length + 1 := by
  have hfresh : f.graph.nextInst ∉ f.insts := fun hmem =>
    absurd (hf.lt_of_mem_insts hmem) (Nat.lt_irrefl _)
  have hperm : f'.insts.Perm (f.graph.nextInst :: f.insts) := by
    refine (List.perm_ext_iff_of_nodup h.sound.nodup_insts
      (List.nodup_cons.2 ⟨hfresh, hf.nodup_insts⟩)).2 fun i => ?_
    rw [List.mem_cons, or_comm]
    exact h.mem_insts hf
  simpa using hperm.length_eq

/-- Values that exist stay what they are. -/
theorem keeps (h : f.Inserts b front inst ty back f') : f.graph.Keeps f'.graph := by
  intro w val hw
  rw [h.value_eq, if_neg]
  · exact hw
  · rintro rfl
    exact absurd (Graph.has_of_value hw) (Nat.lt_irrefl _)

end Inserts

/-- What an insertion is made of: a place in the layout, an instruction, and the value that it
defines. -/
theorem insert_eq_ok {ins : Insertion} (h : f.insert loc inst = .ok (ins, f')) :
    ∃ layout graph, f.layout.insertAt f.graph.nextInst loc = .ok layout ∧
      (f.graph.addInst inst).2.addResult f.graph.nextInst = .ok (ins.result, graph) ∧
      ins.inst = f.graph.nextInst ∧ f' = { f with graph, layout } := by
  obtain ⟨⟨i, mid⟩, hplace, hrest⟩ := bind_eq_ok_iff.1 h
  obtain ⟨⟨r, graph⟩, hresult, hrest⟩ := bind_eq_ok_iff.1 hrest
  cases pure_eq_ok_iff.1 hrest
  obtain ⟨layout, hlayout, hrest⟩ := bind_eq_ok_iff.1 hplace
  cases pure_eq_ok_iff.1 hrest
  exact ⟨layout, graph, hlayout, hresult, rfl, rfl⟩

/-- Address computations and casts compute a value, so one is made with them. -/
theorem result_of_insert {e : ConstExpr} {ins : Insertion}
    (h : f.insert loc e.toInst = .ok (ins, f')) : ∃ v, ins.result = some v := by
  obtain ⟨layout, graph, -, hresult, -, rfl⟩ := insert_eq_ok h
  obtain ⟨inst, ty, hinst, hty, ⟨rfl, -, -⟩ | ⟨_, -, hsome, -⟩⟩ := Graph.addResult_eq_ok hresult
  · rw [Graph.inst_addInst, if_pos rfl] at hinst
    cases hinst
    -- The type of the result cannot be missing.
    cases e with
    | cast op arg ty => cases hty
    | gep source result args =>
        cases args with
        | nil => cases hty
        | cons base rest =>
            obtain ⟨_, -, hnone⟩ := map_eq_ok_iff.1 hty
            cases hnone
  · exact ⟨_, hsome⟩

/-- What an insertion does if the instruction computes a value. -/
theorem insert_defines {ins : Insertion} (h : f.insert loc inst = .ok (ins, f'))
    (hty : f.graph.resultType inst = .ok (some ty)) :
    ins = ⟨f.graph.nextInst, some f.graph.nextValue⟩ ∧ f'.args = f.args ∧
      f.layout.insertAt f.graph.nextInst loc = .ok f'.layout ∧
      f'.graph.insts = f.graph.insts.push inst ∧
      f'.graph.values = f.graph.values.push (.inst f.graph.nextInst ty) ∧
      ∀ j, f'.graph.result? j =
        if j = f.graph.nextInst then some f.graph.nextValue else f.graph.result? j := by
  obtain ⟨layout, graph, hlayout, hresult, hins, rfl⟩ := insert_eq_ok h
  have hinst : (f.graph.addInst inst).2.inst f.graph.nextInst = .ok inst := by
    rw [Graph.inst_addInst, if_pos rfl]
  have hkeeps : f.graph.Keeps (f.graph.addInst inst).2 := by
    intro v val hval
    simpa [Graph.addInst, Graph.value] using hval
  have hnext : (f.graph.addInst inst).2.nextValue = f.graph.nextValue := by
    simp [Graph.addInst, Graph.nextValue]
  have hmade := Graph.addResult_of_resultType hinst (hkeeps.resultType hty)
  rw [hnext] at hmade
  obtain ⟨hvalue, rfl⟩ := Prod.mk.inj (Except.ok.inj (hresult.symm.trans hmade))
  refine ⟨?_, rfl, hlayout, ?_, ?_, fun j => ?_⟩
  · rw [← hins, ← hvalue]
  · simp [Graph.addInst]
  · simp [Graph.addInst]
  · simp only [Graph.result?, Graph.addInst, Graph.addUses_frame, Table.get_set, InstId.ext_iff,
      eq_comm]

theorem Sound.place (hf : f.Sound) {i : InstId} (h : f.place loc inst = .ok (i, f')) :
    i = f.graph.nextInst ∧ f'.graph = (f.graph.addInst inst).2 ∧ f'.Sound ∧
      ∀ j, j ∈ f'.insts ↔ j ∈ f.insts ∨ j = i := by
  unfold Function.place at h
  obtain ⟨layout, hlayout, hrest⟩ := bind_eq_ok_iff.1 h
  obtain ⟨rfl, rfl⟩ := Prod.mk.inj (pure_eq_ok_iff.1 hrest)
  obtain ⟨⟨b, front, back, hs⟩, hfresh⟩ := hf.layout.splits_of_insertAt hlayout
  obtain ⟨layout', hlayout', hins⟩ := hf.layout.insertAt hs hfresh
  cases hlayout.symm.trans hlayout'
  refine ⟨rfl, rfl, ⟨hf.graph.addInst inst, hins.sound, ?_⟩, ?_⟩
  · intro c j hj
    simp only [Graph.addUses_frame, Array.size_push]
    rcases hins.mem_instsOf.1 hj with hj | ⟨rfl, -⟩
    · exact Nat.lt_succ_of_lt (hf.placed c j hj)
    · exact Nat.lt_succ_self _
  · exact fun j => hins.mem_allInsts hf.layout

/-- A placed instruction may define its value. -/
theorem Sound.insert (hf : f.Sound) {ins : Insertion} (h : f.insert loc inst = .ok (ins, f')) :
    f'.Sound ∧ f'.graph.insts.size = f.graph.insts.size + 1 ∧
      ∀ j, j ∈ f'.insts ↔ j ∈ f.insts ∨ j = f.graph.nextInst := by
  unfold Function.insert at h
  obtain ⟨⟨i, mid⟩, hplace, hrest⟩ := bind_eq_ok_iff.1 h
  obtain ⟨⟨r, graph⟩, hresult, hrest⟩ := bind_eq_ok_iff.1 hrest
  obtain ⟨-, rfl⟩ := Prod.mk.inj (pure_eq_ok_iff.1 hrest)
  obtain ⟨rfl, hgraph, hmid, hmem⟩ := hf.place hplace
  have hnone : mid.graph.result? f.graph.nextInst = none := by
    rw [hgraph]
    show (f.graph.addInst inst).2.results.get _ = none
    simp only [Graph.addInst, Graph.addUses_frame]
    exact Graph.result?_eq_none hf.graph (Nat.le_refl _)
  have hinsts : graph.insts = mid.graph.insts := by
    obtain ⟨_, _, _, _, ⟨_, _, hg⟩ | ⟨_, _, _, hg⟩⟩ := Graph.addResult_eq_ok hresult
    · rw [hg]
    · rw [hg]
  refine ⟨⟨hmid.graph.addResult hnone hresult, hmid.layout, ?_⟩, ?_, hmem⟩
  · intro c j hj
    show j.index < graph.insts.size
    rw [hinsts]
    exact hmid.placed c j hj
  · show graph.insts.size = _
    rw [hinsts, hgraph]
    simp only [Graph.addInst, Graph.addUses_frame, Array.size_push]

/-- An instruction that computes a value can be inserted at every location that splits a block. -/
theorem Sound.insert_total (hf : f.Sound) (hs : loc.Splits f.layout b front back)
    (hty : f.graph.resultType inst = .ok (some ty)) :
    ∃ f', f.insert loc inst = .ok (⟨f.graph.nextInst, some f.graph.nextValue⟩, f') ∧
      f.Inserts b front inst ty back f' := by
  obtain ⟨layout, hlayout, hins⟩ := hf.layout.insertAt hs hf.nextInst_fresh
  have hplace : f.place loc inst =
      .ok (f.graph.nextInst, { f with graph := (f.graph.addInst inst).2, layout }) :=
    bind_eq_ok_iff.2 ⟨layout, hlayout, rfl⟩
  have hinst : (f.graph.addInst inst).2.inst f.graph.nextInst = .ok inst := by
    rw [Graph.inst_addInst, if_pos rfl]
  have hkeeps : f.graph.Keeps (f.graph.addInst inst).2 := by
    intro v val hval
    simpa [Graph.addInst, Graph.value] using hval
  have hnext : (f.graph.addInst inst).2.nextValue = f.graph.nextValue := by
    simp [Graph.addInst, Graph.nextValue]
  have hresult := Graph.addResult_of_resultType hinst (hkeeps.resultType hty)
  rw [hnext] at hresult
  have hok : f.insert loc inst =
      .ok (⟨f.graph.nextInst, some f.graph.nextValue⟩, { f with graph := _, layout }) :=
    bind_eq_ok_iff.2 ⟨_, hplace, bind_eq_ok_iff.2 ⟨_, hresult, rfl⟩⟩
  obtain ⟨-, hargs, -, hinsts, hvalues, hresults⟩ := insert_defines hok hty
  exact ⟨_, hok, hargs, hinsts, hvalues, hresults, hins, (hf.insert hok).1⟩

/-- An insertion that succeeds is at a location that splits a block. -/
theorem Sound.splits_of_insert (hf : f.Sound) {ins : Insertion}
    (h : f.insert loc inst = .ok (ins, f')) :
    ∃ b front back, loc.Splits f.layout b front back := by
  obtain ⟨⟨i, mid⟩, hplace, -⟩ := bind_eq_ok_iff.1 h
  obtain ⟨layout, hlayout, -⟩ := bind_eq_ok_iff.1 hplace
  exact (hf.layout.splits_of_insertAt hlayout).1

/-! ## Where operands are computed -/

/-- The place between `front` and `back` in block `b` is where operand `slot` of `user` is computed:
directly before the user or, for a phi, at the exit of the incoming block. -/
inductive ComputesAt (f : Function) (user : InstId) (slot : Nat) :
    BlockId → List InstId → List InstId → Prop
  | before {inst : Inst} {b : BlockId} {front back : List InstId} :
      f.graph.inst user = .ok inst → inst.isPhi = false →
      f.layout.instsOf b = front ++ user :: back → ComputesAt f user slot b front (user :: back)
  | beforeTerminator {ty : Ty} {incoming : List (ValueId × BlockId)} {v : ValueId} {b : BlockId}
      {front : List InstId} {last : InstId} {inst : Inst} :
      f.graph.inst user = .ok (.phi ty incoming) → incoming[slot]? = some (v, b) →
      f.layout.instsOf b = front ++ [last] → f.graph.inst last = .ok inst →
      inst.isTerminator = true → ComputesAt f user slot b front [last]
  | bottom {ty : Ty} {incoming : List (ValueId × BlockId)} {v : ValueId} {b : BlockId} :
      f.graph.inst user = .ok (.phi ty incoming) → incoming[slot]? = some (v, b) →
      b ∈ f.layout.blockOrder →
      (∀ last inst, (f.layout.instsOf b).getLast? = some last → f.graph.inst last = .ok inst →
        inst.isTerminator = false) → ComputesAt f user slot b (f.layout.instsOf b) []

/-- The location of an operand is the place where it is computed. -/
theorem Sound.operandLocation_splits (hf : f.Sound) (h : f.operandLocation user slot = .ok loc) :
    ∃ b front back, f.ComputesAt user slot b front back ∧ loc.Splits f.layout b front back := by
  -- Both places before an instruction are found by the same step back.
  have hbefore : ∀ {i loc}, Location.before f.layout i = .ok loc →
      ∃ b front back, f.layout.instsOf b = front ++ i :: back ∧
        loc.Splits f.layout b front (i :: back) := by
    intro i loc hloc
    obtain ⟨b, hi⟩ := hf.layout.mem_of_before hloc
    obtain ⟨front, back, hrow⟩ := List.append_of_mem hi
    obtain ⟨loc', hloc', hs⟩ := hf.layout.before_splits hrow
    cases hloc.symm.trans hloc'
    exact ⟨b, front, back, hrow, hs⟩
  unfold operandLocation at h
  obtain ⟨inst, hinst, hrest⟩ := bind_eq_ok_iff.1 h
  cases inst with
  | phi ty incoming =>
      obtain ⟨⟨v, source⟩, hsource, hrest⟩ := bind_eq_ok_iff.1 hrest
      replace hsource := require_eq_ok_iff.1 hsource
      obtain ⟨last, hlast, hrest⟩ := bind_eq_ok_iff.1 hrest
      obtain ⟨hmem, rfl⟩ := hf.layout.mem_order_of_lastInst hlast
      have hbottom : (Location.bottom source).Splits f.layout source (f.layout.instsOf source) [] :=
        ⟨hmem, by simp, rfl, rfl⟩
      cases hrow : (f.layout.instsOf source).getLast? with
      | none =>
          rw [hrow] at hrest
          cases pure_eq_ok_iff.1 hrest
          refine ⟨source, _, [], .bottom hinst hsource hmem ?_, hbottom⟩
          intro last inst hl
          rw [hrow] at hl
          cases hl
      | some last =>
          rw [hrow] at hrest
          obtain ⟨term, hterm, hrest⟩ := bind_eq_ok_iff.1 hrest
          by_cases hend : term.isTerminator = true
          · rw [if_pos hend] at hrest
            obtain ⟨b, front, back, hb, hs⟩ := hbefore hrest
            obtain ⟨init, hinit⟩ := List.getLast?_eq_some_iff.1 hrow
            obtain ⟨rfl, rfl, rfl⟩ := hf.layout.row_split hb hinit
            exact ⟨b, front, [last], .beforeTerminator hinst hsource hb hterm hend, hs⟩
          · rw [if_neg hend] at hrest
            cases pure_eq_ok_iff.1 hrest
            refine ⟨source, _, [], .bottom hinst hsource hmem ?_, hbottom⟩
            intro last' inst hl hi
            cases hl.symm.trans hrow
            cases hi.symm.trans hterm
            simpa using hend
  | _ =>
      obtain ⟨b, front, back, hrow, hs⟩ := hbefore hrest
      exact ⟨b, front, user :: back, .before hinst rfl hrow, hs⟩

theorem operandLocation_of_not_phi (hinst : f.graph.inst user = .ok inst)
    (hphi : inst.isPhi = false) :
    f.operandLocation user slot = Location.before f.layout user := by
  unfold operandLocation
  rw [hinst]
  cases inst with
  | phi => cases hphi
  | _ => rfl

/-! ## Rewiring and interposing -/

/-- `f'` is `f` with `v` as operand `slot` of `user`. -/
structure Rewires (f : Function) (user : InstId) (slot : Nat) (v : ValueId) (f' : Function) :
    Prop where
  args : f'.args = f.args
  layout : f'.layout = f.layout
  graph : f.graph.Rewires user slot v f'.graph

theorem setOperand_rewires {v : ValueId} (h : f.setOperand user slot v = .ok f') :
    f.Rewires user slot v f' := by
  obtain ⟨graph, hgraph, hrest⟩ := bind_eq_ok_iff.1 h
  cases pure_eq_ok_iff.1 hrest
  exact ⟨rfl, rfl, Graph.setOperand_rewires hgraph⟩

theorem Rewires.sound {v : ValueId} (h : f.Rewires user slot v f') (hf : f.Sound) : f'.Sound where
  graph := h.graph.sound hf.graph
  layout := h.layout ▸ hf.layout
  placed b i hi := by
    rw [h.graph.size_insts]
    exact hf.placed b i (h.layout ▸ hi)

theorem Rewires.insts_eq {v : ValueId} (h : f.Rewires user slot v f') : f'.insts = f.insts := by
  rw [insts, h.layout, insts]

theorem Rewires.written {v : ValueId} (h : f.Rewires user slot v f') (hf : f.Written) :
    f'.Written := by
  refine ⟨h.sound hf.toSound, fun i hi => ?_⟩
  rw [h.insts_eq]
  exact hf.filled i (h.graph.size_insts ▸ hi)

/-- The new instruction `inst`, which defines a value of type `ty`, stands where operand `slot` of
`user` is computed, and its value takes the place of the operand `old`. -/
structure Interposes (f : Function) (user : InstId) (slot : Nat) (old : ValueId) (inst : Inst)
    (ty : Ty) (f' : Function) : Prop where
  operand : f.graph.operand user slot = .ok old
  edits : ∃ b front back mid, f.ComputesAt user slot b front back ∧
    f.Inserts b front inst ty back mid ∧ mid.Rewires user slot f.graph.nextValue f'

/-- Inserting an instruction at the location of an operand and setting the operand interposes it. -/
theorem Sound.interpose (hf : f.Sound) {old : ValueId} (hold : f.graph.operand user slot = .ok old)
    (hloc : f.operandLocation user slot = .ok loc)
    (hty : f.graph.resultType inst = .ok (some ty)) :
    ∃ mid f', f.insert loc inst = .ok (⟨f.graph.nextInst, some f.graph.nextValue⟩, mid) ∧
      mid.setOperand user slot f.graph.nextValue = .ok f' ∧
      f.Interposes user slot old inst ty f' := by
  obtain ⟨b, front, back, hplace, hs⟩ := hf.operandLocation_splits hloc
  obtain ⟨mid, hmid, hins⟩ := hf.insert_total hs hty
  obtain ⟨consumer, hconsumer, hslot⟩ := Graph.operand_eq_ok.1 hold
  obtain ⟨graph, hgraph⟩ := Graph.setOperand_isOk (v := f.graph.nextValue)
    (hins.inst_old hconsumer) (List.getElem?_eq_some_iff.1 hslot).1
  have hset : mid.setOperand user slot f.graph.nextValue = .ok { mid with graph } :=
    bind_eq_ok_iff.2 ⟨graph, hgraph, rfl⟩
  exact ⟨mid, _, hmid, hset, hold, b, front, back, mid, hplace, hins, setOperand_rewires hset⟩

theorem Interposes.user_ne {old : ValueId} (h : f.Interposes user slot old inst ty f') :
    user ≠ f.graph.nextInst := by
  obtain ⟨consumer, hconsumer, -⟩ := Graph.operand_eq_ok.1 h.operand
  rintro rfl
  exact absurd (Graph.inst_lt hconsumer) (Nat.lt_irrefl _)

theorem Interposes.sound {old : ValueId} (h : f.Interposes user slot old inst ty f') :
    f'.Sound := by
  obtain ⟨b, front, back, mid, -, hins, hrewires⟩ := h.edits
  exact hrewires.sound hins.sound

namespace Interposes

variable {old : ValueId}

theorem written (h : f.Interposes user slot old inst ty f') (hf : f.Written) : f'.Written := by
  obtain ⟨b, front, back, mid, -, hins, hrewires⟩ := h.edits
  exact hrewires.written (hins.written hf)

theorem inst_new (h : f.Interposes user slot old inst ty f') :
    f'.graph.inst f.graph.nextInst = .ok inst := by
  obtain ⟨b, front, back, mid, -, hins, hr⟩ := h.edits
  rw [hr.graph.inst_of_ne h.user_ne.symm, hins.inst_new]

theorem operand_eq (h : f.Interposes user slot old inst ty f') (j : InstId) (s : Nat) :
    f'.graph.operand j s =
      if j = f.graph.nextInst then require inst.operands[s]? .outOfBounds
      else if j = user ∧ s = slot then .ok f.graph.nextValue
      else f.graph.operand j s := by
  obtain ⟨b, front, back, mid, -, hins, hr⟩ := h.edits
  rw [hr.graph.operand_eq, hins.operand_eq]
  by_cases hj : j = f.graph.nextInst
  · have hne : ¬ (j = user ∧ s = slot) := fun heq => h.user_ne (heq.1.symm.trans hj)
    rw [if_neg hne, if_pos hj, if_pos hj]
  · rw [if_neg hj, if_neg hj]

theorem value_eq (h : f.Interposes user slot old inst ty f') (w : ValueId) :
    f'.graph.value w =
      if w = f.graph.nextValue then .ok (.inst f.graph.nextInst ty) else f.graph.value w := by
  obtain ⟨b, front, back, mid, -, hins, hr⟩ := h.edits
  rw [hr.graph.value_eq, hins.value_eq]

theorem result?_eq (h : f.Interposes user slot old inst ty f') (j : InstId) :
    f'.graph.result? j =
      if j = f.graph.nextInst then some f.graph.nextValue else f.graph.result? j := by
  obtain ⟨b, front, back, mid, -, hins, hr⟩ := h.edits
  rw [hr.graph.result?_eq, hins.result?]

theorem size_insts (h : f.Interposes user slot old inst ty f') :
    f'.graph.insts.size = f.graph.insts.size + 1 := by
  obtain ⟨b, front, back, mid, -, hins, hr⟩ := h.edits
  rw [hr.graph.size_insts, hins.insts, Array.size_push]

theorem mem_insts (h : f.Interposes user slot old inst ty f') (hf : f.Sound) {i : InstId} :
    i ∈ f'.insts ↔ i ∈ f.insts ∨ i = f.graph.nextInst := by
  obtain ⟨b, front, back, mid, -, hins, hr⟩ := h.edits
  rw [hr.insts_eq, hins.mem_insts hf]

theorem length_insts (h : f.Interposes user slot old inst ty f') (hf : f.Sound) :
    f'.insts.length = f.insts.length + 1 := by
  obtain ⟨b, front, back, mid, -, hins, hr⟩ := h.edits
  rw [hr.insts_eq, hins.length_insts hf]

end Interposes

/-! ## What edits keep -/

/-- `f'` is `f` with instructions and values added and operands changed: the blocks, the kinds, the
fields and the results of the instructions of `f`, and their order in each block, are the same. -/
structure Extends (f f' : Function) : Prop where
  args : f'.args = f.args
  blockOrder : f'.layout.blockOrder = f.layout.blockOrder
  rows : ∀ b, (f'.layout.instsOf b).filter (·.index < f.graph.insts.size) = f.layout.instsOf b
  size_le : f.graph.insts.size ≤ f'.graph.insts.size
  shape : ∀ i, i.index < f.graph.insts.size →
    Inst.shape <$> f'.graph.inst i = Inst.shape <$> f.graph.inst i
  result? : ∀ i, i.index < f.graph.insts.size → f'.graph.result? i = f.graph.result? i
  keeps : f.graph.Keeps f'.graph

theorem Sound.filter_row (hf : f.Sound) (b : BlockId) :
    (f.layout.instsOf b).filter (·.index < f.graph.insts.size) = f.layout.instsOf b := by
  rw [List.filter_eq_self]
  intro i hi
  simpa using hf.placed b i hi

theorem Extends.refl (hf : f.Sound) : f.Extends f :=
  ⟨rfl, rfl, hf.filter_row, Nat.le_refl _, fun _ _ => rfl, fun _ _ => rfl, Graph.Keeps.refl _⟩

theorem Extends.trans {f'' : Function} (h : f.Extends f') (h' : f'.Extends f'') :
    f.Extends f'' where
  args := h'.args.trans h.args
  blockOrder := h'.blockOrder.trans h.blockOrder
  rows b := by
    -- The instructions of `f` are among those of `f'`, so the two filters are one.
    rw [← h.rows b, ← h'.rows b, List.filter_filter]
    apply List.filter_congr
    intro i _
    have hle := h.size_le
    rw [Bool.eq_iff_iff]
    simp only [decide_eq_true_eq, Bool.and_eq_true]
    omega
  size_le := Nat.le_trans h.size_le h'.size_le
  shape i hi := (h'.shape i (Nat.lt_of_lt_of_le hi h.size_le)).trans (h.shape i hi)
  result? i hi := (h'.result? i (Nat.lt_of_lt_of_le hi h.size_le)).trans (h.result? i hi)
  keeps := h.keeps.trans h'.keeps

/-- The instructions of `f` keep having a place or none. -/
theorem Extends.mem_insts_iff (h : f.Extends f') (hf : f.Sound) (hf' : f'.Sound) {i : InstId}
    (hi : i.index < f.graph.insts.size) : i ∈ f'.insts ↔ i ∈ f.insts := by
  have hrow : ∀ b, i ∈ f'.layout.instsOf b ↔ i ∈ f.layout.instsOf b := by
    intro b
    rw [← h.rows b, List.mem_filter]
    simp [hi]
  rw [hf'.mem_insts, hf.mem_insts]
  exact exists_congr hrow

theorem Inserts.extends (h : f.Inserts b front inst ty back f') (hf : f.Sound) : f.Extends f' where
  args := h.args
  blockOrder := h.layout.blockOrder_eq
  rows c := by
    refine Eq.trans ?_ (hf.filter_row c)
    rw [h.layout.instsOf_eq]
    split
    · next heq =>
        subst heq
        rw [h.layout.row_before]
        simp [List.filter_append, Graph.nextInst]
    · rfl
  size_le := by simp [h.insts]
  shape i hi := by
    obtain ⟨old, hold⟩ := Graph.exists_inst hi
    rw [h.inst_old hold, hold]
  result? i hi := by
    rw [h.result?, if_neg]
    rintro rfl
    exact absurd hi (Nat.lt_irrefl _)
  keeps := h.keeps

theorem Rewires.extends {v : ValueId} (h : f.Rewires user slot v f') (hf : f.Sound) :
    f.Extends f' where
  args := h.args
  blockOrder := by rw [h.layout]
  rows b := by
    rw [h.layout]
    exact hf.filter_row b
  size_le := Nat.le_of_eq h.graph.size_insts.symm
  shape i _ := h.graph.shape_eq i
  result? i _ := h.graph.result?_eq i
  keeps w val hw := by rw [h.graph.value_eq, hw]

theorem Interposes.extends {old : ValueId} (h : f.Interposes user slot old inst ty f')
    (hf : f.Sound) : f.Extends f' := by
  obtain ⟨b, front, back, mid, -, hins, hrewires⟩ := h.edits
  exact (hins.extends hf).trans (hrewires.extends hins.sound)

/-! ## Kinds of instructions -/

/-- The instruction behind `i` satisfies `P`. -/
def InstIs (f : Function) (i : InstId) (P : Inst → Prop) : Prop :=
  ∃ inst, f.graph.inst i = .ok inst ∧ P inst

theorem InstIs.of_inst {P : Inst → Prop} {i : InstId} (h : f.InstIs i P)
    (hinst : f.graph.inst i = .ok inst) : P inst := by
  obtain ⟨_, hinst', hP⟩ := h
  cases hinst.symm.trans hinst'
  exact hP

/-- A new instruction that does not satisfy the property leaves it to those that do. -/
theorem Inserts.instIs_iff (h : f.Inserts b front inst ty back f') {P : Inst → Prop}
    (hP : ¬ P inst) (i : InstId) : f'.InstIs i P ↔ f.InstIs i P := by
  unfold InstIs
  rw [h.inst_eq]
  split
  · next heq =>
      subst heq
      constructor
      · rintro ⟨x, hx, hPx⟩
        cases hx
        exact absurd hPx hP
      · rintro ⟨x, hx, -⟩
        exact absurd (Graph.inst_lt hx) (Nat.lt_irrefl _)
  · exact Iff.rfl

theorem instIs_iff_of_shape {P : Inst → Prop} (hP : Inst.OfShape P) {i : InstId}
    (hshape : Inst.shape <$> f'.graph.inst i = Inst.shape <$> f.graph.inst i) :
    f'.InstIs i P ↔ f.InstIs i P := by
  constructor
  · rintro ⟨x, hx, hPx⟩
    obtain ⟨y, hy, heq⟩ := Graph.inst_of_shape_eq hshape.symm hx
    exact ⟨y, hy, (hP y).1 (heq ▸ (hP x).2 hPx)⟩
  · rintro ⟨x, hx, hPx⟩
    obtain ⟨y, hy, heq⟩ := Graph.inst_of_shape_eq hshape hx
    exact ⟨y, hy, (hP y).1 (heq ▸ (hP x).2 hPx)⟩

theorem Rewires.instIs_iff {v : ValueId} (h : f.Rewires user slot v f') {P : Inst → Prop}
    (hP : Inst.OfShape P) (i : InstId) : f'.InstIs i P ↔ f.InstIs i P :=
  instIs_iff_of_shape hP (h.graph.shape_eq i)

theorem Extends.instIs_iff (h : f.Extends f') {P : Inst → Prop} (hP : Inst.OfShape P) {i : InstId}
    (hi : i.index < f.graph.insts.size) : f'.InstIs i P ↔ f.InstIs i P :=
  instIs_iff_of_shape hP (h.shape i hi)

theorem Interposes.instIs_iff {old : ValueId} (h : f.Interposes user slot old inst ty f')
    {P : Inst → Prop} (hP : Inst.OfShape P) (hnew : ¬ P inst) (i : InstId) :
    f'.InstIs i P ↔ f.InstIs i P := by
  obtain ⟨b, front, back, mid, -, hins, hr⟩ := h.edits
  rw [hr.instIs_iff hP, hins.instIs_iff hnew]

/-! ## Runs of edits -/

/-- What every edit keeps is kept by a run of them. -/
theorem invariant_of_edits {Edit : Function → Function → Prop} {P : Function → Prop}
    {f₀ : Function} (hedit : ∀ f f', f.Sound → Edit f f' → f.Extends f' ∧ f'.Sound)
    (h : Relation.ReflTransGen Edit f₀ f) (hf₀ : f₀.Sound) (h₀ : P f₀)
    (hstep : ∀ f f', f₀.Extends f → f.Sound → P f → Edit f f' → P f') :
    f₀.Extends f ∧ f.Sound ∧ P f := by
  induction h with
  | refl => exact ⟨.refl hf₀, hf₀, h₀⟩
  | tail _ hlast ih =>
      obtain ⟨hextends, hsound, hP⟩ := ih
      obtain ⟨hextends', hsound'⟩ := hedit _ _ hsound hlast
      exact ⟨hextends.trans hextends', hsound', hstep _ _ hextends hsound hP hlast⟩

end Function

end Pointee
