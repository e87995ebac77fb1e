import Mathlib.Data.Finset.Card
import Mathlib.Data.Finset.Range
import Mathlib.Logic.Relation
import Pointee.Proofs.Dominance

/-!
# What operands name

An instruction may name a value that does not exist, and a phi a block without a place. The
conditions here exclude both: all operands exist (`Graph.Closed`), so do the parts of constant
expressions (`Graph.PartsExist`), and the blocks that phis name have places (`Function.PhisPlaced`).
They can be computed, and every edit of the passes keeps them. Under them every operand of an
instruction that has a place has a location of its own, by `Sound.exists_operandLocation`.
-/

namespace Pointee

namespace Graph

variable {g : Graph} {v w : ValueId}

/-- All operands of instructions exist. -/
def Closed (g : Graph) : Prop := ∀ i slot v, g.operand i slot = .ok v → g.Has v

/-- The constant expression `v` is built over `w`. -/
def Part (g : Graph) (v w : ValueId) : Prop :=
  ∃ e ty, g.value v = .ok (.expr e ty) ∧ w ∈ e.operands

/-- Constant expressions are built over values that exist. -/
def PartsExist (g : Graph) : Prop := ∀ v w, g.Part v w → g.Has w

/-- Constant expressions are built over constants. -/
def ConstParts (g : Graph) : Prop :=
  ∀ v w, g.Part v w → ∃ val, g.value w = .ok val ∧ val.isLocal = false

/-- No constant expression contains itself. -/
def Acyclic (g : Graph) : Prop := ∀ v, ¬ Relation.TransGen g.Part v v

/-! ## Depth -/

open Classical in
/-- The positions of the values that a constant expression contains. -/
noncomputable def contents (g : Graph) (v : ValueId) : Finset Nat :=
  (Finset.range g.values.size).filter fun k => Relation.TransGen g.Part v ⟨k⟩

theorem mem_contents {k : Nat} :
    k ∈ g.contents v ↔ k < g.values.size ∧ Relation.TransGen g.Part v ⟨k⟩ := by
  simp only [contents, Finset.mem_filter, Finset.mem_range]

/-- How many values a constant expression contains, which bounds how deep it is nested. -/
noncomputable def depth (g : Graph) (v : ValueId) : Nat := (g.contents v).card

/-- A constant expression contains what its parts contain, and the parts besides. -/
theorem Acyclic.depth_lt (h : g.Acyclic) (hexist : g.PartsExist) (hpart : g.Part v w) :
    g.depth w < g.depth v := by
  refine Finset.card_lt_card (Finset.ssubset_iff_subset_ne.2 ⟨fun k hk => ?_, fun heq => ?_⟩)
  · obtain ⟨hlt, hk⟩ := mem_contents.1 hk
    exact mem_contents.2 ⟨hlt, Relation.TransGen.head hpart hk⟩
  · have hw : w.index ∈ g.contents v := mem_contents.2 ⟨hexist v w hpart, .single hpart⟩
    rw [← heq] at hw
    exact h w (mem_contents.1 hw).2

/-- No constant expression contains all values. -/
theorem Acyclic.depth_lt_size (h : g.Acyclic) (hv : g.Has v) : g.depth v < g.values.size := by
  have hsub : g.contents v ⊂ Finset.range g.values.size := by
    refine Finset.ssubset_iff_subset_ne.2 ⟨fun k hk => ?_, fun heq => ?_⟩
    · exact Finset.mem_range.2 (mem_contents.1 hk).1
    · have hmem : v.index ∈ g.contents v := heq ▸ Finset.mem_range.2 hv
      exact h v (mem_contents.1 hmem).2
  simpa [depth] using Finset.card_lt_card hsub

/-! ## Checks -/

/-- Whether all operands of instructions exist. -/
def checkClosed (g : Graph) : Bool :=
  g.insts.toList.all fun inst => inst.operands.all (·.index < g.values.size)

theorem closed_of_checkClosed (h : g.checkClosed = true) : g.Closed := by
  intro i slot v hv
  obtain ⟨inst, hinst, hslot⟩ := operand_eq_ok.1 hv
  simp only [checkClosed, List.all_eq_true, decide_eq_true_eq] at h
  have hmem : inst ∈ g.insts.toList := by
    rw [Array.mem_toList_iff]
    exact Array.mem_of_getElem? (inst_eq_ok.1 hinst)
  exact h inst hmem v (List.mem_of_getElem? hslot)

/-- Whether every constant expression passes the test together with each of its parts. -/
def checkParts (g : Graph) (test : ValueId → ValueId → Bool) : Bool :=
  g.values.toList.zipIdx.all fun
    | (.expr e _, n) => e.operands.all (test ⟨n⟩)
    | _ => true

theorem test_of_checkParts {test : ValueId → ValueId → Bool} (h : g.checkParts test = true)
    (hpart : g.Part v w) : test v w = true := by
  obtain ⟨e, ty, hv, hw⟩ := hpart
  simp only [checkParts, List.all_eq_true] at h
  have hmem : (Value.expr e ty, v.index) ∈ g.values.toList.zipIdx := by
    rw [List.mem_zipIdx_iff_getElem?, Array.getElem?_toList]
    exact value_eq_ok.1 hv
  have htest := h _ hmem
  simp only [List.all_eq_true] at htest
  exact htest w hw

theorem constParts_of_checkParts
    (h : (g.checkParts fun _ w => succeeds (g.value w) (!·.isLocal)) = true) : g.ConstParts := by
  intro v w hpart
  obtain ⟨val, hval, hlocal⟩ := exists_of_succeeds (test_of_checkParts h hpart)
  exact ⟨val, hval, by simpa using hlocal⟩

/-- Constant expressions over older values exist and do not contain themselves. -/
theorem acyclic_of_checkParts (h : (g.checkParts fun v w => w.index < v.index) = true) :
    g.PartsExist ∧ g.Acyclic := by
  have hlt : ∀ {v w}, g.Part v w → w.index < v.index := fun hpart => by
    simpa using test_of_checkParts h hpart
  refine ⟨fun v w hpart => ?_, fun v hcycle => ?_⟩
  · have hless := hlt hpart
    obtain ⟨e, ty, hv, -⟩ := hpart
    exact Nat.lt_trans hless (has_of_value hv)
  · have hdesc : ∀ {w}, Relation.TransGen g.Part v w → w.index < v.index := by
      intro w hw
      induction hw with
      | single hpart => exact hlt hpart
      | tail _ hpart ih => exact Nat.lt_trans (hlt hpart) ih
    exact Nat.lt_irrefl _ (hdesc hcycle)

end Graph

namespace Function

variable {f f' : Function} {b : BlockId} {front back : List InstId} {inst : Inst} {ty : Ty}
  {i user : InstId} {slot : Nat} {v w new : ValueId}

/-- The instruction `i` has an operand `slot`. -/
def HasSlot (f : Function) (i : InstId) (slot : Nat) : Prop := ∃ v, f.graph.operand i slot = .ok v

/-- Operand `slot` of `i` is not a constant expression. -/
def FlatAt (f : Function) (i : InstId) (slot : Nat) : Prop :=
  ∀ v e ty, f.graph.operand i slot = .ok v → f.graph.value v ≠ .ok (.expr e ty)

/-- No operand of `i` is a constant expression. -/
def Flat (f : Function) (i : InstId) : Prop := ∀ slot, f.FlatAt i slot

/-- The blocks that phis name have places. -/
def PhisPlaced (f : Function) : Prop :=
  ∀ i slot b, f.ComesFrom i slot b → b ∈ f.layout.blockOrder

/-- Whether the blocks that phis name have places. -/
def checkPhis (f : Function) : Bool :=
  f.graph.insts.toList.all fun
    | .phi _ incoming => incoming.all (·.2 ∈ f.layout.blockOrder)
    | _ => true

theorem phisPlaced_of_checkPhis (h : f.checkPhis = true) : f.PhisPlaced := by
  rintro i slot b ⟨inst, hinst, hsource⟩
  simp only [checkPhis, List.all_eq_true] at h
  have hmem : inst ∈ f.graph.insts.toList := by
    rw [Array.mem_toList_iff]
    exact Array.mem_of_getElem? (Graph.inst_eq_ok.1 hinst)
  have hcheck := h inst hmem
  cases inst with
  | phi ty incoming =>
      obtain ⟨⟨v, c⟩, hslot, rfl⟩ := Option.map_eq_some_iff.1 hsource
      simp only [List.all_eq_true, decide_eq_true_eq] at hcheck
      exact hcheck (v, c) (List.mem_of_getElem? hslot)
  | _ => cases hsource

/-- The operands of an instruction are at the positions below their number. -/
theorem hasSlot_iff (hinst : f.graph.inst i = .ok inst) :
    f.HasSlot i slot ↔ slot < inst.operands.length := by
  constructor
  · rintro ⟨v, hv⟩
    obtain ⟨inst', hinst', hslot⟩ := Graph.operand_eq_ok.1 hv
    cases hinst.symm.trans hinst'
    exact (List.getElem?_eq_some_iff.1 hslot).1
  · exact fun hlt => ⟨_, Graph.operand_eq_ok.2 ⟨inst, hinst, List.getElem?_eq_getElem hlt⟩⟩

theorem Extends.hasSlot_iff (h : f.Extends f') (hi : i.index < f.graph.insts.size) :
    f'.HasSlot i slot ↔ f.HasSlot i slot := by
  obtain ⟨inst, hinst⟩ := Graph.exists_inst hi
  obtain ⟨inst', hinst', hshape⟩ := Graph.inst_of_shape_eq (h.shape i hi) hinst
  rw [Function.hasSlot_iff hinst, Function.hasSlot_iff hinst',
    Inst.length_operands_of_shape hshape]

/-! ## What edits keep -/

theorem Inserts.closed (hins : f.Inserts b front inst ty back f') (h : f.graph.Closed)
    (hoperands : ∀ v ∈ inst.operands, f.graph.Has v) : f'.graph.Closed := by
  intro i s v hv
  rw [hins.operand_eq] at hv
  split at hv
  · exact hins.keeps.has (hoperands v (List.mem_of_getElem? (require_eq_ok_iff.1 hv)))
  · exact hins.keeps.has (h i s v hv)

theorem Rewires.has_iff (hr : f.Rewires user slot new f') :
    f'.graph.Has v ↔ f.graph.Has v := by
  unfold Graph.Has
  rw [hr.graph.values]

theorem Rewires.closed (hr : f.Rewires user slot new f') (h : f.graph.Closed)
    (hnew : f.graph.Has new) : f'.graph.Closed := by
  intro i s v hv
  rw [hr.has_iff]
  rw [hr.graph.operand_eq] at hv
  split at hv
  · cases hv
    exact hnew
  · exact h i s v hv

theorem Inserts.part_iff (hins : f.Inserts b front inst ty back f') :
    f'.graph.Part v w ↔ f.graph.Part v w := by
  unfold Graph.Part
  rw [hins.value_eq]
  split
  · next heq =>
      subst heq
      constructor
      · rintro ⟨e, ety, hv, -⟩
        cases hv
      · rintro ⟨e, ety, hv, -⟩
        exact absurd (Graph.has_of_value hv) (Nat.lt_irrefl _)
  · exact Iff.rfl

theorem Rewires.part_iff (hr : f.Rewires user slot new f') :
    f'.graph.Part v w ↔ f.graph.Part v w := by
  unfold Graph.Part
  rw [hr.graph.value_eq]

theorem Interposes.part_iff {old : ValueId} (hinter : f.Interposes user slot old inst ty f') :
    f'.graph.Part v w ↔ f.graph.Part v w := by
  obtain ⟨c, front, back, mid, -, hins, hr⟩ := hinter.edits
  exact hr.part_iff.trans hins.part_iff

theorem Inserts.constParts (hins : f.Inserts b front inst ty back f') (h : f.graph.ConstParts) :
    f'.graph.ConstParts := by
  intro v w hpart
  obtain ⟨val, hval, hlocal⟩ := h v w (hins.part_iff.1 hpart)
  exact ⟨val, hins.keeps w val hval, hlocal⟩

theorem Rewires.constParts (hr : f.Rewires user slot new f') (h : f.graph.ConstParts) :
    f'.graph.ConstParts := by
  intro v w hpart
  rw [hr.graph.value_eq]
  exact h v w (hr.part_iff.1 hpart)

theorem Inserts.phisPlaced (hins : f.Inserts b front inst ty back f') (hphi : inst.isPhi = false)
    (h : f.PhisPlaced) : f'.PhisPlaced := by
  intro i s c hfrom
  rw [hins.layout.blockOrder_eq]
  refine h i s c ((hins.instIs_iff ?_ i).1 hfrom)
  intro hsource
  rw [Inst.isPhi_of_source hsource] at hphi
  cases hphi

theorem Rewires.phisPlaced (hr : f.Rewires user slot new f') (h : f.PhisPlaced) :
    f'.PhisPlaced := by
  intro i s c hfrom
  rw [hr.layout]
  exact h i s c ((hr.instIs_iff (Inst.ofShape_source s c) i).1 hfrom)

theorem Interposes.phisPlaced {old : ValueId} (hinter : f.Interposes user slot old inst ty f')
    (hphi : inst.isPhi = false) (h : f.PhisPlaced) : f'.PhisPlaced := by
  obtain ⟨c, front, back, mid, -, hins, hr⟩ := hinter.edits
  exact hr.phisPlaced (hins.phisPlaced hphi h)

theorem Interposes.closed {old : ValueId} (hinter : f.Interposes user slot old inst ty f')
    (h : f.graph.Closed) (hoperands : ∀ v ∈ inst.operands, f.graph.Has v) : f'.graph.Closed := by
  obtain ⟨c, front, back, mid, -, hins, hr⟩ := hinter.edits
  exact hr.closed (hins.closed h hoperands) (Graph.has_of_value hins.value_new)

/-! ## Locations of operands -/

/-- Every operand of an instruction that has a place is computed somewhere. -/
theorem Sound.exists_operandLocation (hf : f.Sound) (hphis : f.PhisPlaced)
    (huser : user ∈ f.layout.instsOf b) (hv : f.graph.operand user slot = .ok v) :
    ∃ loc, f.operandLocation user slot = .ok loc := by
  have hbefore : ∀ {i c}, i ∈ f.layout.instsOf c → ∃ loc, Location.before f.layout i = .ok loc := by
    intro i c hi
    obtain ⟨front, back, hrow⟩ := List.append_of_mem hi
    obtain ⟨loc, hloc, -⟩ := hf.layout.before_splits hrow
    exact ⟨loc, hloc⟩
  obtain ⟨inst, hinst, hslot⟩ := Graph.operand_eq_ok.1 hv
  cases hphi : inst.isPhi with
  | false =>
      rw [operandLocation_of_not_phi hinst hphi]
      exact hbefore huser
  | true =>
      cases inst with
      | phi ty incoming =>
          obtain ⟨⟨v', source⟩, hincoming, rfl⟩ :
              ∃ p, incoming[slot]? = some p ∧ p.1 = v := by
            simpa [Inst.operands] using hslot
          have hsource : source ∈ f.layout.blockOrder :=
            hphis user slot source ⟨_, hinst, by simp [Inst.source?, hincoming]⟩
          have hlast := hf.layout.lastInst_eq hsource
          cases hrow : (f.layout.instsOf source).getLast? with
          | none =>
              rw [hrow] at hlast
              refine ⟨.bottom source, bind_eq_ok_iff.2 ⟨_, hinst,
                bind_eq_ok_iff.2 ⟨(v', source), ?_, ?_⟩⟩⟩
              · exact require_eq_ok_iff.2 hincoming
              · exact bind_eq_ok_iff.2 ⟨none, hlast, rfl⟩
          | some last =>
              rw [hrow] at hlast
              obtain ⟨term, hterm⟩ := hf.exists_inst (List.mem_of_getLast? hrow)
              obtain ⟨loc, hloc⟩ := hbefore (List.mem_of_getLast? hrow)
              refine ⟨if term.isTerminator then loc else .bottom source,
                bind_eq_ok_iff.2 ⟨_, hinst, bind_eq_ok_iff.2 ⟨(v', source), ?_, ?_⟩⟩⟩
              · exact require_eq_ok_iff.2 hincoming
              · refine bind_eq_ok_iff.2 ⟨some last, hlast, bind_eq_ok_iff.2 ⟨term, hterm, ?_⟩⟩
                split
                · exact hloc
                · rfl
      | _ => cases hphi

end Function

end Pointee
