import Pointee.Proofs.Misfits
import Pointee.Proofs.SiteReading

/-!
# Pointer types survive

Memory is accessed through pointers if it was before demotion and marking. Demotion computes a
constant expression by an instruction that has its type, so the pointer operands of constant
expressions have to be pointers as well. A marker has the type of what it wraps, so following
markers from an operand does not change its type. `Function.Extractable` collects what the eager
strategy relies on, and `Extractable.demote` says what is left of it after demotion.
-/

namespace Pointee

/-! ## Values that are pointers -/

namespace Graph

variable {g g' : Graph} {v w : ValueId}

/-- Whether a value exists and is a pointer. -/
def isPointer (g : Graph) (v : ValueId) : Bool := succeeds (g.spaceOf v) (·.isSome)

theorem isPointer_iff : g.isPointer v = true ↔ ∃ space, g.spaceOf v = .ok (some space) := by
  constructor
  · intro h
    obtain ⟨space?, hspace, hsome⟩ := exists_of_succeeds h
    obtain ⟨space, rfl⟩ := Option.isSome_iff_exists.1 hsome
    exact ⟨space, hspace⟩
  · rintro ⟨space, hspace⟩
    simp [isPointer, succeeds, hspace]

/-- Whether a value is a pointer is a matter of its type. -/
theorem isPointer_of_typeOf {ty : Ty} (hv : g.isPointer v = true) (hty : g.typeOf v = .ok ty)
    (hty' : g'.typeOf w = .ok ty) : g'.isPointer w = true := by
  obtain ⟨space, hspace⟩ := isPointer_iff.1 hv
  rw [spaceOf, hty] at hspace
  refine isPointer_iff.2 ⟨space, ?_⟩
  rw [spaceOf, hty']
  exact hspace

theorem Keeps.isPointer (h : g.Keeps g') (hv : g.isPointer v = true) : g'.isPointer v = true := by
  obtain ⟨space, hspace⟩ := isPointer_iff.1 hv
  obtain ⟨val, hval, -⟩ := spaceOf_eq_ok.1 hspace
  exact isPointer_of_typeOf hv (typeOf_eq_ok.2 ⟨val, hval, rfl⟩)
    (typeOf_eq_ok.2 ⟨val, h v val hval, rfl⟩)

/-- The pointer operands of constant expressions are pointers. -/
def PartsTyped (g : Graph) : Prop :=
  ∀ v e ty slot w, g.value v = .ok (.expr e ty) → e.toInst.pointerSlot? = some slot →
    e.toInst.operands[slot]? = some w → g.isPointer w = true

/-- An address that a constant expression computes is a pointer, as its base is one. -/
theorem PartsTyped.isPointer (h : g.PartsTyped) (hg : g.Sound) {e : ConstExpr} {ty : Ty}
    (hv : g.value v = .ok (.expr e ty)) (hmakes : e.toInst.makesAddress = true)
    (hw : g'.typeOf w = .ok ty) : g'.isPointer w = true := by
  have hty := hg.expr_type v e ty hv
  cases e with
  | cast => cases hmakes
  | gep source result args =>
      cases args with
      | nil => cases hty
      | cons base rest =>
          obtain ⟨bty, hbase, heq⟩ := map_eq_ok_iff.1 hty
          cases heq
          exact isPointer_of_typeOf (h v _ _ 0 base hv rfl rfl) hbase hw

end Graph

namespace Function

variable {f f' f₀ : Function} {ctx : Context} {start : Nat} {i : InstId} {v w : ValueId}

/-- Memory is accessed through pointers, and the addresses that are made are pointers. -/
structure PointersTyped (f : Function) : Prop where
  operand : ∀ i slot v, f.InstIs i (·.pointerSlot? = some slot) → f.graph.operand i slot = .ok v →
    f.graph.isPointer v = true
  result : ∀ i v, f.InstIs i (·.makesAddress = true) → f.graph.result? i = some v →
    f.graph.isPointer v = true

/-! ## Demotion -/

theorem DemoteStep.pointersTyped (hstep : f.DemoteStep f') (hf : f.Sound) (h : f.PointersTyped)
    (hparts : f.graph.PartsTyped) : f'.PointersTyped ∧ f'.graph.PartsTyped := by
  obtain @⟨user, slot, v, e, ty, hval, hinter⟩ := hstep
  have hext := hinter.extends hf
  have hnew : f'.graph.typeOf f.graph.nextValue = .ok ty :=
    Graph.typeOf_eq_ok.2 ⟨_, by rw [hinter.value_eq, if_pos rfl], rfl⟩
  refine ⟨⟨fun i s w his hop => ?_, fun i w his hres => ?_⟩, fun u e' ty' s w hu hslot hw => ?_⟩
  · rw [hinter.operand_eq] at hop
    split at hop
    · next hi =>
        -- The new instruction has the operands of the constant expression.
        subst hi
        have hslot := his.of_inst hinter.inst_new
        exact hext.keeps.isPointer (hparts v e ty s w hval hslot (require_eq_ok_iff.1 hop))
    · next hi =>
        have hold : ∀ u, f.graph.operand i s = .ok u → f.graph.isPointer u = true := by
          intro u hu
          obtain ⟨inst, hinst, -⟩ := Graph.operand_eq_ok.1 hu
          rw [hext.instIs_iff (Inst.ofShape_eq Inst.pointerSlot?_shape (some s))
            (Graph.inst_lt hinst)] at his
          exact h.operand i s u his hu
        split at hop
        · next hcut =>
            cases hop
            rw [hcut.1, hcut.2] at hold
            exact Graph.isPointer_of_typeOf (hold v hinter.operand)
              (Graph.typeOf_eq_ok.2 ⟨_, hval, rfl⟩) hnew
        · exact hext.keeps.isPointer (hold w hop)
  · rw [hinter.result?_eq] at hres
    split at hres
    · next hi =>
        subst hi
        cases hres
        exact hparts.isPointer hf.graph hval (his.of_inst hinter.inst_new) hnew
    · obtain ⟨wty, hw⟩ := (hf.graph.result_iff i w).1 hres
      rw [hext.instIs_iff (Inst.ofShape_eq Inst.makesAddress_shape true)
        (hf.graph.defined_lt w i wty hw)] at his
      exact hext.keeps.isPointer (h.result i w his hres)
  · rw [hinter.value_eq] at hu
    split at hu
    · cases hu
    · exact hext.keeps.isPointer (hparts u e' ty' s w hu hslot hw)

/-! ## Marking -/

/-- What the markers of a run wrap has the type of their value. -/
theorem Erasable.isPointer (h : f₀.Erasable f) (hf : f.Sound)
    (hunwraps : f.graph.Unwraps f₀.graph.insts.size w v) (hv : f.graph.isPointer v = true) :
    f.graph.isPointer w = true := by
  refine Relation.ReflTransGen.head_induction_on hunwraps hv fun hwraps _ ih => ?_
  obtain ⟨m, ty, hm, hle, hop⟩ := hwraps
  obtain ⟨arg, mty, u, hinst, harg, hres, hu⟩ := h.marker m hle (hf.graph.defined_lt _ m ty hm)
  obtain ⟨_, hinst', hslot⟩ := Graph.operand_eq_ok.1 hop
  cases hinst.symm.trans hinst'
  cases hslot
  cases hres.symm.trans ((hf.graph.result_iff m _).2 ⟨ty, hm⟩)
  exact Graph.isPointer_of_typeOf ih harg hu

/-- An instruction of another kind than markers was there before the markers. -/
theorem Erasable.instIs_old (h : f₀.Erasable f) (hext : f₀.Extends f) {P : Inst → Prop}
    (hP : Inst.OfShape P) (hmarker : ∀ arg ty, ¬ P (.marker arg ty)) (his : f.InstIs i P) :
    i.index < f₀.graph.insts.size ∧ f₀.InstIs i P := by
  obtain ⟨inst, hinst, hPinst⟩ := id his
  by_cases hlt : i.index < f₀.graph.insts.size
  · exact ⟨hlt, (hext.instIs_iff hP hlt).1 his⟩
  · obtain ⟨arg, ty, -, hinst', -⟩ := h.marker i (Nat.not_lt.1 hlt) (Graph.inst_lt hinst)
    cases hinst.symm.trans hinst'
    exact absurd hPinst (hmarker arg ty)

theorem PointersTyped.mark (h : f₀.PointersTyped) (hext : f₀.Extends f) (hf : f.Sound)
    (herasable : f₀.Erasable f) : f.PointersTyped := by
  refine ⟨fun i slot w his hop => ?_, fun i w his hres => ?_⟩
  · obtain ⟨hlt, his₀⟩ := herasable.instIs_old hext
      (Inst.ofShape_eq Inst.pointerSlot?_shape (some slot)) (fun arg ty => nofun) his
    obtain ⟨v, hv⟩ := (hext.hasSlot_iff hlt).1 ⟨w, hop⟩
    obtain ⟨w', hw', hunwraps⟩ := herasable.operand i slot v hv
    cases hop.symm.trans hw'
    exact herasable.isPointer hf hunwraps (hext.keeps.isPointer (h.operand i slot v his₀ hv))
  · obtain ⟨hlt, his₀⟩ := herasable.instIs_old hext
      (Inst.ofShape_eq Inst.makesAddress_shape true) (fun arg ty => nofun) his
    rw [hext.result? i hlt] at hres
    exact hext.keeps.isPointer (h.result i w his₀ hres)

/-! ## What the eager strategy relies on -/

/-- Operands exist, also inside constant expressions, and the blocks that phis name have places.
Constant expressions do not contain themselves. Addresses are computed from a base and have a value.
The functions that are called are declared. Memory is accessed through pointers, and addresses are
pointers. -/
structure Extractable (ctx : Context) (f : Function) : Prop where
  closed : f.graph.Closed
  phis : f.PhisPlaced
  based : ∀ i, ¬ f.InstIs i (·.lacksBase = true)
  defined : ∀ i ∈ f.insts, f.InstIs i (·.makesAddress = true) → ∃ v, f.graph.result? i = some v
  callees : ∀ i ∈ f.insts, ∀ callee, f.InstIs i (·.callee? = some callee) →
    ∃ sig, ctx.signature callee = .ok sig
  parts : f.graph.PartsExist
  acyclic : f.graph.Acyclic
  pointers : f.PointersTyped

/-- After demotion, the function can be marked if no annotations are to be seen, and memory is
accessed through pointers. -/
theorem Extractable.demote (h : f.Extractable ctx) (hbases : f.graph.PartsTyped) (hf : f.Written) :
    ∃ changed f', f.demote = .ok (changed, f') ∧
      f'.Markable (ctx.keepSamples fun _ => false) ∧ f'.PointersTyped := by
  have hcomplete : f.Complete (ctx.keepSamples fun _ => false) := by
    refine ⟨h.closed, h.phis, h.based, h.defined, fun i hi callee his => ?_⟩
    obtain ⟨sig, hsig⟩ := h.callees i hi callee his
    exact Context.exists_wellAnnotated hsig nofun
  obtain ⟨changed, f', hok, hmarkable⟩ := hcomplete.demote hf h.parts h.acyclic
  obtain ⟨-, -, hpointers, -⟩ := (hf.demote_demoted hok).invariant
    (P := fun g => g.PointersTyped ∧ g.graph.PartsTyped) hf.toSound ⟨h.pointers, hbases⟩
    fun _ _ _ hg hP hstep => hstep.pointersTyped hg hP.1 hP.2
  exact ⟨changed, f', hok, hmarkable, hpointers⟩

/-- Whether the pointer operand of an instruction is a pointer, if it has one. -/
def checkPointer (g : Graph) (inst : Inst) : Bool :=
  inst.pointerSlot?.all fun slot => inst.operands[slot]?.all g.isPointer

/-- Whether the function has what the eager strategy relies on, where constant expressions are made
of older values. -/
def checkExtractable (ctx : Context) (f : Function) : Bool :=
  f.checkComplete (ctx.keepSamples fun _ => false) &&
    (f.graph.checkParts fun v w => w.index < v.index) &&
    f.graph.insts.toList.all (checkPointer f.graph) &&
    f.graph.insts.toList.zipIdx.all fun (inst, n) =>
      !inst.makesAddress || (f.graph.result? ⟨n⟩).all f.graph.isPointer

/-- Whether the pointer operands of constant expressions are pointers. -/
def checkBases (f : Function) : Bool :=
  f.graph.values.toList.all fun
    | .expr e _ => checkPointer f.graph e.toInst
    | _ => true

theorem isPointer_of_checkPointer {g : Graph} {inst : Inst} {slot : Nat}
    (h : checkPointer g inst = true) (hslot : inst.pointerSlot? = some slot)
    (hv : inst.operands[slot]? = some v) : g.isPointer v = true := by
  rw [checkPointer, hslot, Option.all_some, hv, Option.all_some] at h
  exact h

theorem extractable_of_check (h : f.checkExtractable ctx = true) : f.Extractable ctx := by
  simp only [checkExtractable, Bool.and_eq_true, List.all_eq_true] at h
  obtain ⟨⟨⟨hcomplete, hparts⟩, hpointers⟩, hresults⟩ := h
  have hcomplete := complete_of_checkComplete hcomplete
  obtain ⟨hexist, hacyclic⟩ := Graph.acyclic_of_checkParts hparts
  have hinst : ∀ {i inst}, f.graph.inst i = .ok inst →
      f.graph.insts.toList[i.index]? = some inst := by
    intro i inst hinst
    rw [Array.getElem?_toList]
    exact Graph.inst_eq_ok.1 hinst
  refine ⟨hcomplete.closed, hcomplete.phis, hcomplete.based, hcomplete.defined, ?_, hexist,
    hacyclic, ⟨?_, ?_⟩⟩
  · intro i hi callee his
    obtain ⟨sig', hsig', -⟩ := hcomplete.callees i hi callee his
    rw [Context.signature_keepSamples] at hsig'
    obtain ⟨sig, hsig, -⟩ := map_eq_ok_iff.1 hsig'
    exact ⟨sig, hsig⟩
  · intro i slot v his hop
    obtain ⟨inst, hget, hv⟩ := Graph.operand_eq_ok.1 hop
    exact isPointer_of_checkPointer (hpointers inst (List.mem_of_getElem? (hinst hget)))
      (his.of_inst hget) hv
  · intro i v his hres
    obtain ⟨inst, hget, hmakes⟩ := his
    have hmem : (inst, i.index) ∈ f.graph.insts.toList.zipIdx :=
      List.mem_zipIdx_iff_getElem?.2 (hinst hget)
    have hcheck := hresults _ hmem
    dsimp only at hcheck
    rw [hmakes, hres] at hcheck
    simpa using hcheck

theorem partsTyped_of_checkBases (h : f.checkBases = true) : f.graph.PartsTyped := by
  simp only [checkBases, List.all_eq_true] at h
  intro v e ty slot w hv hslot hw
  have hmem : Value.expr e ty ∈ f.graph.values.toList := by
    rw [Array.mem_toList_iff]
    exact Array.mem_of_getElem? (Graph.value_eq_ok.1 hv)
  exact isPointer_of_checkPointer (h _ hmem) hslot hw

end Function

end Pointee
