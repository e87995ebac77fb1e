import Mathlib.Logic.Relation
import Pointee.Patching
import Pointee.Proofs.Building
import Pointee.Proofs.Mismatches

/-!
# The edits of patching

Patching makes one kind of edit, `Function.PatchStep`: a cast of a pointer to its own type is placed
directly before an access and takes the place of its pointer operand. It is made for an access that
disagrees with the map and for no other, by `Patching.patchInst_eq_ok`. `Module.patch_eq_ok` says
that each function of a patched module is reached from what it was by such edits.
-/

namespace Pointee

namespace Function

variable {f f' f₀ : Function} {user : InstId} {slot : Nat}

/-- The pointer operand of an access is cast to its own type. -/
inductive PatchStep (f f' : Function) : Prop
  | intro {user : InstId} {slot : Nat} {inst : Inst} {ptr : ValueId} {ty : Ty} :
      f.graph.inst user = .ok inst → inst.isPhi = false → f.graph.typeOf ptr = .ok ty →
      f.Interposes user slot ptr (.marker ptr ty) ty f' → PatchStep f f'

/-- `f'` is reached from `f` by edits that patching makes. -/
def Patched : Function → Function → Prop := Relation.ReflTransGen PatchStep

theorem Patched.refl (f : Function) : f.Patched f := Relation.ReflTransGen.refl

theorem Patched.invariant {P : Function → Prop} (h : f₀.Patched f) (hf₀ : f₀.Sound) (h₀ : P f₀)
    (hstep : ∀ f f', f₀.Extends f → f.Sound → P f → f.PatchStep f' → P f') :
    f₀.Extends f ∧ f.Sound ∧ P f := by
  refine invariant_of_edits (fun f f' hf hedit => ?_) h hf₀ h₀ hstep
  obtain ⟨-, -, -, hinter⟩ := hedit
  exact ⟨hinter.extends hf, hinter.sound⟩

theorem Patched.sound (h : f₀.Patched f) (hf₀ : f₀.Sound) : f.Sound :=
  (h.invariant (P := fun _ => True) hf₀ trivial fun _ _ _ _ _ _ => trivial).2.1

end Function

/-! ## Runs of patching -/

namespace Patching

variable {config : Config} {id : FuncId} {s t : Patching} {i : InstId} {inst : Inst} {slot : Nat}
  {ptr : ValueId} {space : AddrSpace}

/-- What can be read of the function under patching. -/
def reading (s : Patching) (id : FuncId) : Reading := ⟨id, s.func.graph, s.map⟩

/-- An instruction that has its turn is left alone, or its pointer operand is cast. -/
theorem patchInst_eq_ok (h : s.patchInst config id i = .ok t) :
    ∃ inst, s.func.graph.inst i = .ok inst ∧ (t = s ∧ inst.Settled (s.reading id) ∨
      ∃ slot ptr space, inst.Mismatch (s.reading id) slot ptr space ∧
        s.castPointer config id i slot ptr space = .ok t) := by
  obtain ⟨inst, hinst, hrest⟩ := bind_eq_ok_iff.1 h
  refine ⟨inst, hinst, ?_⟩
  cases hslot : inst.pointerSlot? with
  | none =>
      simp only [hslot] at hrest
      exact .inl ⟨(pure_eq_ok_iff.1 hrest).symm, .idle hslot⟩
  | some slot =>
      simp only [hslot] at hrest
      obtain ⟨site, hsite, hrest⟩ := bind_eq_ok_iff.1 hrest
      obtain ⟨binding, hbinding, hrest⟩ := bind_eq_ok_iff.1 hrest
      obtain ⟨inst', hinst', hofInst⟩ := Graph.site_eq_ok.1 hsite
      cases hinst.symm.trans hinst'
      obtain ⟨ptr, elem, rfl, haccess⟩ := Inst.accesses_of_binding hslot hofInst hbinding
      obtain ⟨space?, hspaceOf, hrest⟩ := bind_eq_ok_iff.1 hrest
      obtain ⟨ty, hty, hspace⟩ := map_eq_ok_iff.1 hspaceOf
      cases space? with
      | none => exact .inl ⟨(pure_eq_ok_iff.1 hrest).symm, .number haccess hty hspace⟩
      | some space =>
          rw [Ty.space?_eq_some_iff.1 hspace] at hty
          obtain ⟨known, hknown, hturn⟩ := bind_eq_ok_iff.1 hrest
          obtain ⟨d?, hd, hknown⟩ := bind_eq_ok_iff.1 hknown
          have hdecides : known = true ↔ d?.map (·.pointee) = some elem := by
            rw [← pure_eq_ok_iff.1 hknown, decide_eq_true_iff]
          cases known with
          | true =>
              obtain ⟨d, rfl, rfl⟩ := Option.map_eq_some_iff.1 (hdecides.1 rfl)
              exact .inl ⟨(pure_eq_ok_iff.1 hturn).symm, .known haccess hd⟩
          | false =>
              refine .inr ⟨slot, ptr, space, ⟨elem, haccess, hty, fun d hd' heq => ?_⟩, hturn⟩
              cases hd.symm.trans hd'
              cases hdecides.2 (congrArg some heq)

/-- What casting a pointer operand inserts, changes and records. -/
theorem castPointer_eq_ok (h : s.castPointer config id i slot ptr space = .ok t) :
    ∃ loc ins mid v inst graph, Location.before s.func.layout i = .ok loc ∧
      s.func.insert loc (.marker ptr (.ptr space)) = .ok (ins, mid) ∧ ins.result = some v ∧
      mid.graph.inst i = .ok inst ∧ mid.graph.replaceInst i (inst.setOperand slot v) = .ok graph ∧
      t = ⟨{ mid with graph }, s.map.insert (.value id v) (config.fallbackIn space),
        s.patched + 1⟩ := by
  obtain ⟨loc, hloc, hrest⟩ := bind_eq_ok_iff.1 h
  obtain ⟨⟨ins, mid⟩, hinsert, hrest⟩ := bind_eq_ok_iff.1 hrest
  obtain ⟨v, hv⟩ := Function.result_of_insert (e := .cast .bitcast ptr (.ptr space)) hinsert
  dsimp only at hrest
  rw [hv] at hrest
  obtain ⟨inst, hinst, hrest⟩ := bind_eq_ok_iff.1 hrest
  obtain ⟨graph, hgraph, hrest⟩ := bind_eq_ok_iff.1 hrest
  exact ⟨loc, ins, mid, v, inst, graph, hloc, hinsert, hv, hinst, hgraph,
    (pure_eq_ok_iff.1 hrest).symm⟩

theorem castPointer_patched (hs : s.func.Sound) (hinst : s.func.graph.inst i = .ok inst)
    (hphi : inst.isPhi = false) (hptr : inst.operands[slot]? = some ptr)
    (hty : s.func.graph.typeOf ptr = .ok (.ptr space))
    (h : s.castPointer config id i slot ptr space = .ok t) : s.func.PatchStep t.func := by
  obtain ⟨loc, ins, mid, v, inst', graph, hloc, hmid, hv, hinst', hgraph, rfl⟩ :=
    castPointer_eq_ok h
  have hop : s.func.operandLocation i slot = .ok loc := by
    rw [Function.operandLocation_of_not_phi hinst hphi]
    exact hloc
  obtain ⟨b, front, back, hplace, hsplits⟩ := hs.operandLocation_splits hop
  have hmarker : s.func.graph.resultType (.marker ptr (.ptr space)) = .ok (some (.ptr space)) := rfl
  obtain ⟨mid', hmid', hins⟩ := hs.insert_total hsplits hmarker
  cases hmid.symm.trans hmid'
  cases hv
  cases hinst'.symm.trans (hins.inst_old hinst)
  have hslot : slot < inst.operands.length := (List.getElem?_eq_some_iff.1 hptr).1
  refine ⟨hinst, hphi, hty, Graph.operand_eq_ok.2 ⟨inst, hinst, hptr⟩, ?_⟩
  exact ⟨b, front, back, mid, hplace, hins, rfl, rfl,
    Graph.replaceInst_rewires (hins.inst_old hinst) hslot hgraph⟩

theorem patchInst_patched (hs : s.func.Sound) (h : s.patchInst config id i = .ok t) :
    s.func.Patched t.func := by
  obtain ⟨inst, hinst, ⟨rfl, -⟩ | ⟨slot, ptr, space, ⟨elem, haccess, hty, -⟩, hcast⟩⟩ :=
    patchInst_eq_ok h
  · exact Function.Patched.refl _
  · obtain ⟨hslot, hptr⟩ := haccess.pointerSlot
    have hphi : inst.isPhi = false := by
      cases inst with
      | phi => cases hslot
      | _ => rfl
    exact .single (castPointer_patched hs hinst hphi hptr hty hcast)

theorem patchFunction_patched (hs : s.func.Sound) (h : s.patchFunction config id = .ok t) :
    s.func.Patched t.func := by
  refine foldlM_invariant (P := fun t => s.func.Patched t.func) ?_ (Function.Patched.refl s.func) h
  intro t t' i _ ht hround
  exact ht.trans (patchInst_patched (ht.sound hs) hround)

end Patching

namespace Module

variable {m m' : Module} {config : Config}

/-- The outcome of patching a function is that of a run of patching on it, if not the function
itself. -/
def PatchOutcome (func func' : Function) : Prop :=
  func' = func ∨ ∃ config id s t, Patching.patchFunction config id s = .ok t ∧ s.func = func ∧
    t.func = func'

theorem PatchOutcome.patched {func func' : Function} (h : PatchOutcome func func')
    (hfunc : func.Sound) : func.Patched func' := by
  rcases h with rfl | ⟨config, id, s, t, hrun, rfl, rfl⟩
  · exact Function.Patched.refl func'
  · exact Patching.patchFunction_patched hfunc hrun

/-- Each function of a patched module is patched from what it was. -/
theorem patch_eq_ok {map map' : PtrMap} {changed : Bool}
    (h : m.patch config map = .ok (changed, map', m')) :
    m'.funcs.size = m.funcs.size ∧ ∀ id func, m.func id = .ok func →
      ∃ func', m'.func id = .ok func' ∧ PatchOutcome func func' := by
  obtain ⟨⟨map₁, patched, m₁⟩, hloop, hrest⟩ := bind_eq_ok_iff.1 h
  cases pure_eq_ok_iff.1 hrest
  refine foldlM_invariant (P := fun state => state.2.2.funcs.size = m.funcs.size ∧
    ∀ id func, m.func id = .ok func → ∃ func', state.2.2.func id = .ok func' ∧
      PatchOutcome func func') ?_ ⟨rfl, fun id func hfunc => ⟨func, hfunc, .inl rfl⟩⟩ hloop
  rintro ⟨map₁, n₁, m₁⟩ ⟨map₂, n₂, m₂⟩ ⟨f, old⟩ hmem ⟨hsize, hfuncs⟩ hround
  obtain ⟨s, hrun, hrest⟩ := bind_eq_ok_iff.1 hround
  cases pure_eq_ok_iff.1 hrest
  have hold := mem_funcList.1 hmem
  have hf : f.index < m₁.funcs.size := by
    rw [hsize]
    exact (Array.getElem?_eq_some_iff.1 (func_eq_ok.1 hold)).1
  refine ⟨(Array.size_setIfInBounds ..).trans hsize, fun id func hfunc => ?_⟩
  dsimp only
  rw [func_setFunc hf]
  by_cases hid : id = f
  · subst hid
    cases hold.symm.trans hfunc
    exact ⟨s.func, if_pos rfl, .inr ⟨config, id, _, s, hrun, rfl, rfl⟩⟩
  · rw [if_neg hid]
    exact hfuncs id func hfunc

end Module

end Pointee
