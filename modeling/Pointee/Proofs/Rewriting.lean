import Pointee.Proofs.DemotionSteps
import Pointee.Proofs.MarkingSteps
import Pointee.Proofs.PatchingSteps
import Pointee.Proofs.SingleAssignment

/-!
# Passes keep single assignment form

A module is rewritten by demotion, marking and patching, in any order and as often as one likes.
`Module.rewrites_keep_ssa` says that a function in single assignment form stays in it, whatever the
outcomes of the passes were and whatever the other functions of the module are. The work is done by
the edits: each edit of a pass is one of the three that `Function.Ready` is kept by.
-/

namespace Pointee

namespace Function

variable {f f' f₀ : Function} {user i : InstId} {slot start : Nat} {old v : ValueId} {inst : Inst}
  {ty : Ty}

/-! ## Edits keep functions ready -/

/-- A marker of an operand may be interposed, but not before a phi. -/
theorem Ready.wraps (h : f.Ready) (hinter : f.Interposes user slot v (.marker v ty) ty f')
    (hnphi : ∀ i vty, f.graph.value v = .ok (.inst i vty) → ¬ f.IsPhi user) : f'.Ready := by
  refine h.interposes hinter rfl rfl fun w hw => ?_
  obtain rfl : w = v := by simpa [Inst.marker, Inst.operands] using hw
  exact ⟨h.closed user slot w hinter.operand, fun i vty hval => ⟨rfl, hnphi i vty hval⟩⟩

theorem Ready.markStep (h : f.Ready) (hstep : f.MarkStep start i f') : f'.Ready := by
  cases hstep with
  | wrap _ _ hglobal hinter =>
      refine h.wraps hinter fun k vty hval his => ?_
      obtain ⟨x, hx, hphi⟩ := his
      obtain ⟨g, gty, hg⟩ := hglobal x hx hphi
      cases hval.symm.trans hg
  | @follow x v ty b front back _ _ hx hmakes hresult _ hins =>
      have hkind : x.isPhi = false ∧ x.isTerminator = false := by
        cases x with
        | gep | alloca => exact ⟨rfl, rfl⟩
        | _ => cases hmakes
      exact h.follows hx hkind.1 hkind.2 hresult hins
  | redirect hresult hop hrow _ hne _ hnew hr => exact h.redirects hresult hop hrow hne hnew hr

theorem Ready.patchStep (h : f.Ready) (hstep : f.PatchStep f') : f'.Ready := by
  obtain ⟨hinst, hphi, -, hinter⟩ := hstep
  refine h.wraps hinter fun k vty hval his => ?_
  rw [his.of_inst hinst] at hphi
  cases hphi

theorem Ready.demoteStep (h : f.Ready) (hstep : f.DemoteStep f') : f'.Ready := by
  obtain @⟨user, slot, v, e, ty, hval, hinter⟩ := hstep
  have hkind : e.toInst.isPhi = false ∧ e.toInst.isTerminator = false := by
    cases e <;> exact ⟨rfl, rfl⟩
  refine h.interposes hinter hkind.1 hkind.2 fun w hw => ?_
  rw [ConstExpr.operands_toInst] at hw
  obtain ⟨part, hpart, hlocal⟩ := h.constParts v w ⟨e, ty, hval, hw⟩
  refine ⟨Graph.has_of_value hpart, fun i wty hw => ?_⟩
  cases hpart.symm.trans hw
  cases hlocal

/-- A pass changes a function by its edits. -/
inductive Rewritten (f f' : Function) : Prop
  | demoted : f.Demoted f' → Rewritten f f'
  | marked : f.Marked f.graph.insts.size f' → Rewritten f f'
  | patched : f.Patched f' → Rewritten f f'

/-- `g` is ready, and its phis are those of `f`. -/
def ReadyAs (f g : Function) : Prop := g.Ready ∧ ∀ i, g.IsPhi i ↔ f.IsPhi i

/-- A pass keeps a function ready, and the phis of the function are those it had. -/
theorem Rewritten.ready (hrun : f.Rewritten f') (h : f.Ready) :
    f'.Ready ∧ f.Extends f' ∧ ∀ i, f'.IsPhi i ↔ f.IsPhi i := by
  have hstart : f.ReadyAs f := ⟨h, fun i => Iff.rfl⟩
  have hkept : f.Extends f' ∧ f'.Sound ∧ f.ReadyAs f' := by
    cases hrun with
    | demoted hrun =>
        refine hrun.invariant (P := f.ReadyAs) h.sound hstart fun g g' _ _ hg hstep => ?_
        refine ⟨hg.1.demoteStep hstep, fun i => ?_⟩
        obtain @⟨user, slot, v, e, ty, -, hinter⟩ := hstep
        have hphi : ¬ e.toInst.isPhi = true := by cases e <;> exact Bool.noConfusion
        exact (hinter.instIs_iff Inst.ofShape_isPhi hphi i).trans (hg.2 i)
    | marked hrun =>
        refine hrun.invariant (P := f.ReadyAs) h.sound hstart fun g g' k _ _ hg hstep => ?_
        refine ⟨hg.1.markStep hstep, fun i => ?_⟩
        exact (hstep.instIs_iff Inst.ofShape_isPhi (by simp [Inst.marker, Inst.isPhi]) i).trans
          (hg.2 i)
    | patched hrun =>
        refine hrun.invariant (P := f.ReadyAs) h.sound hstart fun g g' _ _ hg hstep => ?_
        refine ⟨hg.1.patchStep hstep, fun i => ?_⟩
        obtain ⟨-, -, -, hinter⟩ := hstep
        exact (hinter.instIs_iff Inst.ofShape_isPhi (by simp [Inst.marker, Inst.isPhi]) i).trans
          (hg.2 i)
  exact ⟨hkept.2.2.1, hkept.1, hkept.2.2.2⟩

end Function

/-! ## Passes over a module -/

namespace Module

/-- One pass over a module that meets no fault: demotion of one function, marking with any outcome,
or patching against any map. -/
inductive Rewrite (m : Module) : Module → Prop
  | demote {id : FuncId} {f f' : Function} {changed : Bool} :
      m.func id = .ok f → f.demote = .ok (changed, f') → Rewrite m (m.setFunc id f')
  | mark {outcome : Except Refusal Bool} {m' : Module} :
      Module.mark.exec m = .ok (outcome, m') → Rewrite m m'
  | patch {config : Config} {map map' : PtrMap} {changed : Bool} {m' : Module} :
      m.patch config map = .ok (changed, map', m') → Rewrite m m'

theorem Rewrite.func {m m' : Module} (h : m.Rewrite m') {id : FuncId} {f : Function}
    (hf : m.func id = .ok f) (hsound : f.Sound) :
    ∃ f', m'.func id = .ok f' ∧ f.Rewritten f' := by
  cases h with
  | @demote id' g g' changed hg hdemote =>
      have hlt : id'.index < m.funcs.size := (Array.getElem?_eq_some_iff.1 (func_eq_ok.1 hg)).1
      rw [func_setFunc hlt]
      by_cases hid : id = id'
      · subst hid
        cases hg.symm.trans hf
        exact ⟨g', if_pos rfl, .demoted (hsound.demote_demoted hdemote)⟩
      · rw [if_neg hid]
        exact ⟨f, hf, .demoted (Function.Demoted.refl f)⟩
  | mark hmark =>
      obtain ⟨f', hf', hout⟩ := (mark_eq_ok hmark).2 id f hf
      exact ⟨f', hf', .marked (hout.marked hsound)⟩
  | patch hpatch =>
      obtain ⟨f', hf', hout⟩ := (patch_eq_ok hpatch).2 id f hf
      exact ⟨f', hf', .patched (hout.patched hsound)⟩

/-- Any sequence of passes keeps a function in single assignment form, if its operands exist and its
constant expressions are built over constants. No instruction of the passes stands before a phi in
the phi's block, and none behind a terminator. -/
theorem rewrites_keep_ssa {m m' : Module} (h : Relation.ReflTransGen Rewrite m m') {id : FuncId}
    {f : Function} (hf : m.func id = .ok f) (hready : f.Ready) :
    ∃ f', m'.func id = .ok f' ∧ f'.InSSA ∧
      (∀ b i j, f.graph.insts.size ≤ i.index → f'.Precedes b i j → ¬ f'.IsPhi j) ∧
      ∀ b i j, f.graph.insts.size ≤ j.index → f'.Precedes b i j → ¬ f'.IsTerminator i := by
  have hrun : ∃ f', m'.func id = .ok f' ∧ f'.Ready ∧ ∀ i, f'.IsPhi i ↔ f.IsPhi i := by
    induction h with
    | refl => exact ⟨f, hf, hready, fun i => Iff.rfl⟩
    | tail _ hlast ih =>
        obtain ⟨g, hg, hgready, hphi⟩ := ih
        obtain ⟨g', hg', hrewritten⟩ := hlast.func hg hgready.sound
        obtain ⟨hgready', -, hphi'⟩ := hrewritten.ready hgready
        exact ⟨g', hg', hgready', fun i => (hphi' i).trans (hphi i)⟩
  obtain ⟨f', hf', hready', hphi⟩ := hrun
  refine ⟨f', hf', hready'.ssa, fun b i j hi hij hj => ?_, fun b i j _ hij => ?_⟩
  · obtain ⟨x, hx, -⟩ := (hphi i).1 (hready'.ssa.phis_first b i j hij hj)
    exact absurd (Graph.inst_lt hx) (Nat.not_lt.2 hi)
  · exact hready'.ssa.terminator_last b i j hij

/-- A block that jumps to itself. Its phi takes the address that is computed behind it, so that
marking reroutes an operand on a back edge. -/
def addressLoop : Except Fault Module :=
  ofInsts ⟨.air64, .bitcode, .v7⟩ ⟨"f", .exported, [.genericPtr], .unit, none⟩
    [.phi .genericPtr [(⟨2⟩, ⟨0⟩)], .gep .i32 .i32 [⟨1⟩], .load ⟨2⟩ .i32, .jump ⟨0⟩]

theorem rewrites_keep_ssa_addressLoop : ∃ m m' f f', m.func ⟨0⟩ = .ok f ∧ f.Ready ∧
    Relation.ReflTransGen Rewrite m m' ∧ m'.func ⟨0⟩ = .ok f' ∧ f'.InSSA ∧
    f.graph.insts.size + 4 ≤ f'.graph.insts.size := by
  have hrun : succeeds addressLoop (fun m => succeeds (mark.exec m) fun (_, m₁) =>
      succeeds (m₁.patch (.ofStrategy .analytical) .empty) fun (_, _, m') =>
      succeeds (m.func ⟨0⟩) fun f => succeeds (m'.func ⟨0⟩) fun f' =>
        f.graph.checkClosed && f.checkBlock ⟨0⟩ &&
        f.graph.checkParts (fun _ w => succeeds (f.graph.value w) (!·.isLocal)) &&
        f.graph.insts.size + 4 ≤ f'.graph.insts.size) = true := by
    decide +kernel
  obtain ⟨m, hm, hrun⟩ := exists_of_succeeds hrun
  obtain ⟨⟨outcome, m₁⟩, hmark, hrun⟩ := exists_of_succeeds hrun
  obtain ⟨⟨changed, map, m'⟩, hpatch, hrun⟩ := exists_of_succeeds hrun
  obtain ⟨f, hf, hrun⟩ := exists_of_succeeds hrun
  obtain ⟨f', hf', hrun⟩ := exists_of_succeeds hrun
  simp only [Bool.and_eq_true, decide_eq_true_eq] at hrun
  obtain ⟨⟨⟨hclosed, hssa⟩, hparts⟩, hsize⟩ := hrun
  have hsound : f.Sound := (built_of_ofItems hm).sound hf
  have hready : f.Ready := ⟨hsound, Graph.closed_of_checkClosed hclosed,
    Graph.constParts_of_checkParts hparts, Function.inSSA_of_checkBlock hsound hssa⟩
  have hpasses : Relation.ReflTransGen Rewrite m m' := .tail (.single (.mark hmark)) (.patch hpatch)
  obtain ⟨f'', hf'', hssa', -⟩ := rewrites_keep_ssa hpasses hf hready
  cases hf'.symm.trans hf''
  exact ⟨m, m', f, f', hf, hready, hpasses, hf', hssa', hsize⟩

end Module

end Pointee
