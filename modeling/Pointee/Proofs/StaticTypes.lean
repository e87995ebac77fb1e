import Pointee.Proofs.Declarations
import Pointee.Proofs.Erasure
import Pointee.Proofs.UseTracking

/-!
# Passes keep static types

The type of a result is stored once, when the instruction is inserted, while the type that an
instruction computes is read off its operands. The two stay together under demotion, marking and
patching: each pass puts in the place of an operand a value of the type that the operand had. What
an instruction computes depends on one of its operands at most, `Inst.resultRule`, so it is enough
to know the types in the slots (`Function.KeepsSlotTypes`). `Module.passes_keep_types` says this
for every sequence of passes, whatever marking says in the end.
-/

namespace Pointee

/-- Where the type that an instruction computes comes from: a fixed type or none, or the type of an
operand. -/
inductive ResultRule where
  | fixed (ty : Option Ty)
  | ofOperand (slot : Nat)

namespace Inst

/-- Where the type that the instruction computes comes from. -/
def resultRule : Inst → ResultRule
  | unary .. | gep .. => .ofOperand 0
  | binary op _ _ => if op.isComparison then .fixed (some .i1) else .ofOperand 0
  | cast _ _ ty | load _ ty | phi ty _ => .fixed (some ty)
  | rmw .. | select .. => .ofOperand 1
  | cmpxchg .. => .ofOperand 2
  | alloca _ space => .fixed (some (.ptr space))
  | call _ _ retTy => .fixed (if retTy.isUnit then none else some retTy)
  | store .. | jump .. | branch .. | ret .. => .fixed none

theorem resultRule_shape (inst : Inst) : inst.shape.resultRule = inst.resultRule := by
  cases inst <;> rfl

theorem resultRule_of_shape {inst inst' : Inst} (h : inst'.shape = inst.shape) :
    inst'.resultRule = inst.resultRule := by
  rw [← resultRule_shape, h, resultRule_shape]

end Inst

namespace Graph

variable {g g' : Graph} {i : InstId} {inst inst' : Inst} {v : ValueId} {ty : Ty}

theorem resultType_eq_some_iff : g.resultType inst = .ok (some ty) ↔
    inst.resultRule = .fixed (some ty) ∨ ∃ slot v, inst.resultRule = .ofOperand slot ∧
      inst.operands[slot]? = some v ∧ g.typeOf v = .ok ty := by
  have hmap : ∀ v, (some <$> g.typeOf v) = .ok (some ty) ↔ g.typeOf v = .ok ty := by
    intro v
    simp [map_eq_ok_iff]
  cases inst with
  | binary op lhs rhs =>
      by_cases hop : op.isComparison = true <;>
        simp [resultType, Inst.resultRule, Inst.operands, hop, hmap]
  | gep source result args =>
      cases args <;> simp [resultType, Inst.resultRule, Inst.operands, hmap]
  | _ => simp [resultType, Inst.resultRule, Inst.operands, hmap]

/-- The value `v` has the type that instruction `i` computes. -/
def ResultComputed (g : Graph) (i : InstId) (v : ValueId) : Prop :=
  ∃ inst ty, g.inst i = .ok inst ∧ g.resultType inst = .ok (some ty) ∧ g.typeOf v = .ok ty

/-- Every result has the type that its instruction computes. -/
def ResultsComputed (g : Graph) : Prop := ∀ i v, g.result? i = some v → g.ResultComputed i v

/-- Whether every result has the type that its instruction computes. -/
def checkResultsComputed (g : Graph) : Bool :=
  (List.range g.insts.size).all fun n => (g.result? ⟨n⟩).all fun v =>
    succeeds (g.inst ⟨n⟩) fun inst => succeeds (g.resultType inst) fun computed =>
      succeeds (g.typeOf v) fun ty => computed = some ty

theorem resultsComputed_of_check (hg : g.Sound) (h : g.checkResultsComputed = true) :
    g.ResultsComputed := by
  intro i v hv
  obtain ⟨vty, hval⟩ := (hg.result_iff i v).1 hv
  have hcheck := List.all_eq_true.1 h i.index (List.mem_range.2 (hg.defined_lt v i vty hval))
  rw [Option.all_eq_true] at hcheck
  obtain ⟨inst, hinst, hcheck⟩ := exists_of_succeeds (hcheck v hv)
  obtain ⟨computed, hcomputed, hcheck⟩ := exists_of_succeeds hcheck
  obtain ⟨ty, hty, heq⟩ := exists_of_succeeds hcheck
  rw [of_decide_eq_true heq] at hcomputed
  exact ⟨inst, ty, hinst, hcomputed, hty⟩

end Graph

namespace Function

variable {f f' f'' f₀ : Function} {user i : InstId} {slot : Nat} {old v w : ValueId} {inst : Inst}
  {ty : Ty}

/-! ## Types in operand slots -/

/-- Every operand slot of `f` that holds a value holds in `f'` a value of the same type. -/
def KeepsSlotTypes (f f' : Function) : Prop :=
  ∀ i slot v ty, f.graph.operand i slot = .ok v → f.graph.typeOf v = .ok ty →
    ∃ w, f'.graph.operand i slot = .ok w ∧ f'.graph.typeOf w = .ok ty

theorem KeepsSlotTypes.refl (f : Function) : f.KeepsSlotTypes f :=
  fun _ _ v _ hv hty => ⟨v, hv, hty⟩

theorem KeepsSlotTypes.trans (h : f.KeepsSlotTypes f') (h' : f'.KeepsSlotTypes f'') :
    f.KeepsSlotTypes f'' := by
  intro i slot v ty hv hty
  obtain ⟨w, hw, hwty⟩ := h i slot v ty hv hty
  exact h' i slot w ty hw hwty

/-- An instruction that computed a type computes it still if its slots keep their types. -/
theorem KeepsSlotTypes.resultType (h : f.KeepsSlotTypes f') (hext : f.Extends f')
    (hinst : f.graph.inst i = .ok inst) (hty : f.graph.resultType inst = .ok (some ty)) :
    ∃ inst', f'.graph.inst i = .ok inst' ∧ f'.graph.resultType inst' = .ok (some ty) := by
  obtain ⟨inst', hinst', hshape⟩ :=
    Graph.inst_of_shape_eq (hext.shape i (Graph.inst_lt hinst)) hinst
  have hrule : inst'.resultRule = inst.resultRule := Inst.resultRule_of_shape hshape
  refine ⟨inst', hinst', Graph.resultType_eq_some_iff.2 ?_⟩
  rcases Graph.resultType_eq_some_iff.1 hty with hfixed | ⟨slot, v, hof, hv, hvty⟩
  · exact .inl (hrule.trans hfixed)
  · obtain ⟨w, hw, hwty⟩ := h i slot v ty (Graph.operand_eq_ok.2 ⟨inst, hinst, hv⟩) hvty
    obtain ⟨inst'', hinst'', hw⟩ := Graph.operand_eq_ok.1 hw
    cases hinst'.symm.trans hinst''
    exact .inr ⟨slot, w, hrule.trans hof, hw, hwty⟩

/-- Old results keep their types and what is computed for them, so only new ones are in question.
-/
theorem KeepsSlotTypes.resultsComputed (h : f.KeepsSlotTypes f') (hext : f.Extends f')
    (hf : f.graph.ResultsComputed)
    (hnew : ∀ i v, f.graph.insts.size ≤ i.index → f'.graph.result? i = some v →
      f'.graph.ResultComputed i v) : f'.graph.ResultsComputed := by
  intro i v hv
  by_cases hi : i.index < f.graph.insts.size
  · rw [hext.result? i hi] at hv
    obtain ⟨inst, ty, hinst, hty, hvty⟩ := hf i v hv
    obtain ⟨inst', hinst', hty'⟩ := h.resultType hext hinst hty
    exact ⟨inst', ty, hinst', hty', hext.keeps.typeOf hvty⟩
  · exact hnew i v (Nat.not_lt.1 hi) hv

/-- `f` has the types of `f₀`: in all slots of `f₀`, and between results and instructions. -/
structure TypedAs (f₀ f : Function) : Prop where
  slots : f₀.KeepsSlotTypes f
  results : f.graph.ResultsComputed

/-! ## Edits -/

/-- An instruction is interposed that computes the type of the operand it takes the place of. -/
theorem Interposes.keepsSlotTypes (h : f.Interposes user slot old inst ty f') (hf : f.Sound)
    (hold : f.graph.typeOf old = .ok ty) : f.KeepsSlotTypes f' := by
  have hext : f.Extends f' := h.extends hf
  intro i s v vty hv hvty
  have hi : i ≠ f.graph.nextInst := by
    rintro rfl
    obtain ⟨consumer, hconsumer, -⟩ := Graph.operand_eq_ok.1 hv
    exact absurd (Graph.inst_lt hconsumer) (Nat.lt_irrefl _)
  by_cases hslot : i = user ∧ s = slot
  · obtain ⟨rfl, rfl⟩ := hslot
    cases hv.symm.trans h.operand
    cases hvty.symm.trans hold
    refine ⟨f.graph.nextValue, by rw [h.operand_eq, if_neg hi, if_pos ⟨rfl, rfl⟩], ?_⟩
    exact Graph.typeOf_eq_ok.2 ⟨_, by rw [h.value_eq, if_pos rfl], rfl⟩
  · exact ⟨v, by rw [h.operand_eq, if_neg hi, if_neg hslot, hv], hext.keeps.typeOf hvty⟩

theorem TypedAs.interposes (h : f₀.TypedAs f) (hf : f.Sound)
    (hinter : f.Interposes user slot old inst ty f') (hold : f.graph.typeOf old = .ok ty)
    (hinst : f.graph.resultType inst = .ok (some ty)) : f₀.TypedAs f' := by
  have hext : f.Extends f' := hinter.extends hf
  have hslots : f.KeepsSlotTypes f' := hinter.keepsSlotTypes hf hold
  refine ⟨h.slots.trans hslots, hslots.resultsComputed hext h.results fun i v hi hv => ?_⟩
  have hlt : i.index < f'.graph.insts.size := by
    obtain ⟨vty, hval⟩ := (hinter.sound.graph.result_iff i v).1 hv
    exact hinter.sound.graph.defined_lt v i vty hval
  obtain rfl : i = f.graph.nextInst := by
    rw [hinter.size_insts] at hlt
    exact InstId.ext (Nat.le_antisymm (Nat.le_of_lt_succ hlt) hi)
  rw [hinter.result?_eq, if_pos rfl] at hv
  cases hv
  refine ⟨inst, ty, hinter.inst_new, hext.keeps.resultType hinst, ?_⟩
  exact Graph.typeOf_eq_ok.2 ⟨_, by rw [hinter.value_eq, if_pos rfl], rfl⟩

theorem TypedAs.demoteStep (h : f₀.TypedAs f) (hf : f.Sound) (hstep : f.DemoteStep f') :
    f₀.TypedAs f' := by
  obtain @⟨user, slot, v, e, ty, hval, hinter⟩ := hstep
  have hold : f.graph.typeOf v = .ok ty := Graph.typeOf_eq_ok.2 ⟨_, hval, rfl⟩
  exact h.interposes hf hinter hold (hf.graph.expr_type v e ty hval)

theorem TypedAs.patchStep (h : f₀.TypedAs f) (hf : f.Sound) (hstep : f.PatchStep f') :
    f₀.TypedAs f' := by
  obtain ⟨-, -, hold, hinter⟩ := hstep
  exact h.interposes hf hinter hold rfl

/-! ## Markers

A run of marking may send an operand through a chain of markers. All values of a chain have one
type, since every marker casts to the type of what it wraps. -/

/-- A marker of the run has the type of what it wraps. -/
theorem Erasable.typeOf_wraps (h : f₀.Erasable f) (hf : f.Sound)
    (hwraps : f.graph.Wraps f₀.graph.insts.size w v) (hv : f.graph.typeOf v = .ok ty) :
    f.graph.typeOf w = .ok ty := by
  obtain ⟨m, mty, hw, hle, hop⟩ := hwraps
  obtain ⟨arg, argTy, u, hinst, harg, hresult, hu⟩ :=
    h.marker m hle (hf.graph.defined_lt w m mty hw)
  have hresult' : f.graph.result? m = some w := (hf.graph.result_iff m w).2 ⟨mty, hw⟩
  cases hresult.symm.trans hresult'
  obtain ⟨inst, hinst', hslot⟩ := Graph.operand_eq_ok.1 hop
  cases hinst.symm.trans hinst'
  cases hslot
  rw [hu, ← harg, hv]

theorem Erasable.typeOf_unwraps (h : f₀.Erasable f) (hf : f.Sound)
    (hunwraps : f.graph.Unwraps f₀.graph.insts.size w v) (hv : f.graph.typeOf v = .ok ty) :
    f.graph.typeOf w = .ok ty := by
  induction hunwraps using Relation.ReflTransGen.head_induction_on with
  | refl => exact hv
  | head hfirst _ ih => exact h.typeOf_wraps hf hfirst ih

theorem Erasable.typedAs (h : f.Erasable f') (hext : f.Extends f') (hf' : f'.Sound)
    (hf : f.graph.ResultsComputed) : f.TypedAs f' := by
  have hslots : f.KeepsSlotTypes f' := by
    intro i slot v ty hv hty
    obtain ⟨w, hw, hunwraps⟩ := h.operand i slot v hv
    exact ⟨w, hw, h.typeOf_unwraps hf' hunwraps (hext.keeps.typeOf hty)⟩
  refine ⟨hslots, hslots.resultsComputed hext hf fun m v hm hv => ?_⟩
  have hlt : m.index < f'.graph.insts.size := by
    obtain ⟨vty, hval⟩ := (hf'.graph.result_iff m v).1 hv
    exact hf'.graph.defined_lt v m vty hval
  obtain ⟨arg, ty, u, hinst, -, hresult, hu⟩ := h.marker m hm hlt
  cases hv.symm.trans hresult
  exact ⟨_, ty, hinst, rfl, hu⟩

/-! ## Passes over a function -/

/-- Each pass keeps the types of the values, of the slots and of the results. -/
theorem Rewritten.typedAs (h : f.Rewritten f') (hf : f.Sound) (hresults : f.graph.ResultsComputed) :
    f.Extends f' ∧ f'.Sound ∧ f.TypedAs f' := by
  have hstart : f.TypedAs f := ⟨.refl f, hresults⟩
  cases h with
  | demoted hrun => exact hrun.invariant hf hstart fun _ _ _ hg h hstep => h.demoteStep hg hstep
  | marked hrun =>
      obtain ⟨hext, hf'⟩ := hrun.keeps hf
      exact ⟨hext, hf', (hrun.erasable hf).typedAs hext hf' hresults⟩
  | patched hrun => exact hrun.invariant hf hstart fun _ _ _ hg h hstep => h.patchStep hg hstep

end Function

/-! ## Passes over a module -/

namespace Module

variable {m m' : Module} {id : FuncId} {f : Function}

/-- A pass over the whole module that meets no fault: demotion, marking with any outcome, or
patching against any map. -/
inductive PassStep (m : Module) : Module → Prop
  | demote {changed : Bool} {m' : Module} : m.demote = .ok (changed, m') → PassStep m m'
  | mark {outcome : Except Refusal Bool} {m' : Module} :
      Module.mark.exec m = .ok (outcome, m') → PassStep m m'
  | patch {config : Config} {map map' : PtrMap} {changed : Bool} {m' : Module} :
      m.patch config map = .ok (changed, map', m') → PassStep m m'

/-- A pass over the module is one over each of its functions. -/
theorem PassStep.func (h : m.PassStep m') (hf : m.func id = .ok f) (hsound : f.Sound) :
    ∃ f', m'.func id = .ok f' ∧ f.Rewritten f' := by
  cases h with
  | demote hdemote =>
      obtain ⟨-, hsize, hfuncs⟩ := demote_eq_ok hdemote
      have hlt : id.index < m'.funcs.size := by
        rw [hsize]
        exact (Array.getElem?_eq_some_iff.1 (func_eq_ok.1 hf)).1
      have hf' : m'.func id = .ok m'.funcs[id.index] :=
        func_eq_ok.2 (Array.getElem?_eq_getElem hlt)
      obtain ⟨f₀, changed, hf₀, hrun⟩ := hfuncs id _ hf'
      cases hf.symm.trans hf₀
      exact ⟨_, hf', .demoted (hsound.demote_demoted hrun)⟩
  | mark hmark => exact (Rewrite.mark hmark).func hf hsound
  | patch hpatch => exact (Rewrite.patch hpatch).func hf hsound

/-- Static types are stable under any sequence of passes. If every result of a function has the type
that its instruction computes, this holds again of all instructions there are then, every value
keeps its type, and every operand slot that held a value holds one of the same type. -/
theorem passes_keep_types (h : Relation.ReflTransGen PassStep m m') (hf : m.func id = .ok f)
    (hsound : f.Sound) (hresults : f.graph.ResultsComputed) :
    ∃ f', m'.func id = .ok f' ∧ f'.graph.ResultsComputed ∧
      (∀ v ty, f.graph.typeOf v = .ok ty → f'.graph.typeOf v = .ok ty) ∧
      ∀ i slot v ty, f.graph.operand i slot = .ok v → f.graph.typeOf v = .ok ty →
        ∃ w, f'.graph.operand i slot = .ok w ∧ f'.graph.typeOf w = .ok ty := by
  have hrun : ∃ f', m'.func id = .ok f' ∧ f.Extends f' ∧ f'.Sound ∧ f.TypedAs f' := by
    induction h with
    | refl => exact ⟨f, hf, .refl hsound, hsound, .refl f, hresults⟩
    | tail _ hlast ih =>
        obtain ⟨g, hg, hext, hgsound, htyped⟩ := ih
        obtain ⟨g', hg', hrewritten⟩ := hlast.func hg hgsound
        obtain ⟨hext', hgsound', htyped'⟩ := hrewritten.typedAs hgsound htyped.results
        exact ⟨g', hg', hext.trans hext', hgsound', htyped.slots.trans htyped'.slots,
          htyped'.results⟩
  obtain ⟨f', hf', hext, -, htyped⟩ := hrun
  exact ⟨f', hf', htyped.results, fun v ty => hext.keeps.typeOf, htyped.slots⟩

/-- One of two addresses is chosen and read through. The first is a constant expression, so that all
passes find something to do. -/
def readsChosenAddress : Except Fault Module :=
  ofItems ⟨.air64, .bitcode, .v7⟩ [] [⟨"f", .exported, [.genericPtr, .i1], .unit, none⟩]
    [.null .generic, .constGep .i32 [⟨2⟩], .inst (.select ⟨1⟩ ⟨3⟩ ⟨0⟩), .inst (.load ⟨4⟩ .i32),
      .inst (.ret none)]

theorem passes_keep_types_readsChosenAddress : ∃ m m' f f', readsChosenAddress = .ok m ∧
    Relation.ReflTransGen PassStep m m' ∧ m.func ⟨0⟩ = .ok f ∧ m'.func ⟨0⟩ = .ok f' ∧
    f.Sound ∧ f.graph.ResultsComputed ∧ f'.graph.ResultsComputed ∧
    f.graph.insts.size = 3 ∧ f'.graph.insts.size = 9 ∧
    (∃ w, f'.graph.operand ⟨0⟩ 1 = .ok w ∧ f'.graph.typeOf w = .ok .genericPtr) ∧
    f.graph.operand ⟨0⟩ 1 = .ok ⟨3⟩ ∧ f'.graph.operand ⟨0⟩ 1 ≠ .ok ⟨3⟩ := by
  have hrun : succeeds readsChosenAddress (fun m => succeeds m.demote fun (_, m₁) =>
      succeeds (mark.exec m₁) fun (_, m₂) =>
        succeeds (m₂.patch (.ofStrategy .eager) .empty) fun (_, _, m₃) =>
          succeeds (m.func ⟨0⟩) fun f => succeeds (m₃.func ⟨0⟩) fun f' =>
            f.graph.checkResultsComputed && (f.graph.insts.size = 3 && (f'.graph.insts.size = 9 &&
              (succeeds (f.graph.operand ⟨0⟩ 1) (· = ⟨3⟩) &&
                (succeeds (f.graph.typeOf ⟨3⟩) (· = .genericPtr) &&
                  succeeds (f'.graph.operand ⟨0⟩ 1) (· ≠ ⟨3⟩)))))) = true := by
    decide +kernel
  obtain ⟨m, hm, hrun⟩ := exists_of_succeeds hrun
  obtain ⟨⟨demoted, m₁⟩, hdemote, hrun⟩ := exists_of_succeeds hrun
  obtain ⟨⟨outcome, m₂⟩, hmark, hrun⟩ := exists_of_succeeds hrun
  obtain ⟨⟨patched, map, m₃⟩, hpatch, hrun⟩ := exists_of_succeeds hrun
  obtain ⟨f, hf, hrun⟩ := exists_of_succeeds hrun
  obtain ⟨f', hf', hrun⟩ := exists_of_succeeds hrun
  simp only [Bool.and_eq_true, decide_eq_true_eq] at hrun
  obtain ⟨hcheck, hsize, hsize', hold, hty, hnew⟩ := hrun
  obtain ⟨_, hold, heq⟩ := exists_of_succeeds hold
  rw [of_decide_eq_true heq] at hold
  obtain ⟨_, hty, heq⟩ := exists_of_succeeds hty
  rw [of_decide_eq_true heq] at hty
  obtain ⟨w, hw, hne⟩ := exists_of_succeeds hnew
  have hpasses : Relation.ReflTransGen PassStep m m₃ :=
    ((Relation.ReflTransGen.single (.demote hdemote)).tail (.mark hmark)).tail (.patch hpatch)
  have hsound : f.Sound := (built_of_ofItems hm).sound hf
  have hresults : f.graph.ResultsComputed := Graph.resultsComputed_of_check hsound.graph hcheck
  obtain ⟨f'', hf'', hresults', -, hslots⟩ := passes_keep_types hpasses hf hsound hresults
  cases hf'.symm.trans hf''
  refine ⟨m, m₃, f, f', hm, hpasses, hf, hf', hsound, hresults, hresults', hsize, hsize',
    hslots ⟨0⟩ 1 ⟨3⟩ .genericPtr hold hty, hold, fun hsame => ?_⟩
  cases hw.symm.trans hsame
  exact absurd rfl (of_decide_eq_true hne)

end Module

end Pointee
