import Mathlib.Algebra.GroupWithZero.Nat
import Pointee.Proofs.Erasure
import Pointee.Proofs.MarkingRuns

/-!
# Every site gets its marker

The operands of an instruction that need a marker are its sites. `Marking.markInst_total` says that
one marker is made for each of them, and one for an address that the instruction makes. An
instruction that is done is `Settled` and stays so while the others are marked, so that in the end
all of them are, by `Marking.markFunction_total`.
-/

namespace Pointee

namespace Inst

variable {inst : Inst}

theorem eq_call_of_callee {callee : FuncId} (h : inst.callee? = some callee) :
    ∃ args ret, inst = .call callee args ret := by
  cases inst with
  | call callee' args ret => cases h; exact ⟨args, ret, rfl⟩
  | _ => cases h

theorem annotates_of_callee_none (ctx : Context) (h : inst.callee? = none) (slot : Nat) :
    inst.annotates ctx slot = false := by
  cases inst with
  | call => cases h
  | _ => rfl

end Inst

/-- The site of an instruction that is no call is none either. -/
theorem Site.ofInst_of_not_call {inst : Inst} (hcall : inst.callee? = none)
    (hbase : inst.lacksBase = false) :
    ∃ site, Site.ofInst inst = .ok site ∧ ∀ callee args, site ≠ .call callee args := by
  cases inst with
  | call => cases hcall
  | gep source result args =>
      cases args with
      | nil => cases hbase
      | cons => exact ⟨_, rfl, by simp⟩
  | cast op arg ty => cases op <;> exact ⟨_, rfl, by simp⟩
  | _ => exact ⟨_, rfl, by simp⟩

namespace Function

variable {f g : Function} {ctx : Context} {start : Nat} {i j : InstId} {inst : Inst}
  {slots : List Nat}

/-- The slots that the annotation of a callee types are those that the call has to wrap. -/
theorem Complete.annotated_total (hf : f.Complete ctx) (hi : i ∈ f.insts)
    (hinst : f.graph.inst i = .ok inst) {callee : FuncId} (hcallee : inst.callee? = some callee)
    (types : TypeStore) :
    ∃ typed types', (TypedSignature.annotated ctx callee).exec types = .ok (.ok typed, types') ∧
      ∀ k, (typed.arg? k).isSome = inst.annotates ctx k := by
  obtain ⟨sig, hsig, hwell⟩ := hf.callees i hi callee ⟨inst, hinst, hcallee⟩
  obtain ⟨typed, types', htyped, hslots⟩ := TypedSignature.annotated_total hsig hwell types
  obtain ⟨args, ret, rfl⟩ := Inst.eq_call_of_callee hcallee
  refine ⟨typed, types', htyped, fun k => (hslots k).trans ?_⟩
  simp [Inst.annotates, succeeds, hsig]

/-! ## What is done -/

/-- The instruction `i` is marked: its sites are wrapped with markers, and so is an address that it
makes. -/
structure Settled (ctx : Context) (start : Nat) (f : Function) (i : InstId) : Prop where
  global : ∀ s, ¬ f.GlobalAt i s
  pointer : ∀ s, f.InstIs i (·.pointerSlot? = some s) → f.WrappedAt start i s
  argument : ∀ s, f.HasSlot i s → f.InstIs i (·.annotates ctx s = true) → f.WrappedAt start i s
  result : f.InstIs i (·.makesAddress = true) → f.SoleAt start i

/-- The operands of an instruction that need a marker. -/
def siteSlots (ctx : Context) (f : Function) (i : InstId) (inst : Inst) : List Nat :=
  (List.range inst.operands.length).filter fun s =>
    f.isGlobalAt i s || inst.pointerSlot? = some s || inst.annotates ctx s

/-- How many markers an instruction needs: one for each site, and one for an address that it makes.
-/
def siteCount (ctx : Context) (f : Function) (i : InstId) : Nat :=
  match f.graph.inst i with
  | .ok inst => (f.siteSlots ctx i inst).length + if inst.makesAddress then 1 else 0
  | .error _ => 0

/-- The slots that marking wraps, in its order, are the sites. -/
theorem perm_siteSlots (hbase : inst.lacksBase = false) {globals wrapped : List Nat}
    (hglobals : globals = (List.range inst.operands.length).filter (f.isGlobalAt i))
    (hwrapped : wrapped = globals ++ inst.pointerSlot?.toList.filter (· ∉ globals)) :
    wrapped.Nodup ∧ (wrapped ++ (List.range inst.operands.length).filter
      fun k => inst.annotates ctx k && k ∉ wrapped).Perm (f.siteSlots ctx i inst) := by
  have hnodup : wrapped.Nodup := by
    rw [hwrapped]
    refine List.nodup_append.2 ⟨hglobals ▸ List.nodup_range.filter _, ?_, ?_⟩
    · refine List.Nodup.filter _ ?_
      cases inst.pointerSlot? <;> simp
    · rintro a ha b hb rfl
      simp [ha] at hb
  refine ⟨hnodup, (List.perm_ext_iff_of_nodup ?_ (List.nodup_range.filter _)).2 fun s => ?_⟩
  · refine List.nodup_append.2 ⟨hnodup, List.nodup_range.filter _, ?_⟩
    rintro a ha b hb rfl
    simp [ha] at hb
  · have hpointer : inst.pointerSlot? = some s → s < inst.operands.length := fun h =>
      Inst.pointerSlot_lt h hbase
    simp only [hwrapped, hglobals, List.mem_append, List.mem_filter, List.mem_range,
      Option.mem_toList, Bool.or_eq_true, Bool.and_eq_true, decide_eq_true_eq]
    tauto

/-- An instruction whose sites are all wrapped is settled, once its result is. -/
theorem SlotsWrapped.settled {g' : Function} (h : f.SlotsWrapped start i slots g) (hf : f.Sound)
    (hinst : f.graph.inst i = .ok inst) (hslots : ∀ k ∈ f.siteSlots ctx i inst, k ∈ slots)
    (hbase : inst.lacksBase = false) (hframe : f.Frame ctx start i g')
    (hframe' : g.Frame ctx start i g') (hsole : inst.makesAddress = true → g'.SoleAt start i) :
    g'.Settled ctx start i := by
  have hlt := Graph.inst_lt hinst
  have hlt' : i.index < g.graph.insts.size :=
    Nat.lt_of_lt_of_le hlt (h.edits.keeps hf).1.size_le
  -- An operand that is a site for one of the three reasons is wrapped.
  have hwrapped : ∀ {k}, k < inst.operands.length →
      (f.isGlobalAt i k || inst.pointerSlot? = some k || inst.annotates ctx k) = true →
      g'.WrappedAt start i k := by
    intro k hk hsite
    refine hframe'.wrappedAt i k hlt' (h.wrapped k (hslots k ?_))
    exact List.mem_filter.2 ⟨List.mem_range.2 hk, hsite⟩
  refine ⟨fun k hglobal => ?_, fun k his => ?_, fun k hk his => ?_, fun his => ?_⟩
  · have hold := hframe.globalAt_of i k hlt hglobal
    have hisGlobal := isGlobalAt_iff.2 hold
    obtain ⟨v, -, -, hv, -⟩ := hold
    refine (hwrapped ((hasSlot_iff hinst).1 ⟨v, hv⟩) ?_).not_globalAt hglobal
    simp [hisGlobal]
  · rw [hframe.extension.instIs_iff (Inst.ofShape_eq Inst.pointerSlot?_shape (some k)) hlt] at his
    have hpointer := his.of_inst hinst
    exact hwrapped (Inst.pointerSlot_lt hpointer hbase) (by simp [hpointer])
  · rw [hframe.extension.instIs_iff (Inst.ofShape_eq (Inst.annotates_shape ctx k) true) hlt] at his
    rw [hframe.extension.hasSlot_iff hlt] at hk
    exact hwrapped ((hasSlot_iff hinst).1 hk) (by simp [his.of_inst hinst])
  · rw [hframe.extension.instIs_iff (Inst.ofShape_eq Inst.makesAddress_shape true) hlt] at his
    exact hsole (his.of_inst hinst)

/-- Marking another instruction leaves an instruction settled. -/
theorem Frame.settled {f' : Function} (h : f.Frame ctx start i f')
    (hsettled : f.Settled ctx start j) (hne : j ≠ i) (hj : j.index < start)
    (hle : start ≤ f.graph.insts.size) : f'.Settled ctx start j := by
  have hlt := Nat.lt_of_lt_of_le hj hle
  refine ⟨fun k hglobal => ?_, fun k his => ?_, fun k hk his => ?_, fun his => ?_⟩
  · exact hsettled.global k (h.globalAt_of j k hlt hglobal)
  · rw [h.extension.instIs_iff (Inst.ofShape_eq Inst.pointerSlot?_shape (some k)) hlt] at his
    exact h.wrappedAt j k hlt (hsettled.pointer k his)
  · rw [h.extension.instIs_iff (Inst.ofShape_eq (Inst.annotates_shape ctx k) true) hlt] at his
    rw [h.extension.hasSlot_iff hlt] at hk
    exact h.wrappedAt j k hlt (hsettled.argument k hk his)
  · rw [h.extension.instIs_iff (Inst.ofShape_eq Inst.makesAddress_shape true) hlt] at his
    exact h.soleAt j hne hj (hsettled.result his)

/-- Marking another instruction adds no site to an instruction, and takes none away. -/
theorem Frame.siteCount_eq {f' : Function} (h : f.Frame ctx start i f') (hne : j ≠ i)
    (hlt : j.index < f.graph.insts.size) : f'.siteCount ctx j = f.siteCount ctx j := by
  obtain ⟨inst, hinst⟩ := Graph.exists_inst hlt
  obtain ⟨inst', hinst', hshape⟩ := Graph.inst_of_shape_eq (h.extension.shape j hlt) hinst
  have hglobal : ∀ k, f'.isGlobalAt j k = f.isGlobalAt j k := by
    intro k
    rw [Bool.eq_iff_iff, isGlobalAt_iff, isGlobalAt_iff]
    exact ⟨h.globalAt_of j k hlt, h.globalAt j k hne⟩
  have hannotates : ∀ k, inst'.annotates ctx k = inst.annotates ctx k := fun k =>
    Inst.eq_of_shape (Inst.annotates_shape ctx k) hshape
  simp only [siteCount, siteSlots, hinst, hinst', hglobal, hannotates,
    Inst.length_operands_of_shape hshape, Inst.eq_of_shape Inst.pointerSlot?_shape hshape,
    Inst.eq_of_shape Inst.makesAddress_shape hshape]

/-- How many markers the instructions of a function need. -/
def sites (ctx : Context) (f : Function) : Nat := (f.insts.map (f.siteCount ctx)).sum

/-- The state of marking the function `f₀` when the instructions `done` are done. -/
structure Progress (ctx : Context) (f₀ : Function) (done : List InstId) (count : Nat)
    (f : Function) : Prop where
  markable : f.Markable ctx
  extension : f₀.Extends f
  settled : ∀ i ∈ done, f.Settled ctx f₀.graph.insts.size i
  ahead : ∀ i ∈ f₀.insts, i ∉ done → f.siteCount ctx i = f₀.siteCount ctx i
  count_eq : count = (done.map (f₀.siteCount ctx)).sum
  length : f.insts.length = f₀.insts.length + count

end Function

namespace Marking

variable {f : Function} {ctx : Context} {start : Nat} {i : InstId} {inst : Inst} {slots : List Nat}
  {s : Marking}

theorem exec_annotated {callee : FuncId} {typed : TypedSignature} {types : TypeStore}
    (h : (TypedSignature.annotated ctx callee).exec s.types = .ok (.ok typed, types)) :
    (annotated ctx callee).exec s = .ok (.ok typed, { s with types }) :=
  bind_eq_ok_iff.2 ⟨_, h, rfl⟩

section Inst

variable (hf : f.Markable ctx) (hi : i ∈ f.insts) (hstart : i.index < start)
  (hle : start ≤ f.graph.insts.size) (hinst : f.graph.inst i = .ok inst)
include hf hi hstart hle hinst

/-- The arguments of a call that the callee has samples for are wrapped unless they are already. -/
theorem markCall_total (h : f.SlotsWrapped start i slots s.func) (hnodup : slots.Nodup) :
    ∃ t, (markCall ctx i slots).exec s = .ok (.ok ((List.range inst.operands.length).filter
        fun k => inst.annotates ctx k && k ∉ slots).length, t) ∧
      f.SlotsWrapped start i (slots ++ (List.range inst.operands.length).filter
        fun k => inst.annotates ctx k && k ∉ slots) t.func := by
  have hext := (h.edits.frame hf hstart hle).extension
  obtain ⟨inst', hinst', hshape⟩ :=
    Graph.inst_of_shape_eq (hext.shape i (Graph.inst_lt hinst)) hinst
  have hcount := Inst.length_operands_of_shape hshape
  rw [markCall, Pass.exec_bind_of_ok (Pass.exec_get s), Pass.exec_liftM_bind]
  have hcallee' := Inst.eq_of_shape Inst.callee?_shape hshape
  cases hcallee : inst.callee? with
  | none =>
      have hbase := (h.edits.frame hf hstart hle).markable.base hinst'
      obtain ⟨site, hsite, hother⟩ := Site.ofInst_of_not_call (hcallee'.trans hcallee) hbase
      have hnone : ((List.range inst.operands.length).filter
          fun k => inst.annotates ctx k && k ∉ slots) = [] := by
        simp [Inst.annotates_of_callee_none ctx hcallee]
      rw [hnone, List.append_nil]
      refine ⟨s, bind_eq_ok_iff.2 ⟨site, bind_eq_ok_iff.2 ⟨inst', hinst', hsite⟩, ?_⟩, h⟩
      cases site with
      | call callee args => exact absurd rfl (hother callee args)
      | _ => rfl
  | some callee =>
      obtain ⟨args, ret, rfl⟩ := Inst.eq_call_of_callee (hcallee'.trans hcallee)
      obtain ⟨typed, types, htyped, hannotates⟩ := hf.annotated_total hi hinst hcallee s.types
      have hphi : ¬ f.InstIs i (·.isPhi = true) := fun his => by
        have hisPhi := his.of_inst hinst
        cases inst with
        | phi => cases hcallee
        | _ => cases hisPhi
      have hmore : (slots ++ (List.range inst.operands.length).filter
          fun k => inst.annotates ctx k && k ∉ slots).Nodup := by
        refine List.nodup_append.2 ⟨hnodup, List.nodup_range.filter _, ?_⟩
        rintro a ha b hb rfl
        simp [ha] at hb
      obtain ⟨g, hok, hg⟩ := h.wrapOperands hf hi hstart hle hphi hmore fun k hk =>
        (Function.hasSlot_iff hinst).2 (List.mem_range.1 (List.mem_filter.1 hk).1)
      refine ⟨⟨types, g⟩, bind_eq_ok_iff.2
        ⟨.call callee args, bind_eq_ok_iff.2 ⟨_, hinst', rfl⟩, ?_⟩, hg⟩
      show (annotated ctx callee >>= _).exec s = _
      rw [Pass.exec_bind_of_ok (exec_annotated htyped), exec_edit]
      simp only [hannotates]
      have hlen : args.length = inst.operands.length := hcount
      rw [hlen]
      exact bind_eq_ok_iff.2 ⟨_, bind_eq_ok_iff.2 ⟨g, hok, rfl⟩, rfl⟩

/-- The address that an instruction makes is wrapped. -/
theorem markResult_total (h : f.SlotsWrapped start i slots s.func) :
    ∃ t, (markResult i).exec s = .ok (.ok (if inst.makesAddress then 1 else 0), t) ∧
      s.func.MarkedFor start i t.func ∧
      (inst.makesAddress = true → t.func.SoleAt start i) ∧
      t.func.insts.length = s.func.insts.length + if inst.makesAddress then 1 else 0 := by
  have hframe := h.edits.frame hf hstart hle
  obtain ⟨inst', hinst', hshape⟩ :=
    Graph.inst_of_shape_eq (hframe.extension.shape i (Graph.inst_lt hinst)) hinst
  have hmakes := Inst.eq_of_shape Inst.makesAddress_shape hshape
  rw [markResult, Pass.exec_bind_of_ok (Pass.exec_get s), Pass.exec_liftM_bind, hinst']
  cases hcase : inst.makesAddress with
  | false =>
      refine ⟨s, ?_, .refl, fun htrue => (by cases htrue), rfl⟩
      rw [hcase] at hmakes
      cases inst' with
      | gep | alloca => cases hmakes
      | _ => rfl
  | true =>
      rw [hcase] at hmakes
      have hi' : i ∈ s.func.insts :=
        (hframe.extension.mem_insts_iff hf.sound hframe.markable.sound (Graph.inst_lt hinst)).2 hi
      have hle' := Nat.le_trans hle hframe.extension.size_le
      obtain ⟨g, hok, hsole, hlen⟩ :=
        hframe.markable.wrapResult_total hi' hle' ⟨inst', hinst', hmakes⟩
      have hmarked :=
        Function.wrapResult_marked hframe.markable.sound .refl hstart hle' hinst' hmakes hok
      refine ⟨{ s with func := g }, ?_, hmarked, fun _ => hsole, hlen⟩
      have hedit : (edit (·.wrapResult i)).exec s = .ok (.ok 1, { s with func := g }) := by
        rw [exec_edit]
        exact bind_eq_ok_iff.2 ⟨_, hok, rfl⟩
      cases inst' with
      | gep | alloca => exact hedit
      | _ => cases hmakes

end Inst

/-- Marking an instruction makes as many markers as it needs, and settles it. -/
theorem markInst_total (hf : s.func.Markable ctx) (hi : i ∈ s.func.insts) (hstart : i.index < start)
    (hle : start ≤ s.func.graph.insts.size) :
    ∃ t, (markInst ctx i).exec s = .ok (.ok (s.func.siteCount ctx i), t) ∧
      s.func.Frame ctx start i t.func ∧ t.func.Settled ctx start i ∧
      t.func.insts.length = s.func.insts.length + s.func.siteCount ctx i := by
  obtain ⟨b, hb⟩ := hf.sound.mem_insts.1 hi
  obtain ⟨inst, hinst⟩ := hf.sound.exists_inst hb
  have hlt := Graph.inst_lt hinst
  have hbase := hf.base hinst
  obtain ⟨globals, hglobals⟩ : ∃ globals, globals =
    (List.range inst.operands.length).filter (s.func.isGlobalAt i) := ⟨_, rfl⟩
  obtain ⟨wrapped, hwrapped⟩ : ∃ wrapped, wrapped =
    globals ++ inst.pointerSlot?.toList.filter (· ∉ globals) := ⟨_, rfl⟩
  obtain ⟨more, hmore⟩ : ∃ more, more =
    (List.range inst.operands.length).filter fun k => inst.annotates ctx k && k ∉ wrapped :=
    ⟨_, rfl⟩
  obtain ⟨hnodup, hperm⟩ : wrapped.Nodup ∧ (wrapped ++ more).Perm (s.func.siteSlots ctx i inst) :=
    hmore ▸ Function.perm_siteSlots hbase hglobals hwrapped
  -- The four stages of marking an instruction, one after another.
  obtain ⟨g₁, hok₁, hg₁⟩ := hf.wrapGlobals_total hi hstart hle hinst
  rw [← hglobals] at hok₁ hg₁
  obtain ⟨g₂, hok₂, hg₂⟩ := hg₁.wrapPointer_total hf hi hstart hle hinst
  rw [← hwrapped] at hok₂ hg₂
  have hg₂' : s.func.SlotsWrapped start i wrapped { s with func := g₂ : Marking }.func := hg₂
  obtain ⟨s₃, hok₃, hg₃⟩ := markCall_total hf hi hstart hle hinst hg₂' hnodup
  rw [← hmore] at hok₃ hg₃
  obtain ⟨t, hok₄, hmarked, hsole, hlen⟩ := markResult_total hf hi hstart hle hinst hg₃
  have hcount : s.func.siteCount ctx i =
      wrapped.length + more.length + if inst.makesAddress then 1 else 0 := by
    rw [Function.siteCount, hinst, ← List.length_append, hperm.length_eq]
  have hedits : s.func.MarkedFor start i t.func := hg₃.edits.trans hmarked
  have hframe := hedits.frame hf hstart hle
  have hframe₃ := hg₃.edits.frame hf hstart hle
  have hi₃ : i ∈ s₃.func.insts :=
    (hframe₃.extension.mem_insts_iff hf.sound hframe₃.markable.sound hlt).2 hi
  have hframe₄ := hmarked.frame hframe₃.markable hstart
    (Nat.le_trans hle hframe₃.extension.size_le)
  refine ⟨t, ?_, hframe, ?_, ?_⟩
  · have hexec₁ : (edit (·.wrapGlobals i)).exec s = .ok (.ok globals, { s with func := g₁ }) := by
      rw [exec_edit]
      exact bind_eq_ok_iff.2 ⟨_, hok₁, rfl⟩
    have hexec₂ : (edit (·.wrapPointer i globals)).exec { s with func := g₁ } =
        .ok (.ok wrapped, { s with func := g₂ }) := by
      rw [exec_edit]
      exact bind_eq_ok_iff.2 ⟨_, hok₂, rfl⟩
    rw [hcount, markInst, Pass.exec_bind_of_ok hexec₁, Pass.exec_bind_of_ok hexec₂,
      Pass.exec_bind_of_ok hok₃, Pass.exec_bind_of_ok hok₄]
    rfl
  · exact hg₃.settled hf.sound hinst (fun k hk => hperm.mem_iff.2 hk) hbase hframe hframe₄ hsole
  · rw [hlen, hg₃.length, hcount, List.length_append]
    omega

theorem markInst_progress {f₀ : Function} {done : List InstId} {count : Nat} (hf₀ : f₀.Sound)
    (h : Function.Progress ctx f₀ done count s.func) (hdone : ∀ j ∈ done, j ∈ f₀.insts)
    (hi : i ∈ f₀.insts) (hnew : i ∉ done) : ∃ n t, (markInst ctx i).exec s = .ok (.ok n, t) ∧
      Function.Progress ctx f₀ (done ++ [i]) (count + n) t.func := by
  have hlt := hf₀.lt_of_mem_insts hi
  have hi' : i ∈ s.func.insts := (h.extension.mem_insts_iff hf₀ h.markable.sound hlt).2 hi
  obtain ⟨t, hok, hframe, hsettled, hlen⟩ := markInst_total h.markable hi' hlt h.extension.size_le
  refine ⟨_, t, hok, hframe.markable, h.extension.trans hframe.extension, fun j hj => ?_,
    fun j hj hnew' => ?_, ?_, ?_⟩
  · rcases List.mem_append.1 hj with hj | hj
    · have hne : j ≠ i := fun heq => hnew (heq ▸ hj)
      have hj' := hf₀.lt_of_mem_insts (hdone j hj)
      exact hframe.settled (h.settled j hj) hne hj' h.extension.size_le
    · obtain rfl := List.mem_singleton.1 hj
      exact hsettled
  · rw [List.mem_append, List.mem_singleton, not_or] at hnew'
    rw [hframe.siteCount_eq hnew'.2, h.ahead j hj hnew'.1]
    exact Nat.lt_of_lt_of_le (hf₀.lt_of_mem_insts hj) h.extension.size_le
  · rw [h.count_eq, h.ahead i hi hnew]
    simp
  · rw [hlen, h.length]
    omega

/-- Marking a function makes one marker for each site, and settles all instructions it had. -/
theorem markFunction_total (hf : s.func.Markable ctx) :
    ∃ t, (markFunction ctx).exec s = .ok (.ok (s.func.sites ctx), t) ∧
      Function.Progress ctx s.func s.func.insts (s.func.sites ctx) t.func := by
  have hnodup := hf.sound.nodup_insts
  have hstart : Function.Progress ctx s.func [] 0 s.func :=
    ⟨hf, .refl hf.sound, by simp, fun _ _ _ => rfl, rfl, rfl⟩
  have hstep : ∀ done i rest count t, s.func.insts = done ++ i :: rest →
      Function.Progress ctx s.func done count t.func →
      ∃ c u, (do return count + (← markInst ctx i) : Pass Marking Nat).exec t = .ok (.ok c, u) ∧
        Function.Progress ctx s.func (done ++ [i]) c u.func := by
    intro done i rest count t hsplit hprogress
    rw [hsplit] at hnodup
    have hnew : i ∉ done := fun hi => (List.nodup_append.1 hnodup).2.2 i hi i (by simp) rfl
    obtain ⟨n, u, hok, hprogress'⟩ := markInst_progress hf.sound hprogress
      (by simp +contextual [hsplit]) (by simp [hsplit]) hnew
    exact ⟨_, u, by rw [Pass.exec_bind_of_ok hok, Pass.exec_pure], hprogress'⟩
  obtain ⟨count, t, hok, hprogress⟩ := Pass.foldlM_total
    (P := fun done count (t : Marking) => Function.Progress ctx s.func done count t.func)
    hstep hstart
  have hcount : count = s.func.sites ctx := hprogress.count_eq
  rw [hcount] at hok hprogress
  exact ⟨t, hok, hprogress⟩

end Marking

end Pointee
