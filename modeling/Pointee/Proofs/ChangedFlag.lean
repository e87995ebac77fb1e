import Mathlib.Algebra.GroupWithZero.Nat
import Pointee.Proofs.Classification
import Pointee.Proofs.DemotionSteps
import Pointee.Proofs.PatchingSteps

/-!
# The changed flag

Every edit that a pass makes starts with an instruction that it inserts, and passes count those. So
a count of zero means that nothing was edited, and any other count shows in the number of
instructions. `Function.Grown` says this of one function and `Changes` of the functions of a module;
`Module.changed_is_exact` draws the conclusion for both strategies.
-/

namespace Pointee

namespace Function

variable {f f₀ f' : Function} {user i : InstId} {slot n k : Nat} {loc : Location}

/-- `f'` has `n` more instructions than `f`, and is `f` itself if there are none. -/
structure Grown (n : Nat) (f f' : Function) : Prop where
  same : n = 0 → f' = f
  size : f'.graph.insts.size = f.graph.insts.size + n

namespace Grown

theorem refl (f : Function) : Grown 0 f f := ⟨fun _ => rfl, rfl⟩

theorem trans (h : Grown n f₀ f) (h' : Grown k f f') : Grown (n + k) f₀ f' := by
  refine ⟨fun hzero => ?_, ?_⟩
  · rw [h'.same (by omega), h.same (by omega)]
  · rw [h'.size, h.size, Nat.add_assoc]

/-- If an instruction was added, anything else may have changed. -/
theorem one (h : f'.graph.insts.size = f.graph.insts.size + 1) : Grown 1 f f' :=
  ⟨fun hzero => absurd hzero Nat.one_ne_zero, h⟩

end Grown

/-! ## Single edits -/

theorem size_of_insert {inst : Inst} {ins : Insertion} (h : f.insert loc inst = .ok (ins, f')) :
    f'.graph.insts.size = f.graph.insts.size + 1 := by
  obtain ⟨layout, graph, -, hresult, -, rfl⟩ := insert_eq_ok h
  have hadded : (f.graph.addInst inst).2.insts.size = f.graph.insts.size + 1 := by
    simp [Graph.addInst]
  obtain ⟨_, _, -, -, hcases⟩ := Graph.addResult_eq_ok hresult
  rcases hcases with ⟨-, -, rfl⟩ | ⟨_, -, -, rfl⟩
  · exact hadded
  · exact hadded

theorem size_of_setOperand {v : ValueId} (h : f.setOperand i slot v = .ok f') :
    f'.graph.insts.size = f.graph.insts.size := by
  obtain ⟨graph, hgraph, hrest⟩ := bind_eq_ok_iff.1 h
  cases pure_eq_ok_iff.1 hrest
  obtain ⟨-, -, _, -, -, hinsts⟩ := Graph.setOperand_frame hgraph
  rw [hinsts, Array.size_setIfInBounds]

/-! ## Demotion -/

/-- Demoting an operand adds the instruction for it. -/
theorem DemotesMany.grown (h : DemotesMany n f f') : Grown n f f' := by
  induction h with
  | refl => exact .refl _
  | tail _ hone ih =>
      obtain ⟨-, -, -, hins, hset⟩ := hone
      refine ih.trans (.one ?_)
      rw [size_of_setOperand hset, size_of_insert hins]

theorem demote_grown {changed : Bool} (h : f.demote = .ok (changed, f')) :
    ∃ n, changed = decide (0 < n) ∧ Grown n f f' := by
  obtain ⟨⟨n, last⟩, hrounds, h⟩ := bind_eq_ok_iff.1 h
  cases pure_eq_ok_iff.1 h
  exact ⟨n, rfl, (demoteRounds_many hrounds).grown⟩

/-! ## Marking -/

theorem wrapOperand_grown (h : f.wrapOperand user slot = .ok f') : Grown 1 f f' := by
  obtain ⟨_, _, _, _, _, _, hinsert, hset⟩ := wrapOperand_inserts h
  exact .one (by rw [size_of_setOperand hset, size_of_insert hinsert])

theorem WrapsSlots.grown {slots : List Nat} (h : f.WrapsSlots user slots f') :
    Grown slots.length f f' := by
  induction h with
  | refl => exact .refl f
  | wrap _ hwrap ih =>
      rw [List.length_append]
      exact ih.trans (wrapOperand_grown hwrap)

/-- Redirecting adds no instruction. -/
theorem size_of_redirect {old new : ValueId} (h : redirect old new f user = .ok f') :
    f'.graph.insts.size = f.graph.insts.size := by
  refine redirect_invariant (P := fun g => g.graph.insts.size = f.graph.insts.size)
    (fun g g' slot hg _ hset => ?_) rfl h
  rw [size_of_setOperand hset, hg]

theorem wrapResult_grown (h : f.wrapResult i = .ok (n, f')) : Grown n f f' := by
  rcases wrapResult_eq_ok h with ⟨-, rfl, rfl⟩ | ⟨v, ty, ins, mid, w, -, rfl, -, hinsert, -, hloop⟩
  · exact .refl f'
  · refine .one (foldlM_invariant (P := fun g => g.graph.insts.size = f.graph.insts.size + 1)
      (fun g g' user _ hg hstep => ?_) (size_of_insert hinsert) hloop)
    rw [size_of_redirect hstep, hg]

end Function

namespace Marking

variable {ctx : Context} {s t : Marking} {i : InstId} {n : Nat}

theorem markCall_grown {wrapped : List Nat}
    (h : (markCall ctx i wrapped).exec s = .ok (.ok n, t)) : s.func.Grown n t.func := by
  obtain ⟨site, -, ⟨-, hn, hfunc⟩ | ⟨callee, args, -, ⟨⟨e, hrefused⟩, -⟩ |
    ⟨typed, types, slots, -, -, hn, hloop⟩⟩⟩ := markCall_eq_ok h
  · cases hn
    rw [hfunc]
    exact .refl _
  · cases hrefused
  · cases hn
    exact (Function.WrapsSlots.refl.trans hloop).grown

theorem markResult_grown (h : (markResult i).exec s = .ok (.ok n, t)) : s.func.Grown n t.func := by
  obtain ⟨inst, -, ⟨-, hn, hfunc⟩ | ⟨-, _, hn, hwrap⟩⟩ := markResult_eq_ok h
  · cases hn
    rw [hfunc]
    exact .refl _
  · cases hn
    exact Function.wrapResult_grown hwrap

theorem markInst_grown (h : (markInst ctx i).exec s = .ok (.ok n, t)) : s.func.Grown n t.func := by
  obtain ⟨globals, wrapped, _, _, s₁, s₂, s₃, hglobals, hpointer, hcall, hresult, rfl⟩ :=
    markInst_ok h
  have hslots : s.func.Grown wrapped.length s₂.func :=
    ((Function.wrapGlobals_wraps hglobals).wrapPointer hpointer).1.grown
  exact (hslots.trans (markCall_grown hcall)).trans (markResult_grown hresult)

theorem markFunction_grown (h : (markFunction ctx).exec s = .ok (.ok n, t)) :
    s.func.Grown n t.func := by
  rw [markFunction, Pass.exec_bind_of_ok (Pass.exec_get s)] at h
  refine Pass.foldlM_invariant (P := fun _ count u => s.func.Grown count u.func)
    (fun _ i _ count u _ v _ hu hstep => ?_) (.refl s.func) h
  obtain ⟨k, w, hinst, hstep⟩ := Pass.exec_bind_eq_ok.1 hstep
  cases hstep
  exact hu.trans (markInst_grown hinst)

end Marking

/-! ## Patching -/

namespace Patching

variable {config : Config} {id : FuncId} {s t : Patching} {i : InstId}

/-- The sites patched are counted on. -/
def Counts (s t : Patching) : Prop := ∃ n, t.patched = s.patched + n ∧ s.func.Grown n t.func

theorem castPointer_counts {slot : Nat} {ptr : ValueId} {space : AddrSpace}
    (h : s.castPointer config id i slot ptr space = .ok t) : Counts s t := by
  obtain ⟨_, _, mid, _, _, graph, -, hinsert, -, -, hgraph, rfl⟩ := castPointer_eq_ok h
  obtain ⟨-, -, -, hinsts⟩ := Graph.replaceInst_frame hgraph
  refine ⟨1, rfl, .one ?_⟩
  rw [hinsts, Array.size_setIfInBounds, Function.size_of_insert hinsert]

theorem patchInst_counts (h : s.patchInst config id i = .ok t) : Counts s t := by
  obtain ⟨inst, -, ⟨rfl, -⟩ | ⟨slot, ptr, space, -, hcast⟩⟩ := patchInst_eq_ok h
  · exact ⟨0, rfl, .refl _⟩
  · exact castPointer_counts hcast

theorem patchFunction_counts (h : s.patchFunction config id = .ok t) : Counts s t := by
  refine foldlM_invariant (P := Counts s) (fun u v i _ hu hstep => ?_) ⟨0, rfl, .refl _⟩ h
  obtain ⟨n, hn, hgrown⟩ := hu
  obtain ⟨k, hk, hgrown'⟩ := patchInst_counts hstep
  exact ⟨n + k, by omega, hgrown.trans hgrown'⟩

end Patching

/-! ## Modules -/

/-- How many instructions the functions have, placed or not. -/
def instCount (fs : List Function) : Nat := (fs.map fun f => f.graph.insts.size).sum

/-- The flag tells whether the functions changed: either none did, or there are more
instructions. -/
structure Changes (changed : Bool) (fs fs' : List Function) : Prop where
  length : fs'.length = fs.length
  same : changed = false → fs' = fs
  more : changed = true → instCount fs < instCount fs'

namespace Changes

variable {a b : Bool} {fs fs' fs'' : List Function} {f f' : Function} {n k : Nat}

theorem refl (fs : List Function) : Changes false fs fs := ⟨rfl, fun _ => rfl, nofun⟩

theorem trans (h : Changes a fs fs') (h' : Changes b fs' fs'') : Changes (a || b) fs fs'' := by
  refine ⟨h'.length.trans h.length, fun hnone => ?_, fun hsome => ?_⟩
  · rw [Bool.or_eq_false_iff] at hnone
    rw [h'.same hnone.2, h.same hnone.1]
  · cases a with
    | false => exact h.same rfl ▸ h'.more hsome
    | true =>
        cases b with
        | false => exact h'.same rfl ▸ h.more rfl
        | true => exact Nat.lt_trans (h.more rfl) (h'.more rfl)

/-- Counts are added up. -/
theorem add (h : Changes (decide (0 < n)) fs fs') (h' : Changes (decide (0 < k)) fs' fs'') :
    Changes (decide (0 < n + k)) fs fs'' := by
  have hflag : decide (0 < n + k) = (decide (0 < n) || decide (0 < k)) := by
    rw [← Bool.decide_or, decide_eq_decide]
    omega
  exact hflag ▸ h.trans h'

theorem cons (h : f.Grown n f') (hrest : Changes b fs fs') :
    Changes (decide (0 < n) || b) (f :: fs) (f' :: fs') := by
  have hsize := h.size
  refine ⟨congrArg (· + 1) hrest.length, fun hnone => ?_, fun hsome => ?_⟩
  · rw [Bool.or_eq_false_iff, decide_eq_false_iff_not] at hnone
    rw [h.same (by omega), hrest.same hnone.2]
  · simp only [instCount, List.map_cons, List.sum_cons]
    cases b with
    | false =>
        rw [Bool.or_false, decide_eq_true_iff] at hsome
        rw [hrest.same rfl]
        omega
    | true =>
        have hmore : instCount fs < instCount fs' := hrest.more rfl
        unfold instCount at hmore
        omega

/-- One function takes the place of another. -/
theorem set {i : Nat} (hf : fs[i]? = some f) (h : f.Grown n f') :
    Changes (decide (0 < n)) fs (fs.set i f') := by
  induction fs generalizing i with
  | nil => cases hf
  | cons g fs ih =>
      cases i with
      | zero =>
          cases hf
          rw [← Bool.or_false (decide (0 < n))]
          exact cons h (refl fs)
      | succ i => exact cons (.refl g) (ih hf)

theorem mapM_demote {results : List (Bool × Function)} (h : fs.mapM Function.demote = .ok results) :
    Changes (results.any (·.1)) fs (results.map (·.2)) := by
  induction fs generalizing results with
  | nil =>
      cases h
      exact refl []
  | cons f fs ih =>
      rw [List.mapM_cons] at h
      obtain ⟨⟨changed, f'⟩, hdemote, h⟩ := bind_eq_ok_iff.1 h
      obtain ⟨rest, hrest, h⟩ := bind_eq_ok_iff.1 h
      cases pure_eq_ok_iff.1 h
      obtain ⟨n, rfl, hgrown⟩ := Function.demote_grown hdemote
      exact cons hgrown (ih hrest)

end Changes

namespace Module

variable {m m' : Module} {config : Config} {id : FuncId} {f f' : Function} {n k : Nat}

theorem changes_setFunc (hf : m.func id = .ok f) (h : f.Grown n f') :
    Changes (decide (0 < n)) m.funcs.toList (m.setFunc id f').funcs.toList := by
  rw [setFunc, Array.toList_setIfInBounds]
  exact .set (Array.getElem?_toList ▸ func_eq_ok.1 hf) h

theorem demotePass_changes {changed : Bool} (h : demotePass.exec m = .ok (.ok changed, m')) :
    Changes changed m.funcs.toList m'.funcs.toList := by
  obtain ⟨⟨demoted, flat⟩, hdemote, h⟩ := bind_eq_ok_iff.1
    ((Pass.exec_liftM_bind m.demote _ m).symm.trans h)
  cases h
  obtain ⟨results, hresults, h⟩ := bind_eq_ok_iff.1 hdemote
  cases pure_eq_ok_iff.1 h
  exact .mapM_demote hresults

theorem markFunction_changes (h : (markFunction id).exec m = .ok (.ok n, m')) :
    Changes (decide (0 < n)) m.funcs.toList m'.funcs.toList := by
  obtain ⟨f, hf, h⟩ := bind_eq_ok_iff.1 h
  obtain ⟨⟨r, t⟩, hrun, h⟩ := bind_eq_ok_iff.1 h
  cases pure_eq_ok_iff.1 h
  exact changes_setFunc hf (Marking.markFunction_grown hrun)

theorem mark_changes {changed : Bool} (h : mark.exec m = .ok (.ok changed, m')) :
    Changes changed m.funcs.toList m'.funcs.toList := by
  rw [mark, Pass.exec_bind_of_ok (Pass.exec_get m)] at h
  obtain ⟨count, last, hloop, h⟩ := Pass.exec_bind_eq_ok.1 h
  cases h
  have hstart : Changes (decide (0 < 0)) m.funcs.toList m.funcs.toList := .refl _
  refine Pass.foldlM_invariant
    (P := fun _ count t => Changes (decide (0 < count)) m.funcs.toList t.funcs.toList)
    (fun _ id _ count t _ u _ ht hstep => ?_) hstart hloop
  obtain ⟨n, v, hmark, hstep⟩ := Pass.exec_bind_eq_ok.1 hstep
  cases hstep
  exact ht.add (markFunction_changes hmark)

/-- Patching one function after the other finds each of them as it was. -/
theorem foldlM_patchFunction_changes {fs : List (FuncId × Function)} {map map' : PtrMap}
    (hnodup : (fs.map (·.1)).Nodup) (hfuncs : ∀ p ∈ fs, m.func p.1 = .ok p.2)
    (h : fs.foldlM (patchFunction config) (map, n, m) = .ok (map', k, m')) :
    ∃ j, k = n + j ∧ Changes (decide (0 < j)) m.funcs.toList m'.funcs.toList := by
  induction fs generalizing map n m with
  | nil =>
      cases pure_eq_ok_iff.1 h
      exact ⟨0, rfl, .refl _⟩
  | cons p fs ih =>
      obtain ⟨id, f⟩ := p
      rw [List.map_cons, List.nodup_cons] at hnodup
      rw [List.forall_mem_cons] at hfuncs
      rw [List.foldlM_cons] at h
      obtain ⟨⟨map₁, n₁, m₁⟩, hstep, h⟩ := bind_eq_ok_iff.1 h
      obtain ⟨s, hpatch, hstep⟩ := bind_eq_ok_iff.1 hstep
      cases pure_eq_ok_iff.1 hstep
      obtain ⟨i, hi, hgrown⟩ := Patching.patchFunction_counts hpatch
      have hlt := (Array.getElem?_eq_some_iff.1 (func_eq_ok.1 hfuncs.1)).1
      have hrest : ∀ p ∈ fs, (m.setFunc id s.func).func p.1 = .ok p.2 := by
        intro p hp
        rw [func_setFunc hlt, if_neg]
        · exact hfuncs.2 p hp
        · intro heq
          exact hnodup.1 (List.mem_map.2 ⟨p, hp, heq⟩)
      obtain ⟨j, hj, hchanges⟩ := ih hnodup.2 hrest h
      have hi : s.patched = n + i := hi
      exact ⟨i + j, by omega, (changes_setFunc hfuncs.1 hgrown).add hchanges⟩

theorem patchPass_changes {map map' : PtrMap} {changed : Bool}
    (h : (patchPass config map).exec m = .ok (.ok (changed, map'), m')) :
    Changes changed m.funcs.toList m'.funcs.toList := by
  obtain ⟨⟨patched, map₁, m₁⟩, hpatch, h⟩ := bind_eq_ok_iff.1
    ((Pass.exec_liftM_bind (m.patch config map) _ m).symm.trans h)
  cases h
  obtain ⟨⟨map₁, n, m₁⟩, hloop, h⟩ := bind_eq_ok_iff.1 hpatch
  cases pure_eq_ok_iff.1 h
  have hnodup : (m.funcList.map (·.1)).Nodup := map_fst_funcList m ▸ m.nodup_funcIds
  obtain ⟨j, hj, hchanges⟩ :=
    foldlM_patchFunction_changes hnodup (fun p hp => mem_funcList.1 hp) hloop
  rw [Nat.zero_add] at hj
  exact hj ▸ hchanges

/-- Reading a module leaves its functions as they are. -/
theorem reading_changes {α : Type} {pass : Module → Pass TypeStore α} {r : Except Refusal α}
    (h : (reading pass).exec m = .ok (r, m')) :
    Changes false m.funcs.toList m'.funcs.toList := by
  obtain ⟨types, -, rfl⟩ := exec_reading_eq_ok h
  exact .refl _

theorem retypeEagerly_changes {out : Retyped}
    (h : (retypeEagerly config).exec m = .ok (.ok out, m')) :
    Changes out.changed m.funcs.toList m'.funcs.toList := by
  obtain ⟨demoted, flat, hdemote, h⟩ := Pass.exec_bind_eq_ok.1 h
  obtain ⟨marked, wrapped, hmark, h⟩ := Pass.exec_bind_eq_ok.1 h
  have hbefore := (demotePass_changes hdemote).trans (mark_changes hmark)
  have hextract : ∀ checked : Module,
      Changes (demoted || marked) m.funcs.toList checked.funcs.toList →
      (do
        let map ← extractPass config
        return (⟨map, demoted || marked⟩ : Retyped)).exec checked = .ok (.ok out, m') →
      Changes out.changed m.funcs.toList m'.funcs.toList := by
    intro checked hchecked h
    obtain ⟨map, last, hextract, h⟩ := Pass.exec_bind_eq_ok.1 h
    cases h
    exact Bool.or_false (demoted || marked) ▸ hchecked.trans (reading_changes hextract)
  split at h
  · obtain ⟨_, checked, hcheck, h⟩ := Pass.exec_bind_eq_ok.1 h
    exact hextract checked (Bool.or_false (demoted || marked) ▸
      hbefore.trans (reading_changes hcheck)) h
  · exact hextract wrapped hbefore h

theorem retypeAnalytically_changes {out : Retyped}
    (h : (retypeAnalytically config).exec m = .ok (.ok out, m')) :
    Changes out.changed m.funcs.toList m'.funcs.toList := by
  obtain ⟨demoted, flat, hdemote, h⟩ := Pass.exec_bind_eq_ok.1 h
  obtain ⟨map, inferred, hinfer, h⟩ := Pass.exec_bind_eq_ok.1 h
  obtain ⟨⟨patched, map'⟩, last, hpatch, h⟩ := Pass.exec_bind_eq_ok.1 h
  cases h
  have hbefore := (demotePass_changes hdemote).trans (reading_changes hinfer)
  rw [Bool.or_false] at hbefore
  exact hbefore.trans (patchPass_changes hpatch)

theorem retype_changes {out : Retyped} (h : (retype config).exec m = .ok (.ok out, m')) :
    Changes out.changed m.funcs.toList m'.funcs.toList := by
  rw [retype, Pass.exec_bind_of_ok (Pass.exec_get m)] at h
  split at h
  · split at h
    · exact retypeEagerly_changes h
    · exact retypeAnalytically_changes h
  · cases h
    exact .refl _

end Module

/-- The layout, the instructions, the values and the users of values are the same. -/
structure Function.Untouched (f f' : Function) : Prop where
  layout : f'.layout = f.layout
  insts : f'.graph.insts = f.graph.insts
  values : f'.graph.values = f.graph.values
  users : f'.graph.users = f.graph.users

/-- If no function was touched, there are as many instructions as before. -/
theorem instCount_of_untouched {fs fs' : List Function} (hlength : fs'.length = fs.length)
    (h : ∀ (i : Nat) (f : Function), fs[i]? = some f → ∃ f', fs'[i]? = some f' ∧ f.Untouched f') :
    instCount fs' = instCount fs := by
  unfold instCount
  congr 1
  refine List.ext_getElem? fun i => ?_
  rw [List.getElem?_map, List.getElem?_map]
  cases hf : fs[i]? with
  | none =>
      rw [List.getElem?_eq_none_iff] at hf
      rw [List.getElem?_eq_none (by omega)]
  | some f =>
      obtain ⟨f', hf', huntouched⟩ := h i f hf
      rw [hf', Option.map_some, Option.map_some, huntouched.insts]

/-- Where retyping succeeds, by either strategy or by the one of the configuration, it tells exactly
whether it touched a function. -/
theorem Module.changed_is_exact {config : Config} {m m' : Module} {out : Retyped}
    (h : (retypeEagerly config).exec m = .ok (.ok out, m') ∨
      (retypeAnalytically config).exec m = .ok (.ok out, m') ∨
      (retype config).exec m = .ok (.ok out, m')) :
    out.changed = false ↔
      ∀ id f, m.func id = .ok f → ∃ f', m'.func id = .ok f' ∧ f.Untouched f' := by
  have hchanges : Changes out.changed m.funcs.toList m'.funcs.toList := by
    rcases h with h | h | h
    · exact retypeEagerly_changes h
    · exact retypeAnalytically_changes h
    · exact retype_changes h
  constructor
  · intro hnone id f hf
    have hfuncs : m'.funcs = m.funcs := Array.toList_inj.1 (hchanges.same hnone)
    exact ⟨f, by rw [func_eq_ok, hfuncs, ← func_eq_ok, hf], rfl, rfl, rfl, rfl⟩
  · intro huntouched
    by_contra hchanged
    have hmore := hchanges.more (by simpa using hchanged)
    have hequal : instCount m'.funcs.toList = instCount m.funcs.toList := by
      refine instCount_of_untouched hchanges.length fun i f hf => ?_
      rw [Array.getElem?_toList] at hf
      obtain ⟨f', hf', h⟩ := huntouched ⟨i⟩ f (func_eq_ok.2 hf)
      exact ⟨f', Array.getElem?_toList.trans (func_eq_ok.1 hf'), h⟩
    omega

namespace Module

/-- A function that reads through its argument. The eager strategy marks the argument, and the
analytical one has nothing to patch. -/
def readsThroughArgument : Except Fault Module :=
  ofInsts ⟨.air64, .bitcode, .v7⟩ ⟨"f", .exported, [.genericPtr], .i32, none⟩
    [.load ⟨0⟩ .i32, .ret (some ⟨1⟩)]

theorem changed_is_exact_readsThroughArgument : ∃ m eager m₁ analytical m₂,
    readsThroughArgument = .ok m ∧
    (retypeEagerly (.ofStrategy .eager)).exec m = .ok (.ok eager, m₁) ∧
    (retypeAnalytically (.ofStrategy .analytical)).exec m = .ok (.ok analytical, m₂) ∧
    (¬ ∀ id f, m.func id = .ok f → ∃ f', m₁.func id = .ok f' ∧ f.Untouched f') ∧
    ∀ id f, m.func id = .ok f → ∃ f', m₂.func id = .ok f' ∧ f.Untouched f' := by
  have hrun : succeeds readsThroughArgument (fun m =>
      succeeds ((retypeEagerly (.ofStrategy .eager)).exec m) fun eager =>
      succeeds ((retypeAnalytically (.ofStrategy .analytical)).exec m) fun analytical =>
        eager.1.toOption.any (·.changed = true) &&
          analytical.1.toOption.any (·.changed = false)) = true := by
    decide +kernel
  obtain ⟨m, hm, hrun⟩ := exists_of_succeeds hrun
  obtain ⟨⟨r₁, m₁⟩, heager, hrun⟩ := exists_of_succeeds hrun
  obtain ⟨⟨r₂, m₂⟩, hanalytical, hrun⟩ := exists_of_succeeds hrun
  simp only [Bool.and_eq_true, decide_eq_true_eq, Option.any_eq_true] at hrun
  obtain ⟨⟨eager, hr₁, hchanged⟩, analytical, hr₂, hunchanged⟩ := hrun
  obtain rfl : r₁ = .ok eager := by cases r₁ <;> cases hr₁; rfl
  obtain rfl : r₂ = .ok analytical := by cases r₂ <;> cases hr₂; rfl
  refine ⟨m, eager, m₁, analytical, m₂, hm, heager, hanalytical, fun huntouched => ?_, ?_⟩
  · rw [(changed_is_exact (.inl heager)).2 huntouched] at hchanged
    cases hchanged
  · exact (changed_is_exact (.inr (.inl hanalytical))).1 hunchanged

end Module

end Pointee
