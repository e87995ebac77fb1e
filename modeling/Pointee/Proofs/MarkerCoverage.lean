import Pointee.Coverage
import Pointee.Proofs.DemotionRounds
import Pointee.Proofs.MarkingSites

/-!
# Marker coverage

Demotion and then marking, once or again and again, leave a module that the coverage check accepts.
`Function.checkInst_total` says that the check accepts an instruction that marking has settled, if
the instructions made on the way are markers. `Module.mark_total` says this of a whole run of
marking, and counts the markers it makes. Demotion gives what marking relies on, by
`Function.Complete.demote`.
-/

namespace Pointee

namespace Function

variable {f f' f₀ : Function} {ctx : Context} {start : Nat} {i : InstId} {inst : Inst}

/-! ## The coverage check -/

/-- The instructions made from `start` on are markers with a value. -/
def MarkersFrom (f : Function) (start : Nat) : Prop :=
  ∀ m, start ≤ m.index → m.index < f.graph.insts.size →
    f.graph.isMarker m = .ok true ∧ ∃ v, f.graph.result? m = some v

theorem Erasable.markersFrom (h : f₀.Erasable f) : f.MarkersFrom f₀.graph.insts.size := by
  intro m hle hlt
  obtain ⟨arg, ty, v, hinst, hty, hresult, -⟩ := h.marker m hle hlt
  refine ⟨bind_eq_ok_iff.2 ⟨_, hinst, bind_eq_ok_iff.2 ⟨ty, hty, ?_⟩⟩, v, hresult⟩
  rw [decide_eq_true rfl]
  rfl

section Check

variable (hf : f.Markable ctx) (hmarkers : f.MarkersFrom start)
  (hinst : f.graph.inst i = .ok inst)

include hf in
theorem Markable.isMarker_total (hinst : f.graph.inst i = .ok inst) :
    ∃ b, f.graph.isMarker i = .ok b := by
  cases inst with
  | cast op arg ty =>
      have hop : f.graph.operand i 0 = .ok arg := Graph.operand_eq_ok.2 ⟨_, hinst, rfl⟩
      obtain ⟨val, hval⟩ := (hf.closed i 0 arg hop).exists_value
      have hty := Graph.typeOf_eq_ok.2 ⟨val, hval, rfl⟩
      cases op with
      | bitcast => exact ⟨_, bind_eq_ok_iff.2 ⟨_, hinst, bind_eq_ok_iff.2 ⟨_, hty, rfl⟩⟩⟩
      | _ => exact ⟨false, bind_eq_ok_iff.2 ⟨_, hinst, rfl⟩⟩
  | _ => exact ⟨false, bind_eq_ok_iff.2 ⟨_, hinst, rfl⟩⟩

include hf hmarkers in
theorem WrappedAt.marked {slot : Nat} {v : ValueId} (h : f.WrappedAt start i slot)
    (hv : f.graph.operand i slot = .ok v) : ∃ w, f.graph.markedOperand v = .ok (some w) := by
  obtain ⟨v', m, ty, hv', hval, hle⟩ := h
  cases hv.symm.trans hv'
  obtain ⟨hmarker, -⟩ := hmarkers m hle (hf.sound.graph.defined_lt v m ty hval)
  -- A marker is a cast, so it has an operand.
  obtain ⟨inst, hinst, hrest⟩ := bind_eq_ok_iff.1 hmarker
  split at hrest
  · next arg castTy =>
      refine ⟨arg, bind_eq_ok_iff.2 ⟨_, hval, bind_eq_ok_iff.2 ⟨true, hmarker, ?_⟩⟩⟩
      exact map_eq_ok_iff.2 ⟨arg, Graph.operand_eq_ok.2 ⟨_, hinst, rfl⟩, rfl⟩
  · cases hrest

include hf hinst in
theorem Settled.usesGlobal (h : f.Settled ctx start i) : f.usesGlobal i = .ok false := by
  refine bind_eq_ok_iff.2 ⟨inst, hinst, anyM_eq_false fun v hv => ?_⟩
  obtain ⟨slot, hslot⟩ := List.getElem?_of_mem hv
  have hop := Graph.operand_eq_ok.2 ⟨inst, hinst, hslot⟩
  obtain ⟨val, hval⟩ := (hf.closed i slot v hop).exists_value
  refine bind_eq_ok_iff.2 ⟨val, hval, ?_⟩
  cases val with
  | global g ty => exact absurd ⟨v, g, ty, hop, hval⟩ (h.global slot)
  | _ => rfl

include hf hmarkers hinst in
theorem Settled.pointerUnmarked (h : f.Settled ctx start i) : f.pointerUnmarked i = .ok false := by
  refine bind_eq_ok_iff.2 ⟨inst, hinst, ?_⟩
  cases hslot : inst.pointerSlot? with
  | none => rfl
  | some slot =>
      have hwrapped := h.pointer slot ⟨inst, hinst, hslot⟩
      obtain ⟨v, -, -, hv, -⟩ := id hwrapped
      obtain ⟨w, hw⟩ := hwrapped.marked hf hmarkers hv
      exact bind_eq_ok_iff.2 ⟨v, hv, bind_eq_ok_iff.2 ⟨_, hw, rfl⟩⟩

include hf hmarkers hinst in
theorem Settled.argumentUnmarked (h : f.Settled ctx start i) {typed : TypedSignature}
    (htyped : ∀ k, (typed.arg? k).isSome = inst.annotates ctx k) :
    f.argumentUnmarked typed inst.operands = .ok false := by
  refine anyM_eq_false fun ⟨v, slot⟩ hmem => ?_
  rw [List.mem_zipIdx_iff_getElem?] at hmem
  have hop := Graph.operand_eq_ok.2 ⟨inst, hinst, hmem⟩
  show (if (typed.arg? slot).isSome = true then _ else _) = _
  rw [htyped]
  split
  · next hannotates =>
      obtain ⟨w, hw⟩ := (h.argument slot ⟨v, hop⟩ ⟨inst, hinst, hannotates⟩).marked hf hmarkers hop
      exact bind_eq_ok_iff.2 ⟨_, hw, rfl⟩
  · rfl

include hf hmarkers in
theorem SoleAt.soleMarker (h : f.SoleAt start i) : ∃ v, f.graph.soleMarker i = .ok (some v) := by
  obtain ⟨v, m, hresult, hle, hsole⟩ := h
  have husers : ∀ k, k ∈ f.graph.usersOf v ↔ k ∈ [m] := by
    intro k
    rw [hf.sound.graph.mem_usersOf, List.mem_singleton]
    simp [hsole]
  have hnodup : (f.graph.usersOf v).Nodup :=
    (hf.sound.graph.users_sorted v).imp fun hlt heq => absurd (heq ▸ hlt) (Nat.lt_irrefl _)
  have hsingle : f.graph.usersOf v = [m] :=
    List.perm_singleton.1 ((List.perm_ext_iff_of_nodup hnodup (List.nodup_singleton m)).2 husers)
  have hlt : m.index < f.graph.insts.size := by
    obtain ⟨inst, hinst, -⟩ := Graph.operand_eq_ok.1 ((hsole m 0).2 ⟨rfl, rfl⟩)
    exact Graph.inst_lt hinst
  obtain ⟨hmarker, w, hw⟩ := hmarkers m hle hlt
  refine ⟨w, ?_⟩
  simp only [Graph.soleMarker, hresult, hsingle]
  refine bind_eq_ok_iff.2 ⟨true, hmarker, ?_⟩
  rw [hw]
  rfl

include hf hmarkers hinst in
theorem Settled.resultUnmarked (h : f.Settled ctx start i) : f.resultUnmarked i = .ok false := by
  refine bind_eq_ok_iff.2 ⟨inst, hinst, ?_⟩
  have hsole : inst.makesAddress = true →
      (do return (← f.graph.soleMarker i).isNone : Except Fault Bool) = .ok false := by
    intro hmakes
    obtain ⟨v, hv⟩ := (h.result ⟨inst, hinst, hmakes⟩).soleMarker hf hmarkers
    exact bind_eq_ok_iff.2 ⟨_, hv, rfl⟩
  cases inst with
  | gep | alloca => exact hsole rfl
  | _ => rfl

/-- The check accepts a marker. -/
theorem checkInst_of_marker (h : f.graph.isMarker i = .ok true) (id : FuncId) (types : TypeStore) :
    (f.checkInst ctx id i).exec types = .ok (.ok (), types) := by
  unfold checkInst
  rw [Pass.exec_liftM_bind, h]
  rfl

include hf hmarkers in
/-- The check accepts an instruction that is settled, if the instructions made on the way are
markers. -/
theorem checkInst_total (hi : i ∈ f.insts) (h : f.Settled ctx start i) (id : FuncId)
    (types : TypeStore) : ∃ types', (f.checkInst ctx id i).exec types = .ok (.ok (), types') := by
  obtain ⟨inst, hinst⟩ := Graph.exists_inst (hf.sound.lt_of_mem_insts hi)
  obtain ⟨marker, hmarker⟩ := hf.isMarker_total hinst
  cases marker with
  | true => exact ⟨types, checkInst_of_marker hmarker id types⟩
  | false =>
      unfold checkInst
      rw [Pass.exec_if_of_false hmarker, Pass.exec_if_of_false (h.usesGlobal hf hinst),
        Pass.exec_if_of_false (h.pointerUnmarked hf hmarkers hinst), Pass.exec_liftM_bind]
      have hresult := h.resultUnmarked hf hmarkers hinst
      cases hcallee : inst.callee? with
      | none =>
          obtain ⟨site, hsite, hother⟩ := Site.ofInst_of_not_call hcallee (hf.base hinst)
          refine ⟨types, bind_eq_ok_iff.2 ⟨site, bind_eq_ok_iff.2 ⟨inst, hinst, hsite⟩, ?_⟩⟩
          cases site with
          | call callee args => exact absurd rfl (hother callee args)
          | _ => exact Pass.exec_if_of_false hresult _ _ types
      | some callee =>
          obtain ⟨typed, types', htyped, hslots⟩ := hf.annotated_total hi hinst hcallee types
          obtain ⟨args, ret, rfl⟩ := Inst.eq_call_of_callee hcallee
          have hargs : f.argumentUnmarked typed args = .ok false :=
            h.argumentUnmarked hf hmarkers hinst hslots
          refine ⟨types', bind_eq_ok_iff.2 ⟨_, bind_eq_ok_iff.2 ⟨_, hinst, rfl⟩, ?_⟩⟩
          show (TypedSignature.annotated ctx callee >>= _).exec types = _
          rw [Pass.exec_bind_of_ok htyped, Pass.exec_if_of_false hargs,
            Pass.exec_if_of_false hresult]
          rfl

end Check

/-! ## Functions with all markers -/

/-- The instructions made from `start` on are markers, and the others are marked. -/
structure Covered (ctx : Context) (start : Nat) (f : Function) : Prop where
  markable : f.Markable ctx
  markers : f.MarkersFrom start
  settled : ∀ i ∈ f.insts, i.index < start → f.Settled ctx start i

/-- The check accepts a function with all markers. -/
theorem Covered.check_total (h : f.Covered ctx start) (id : FuncId) (types : TypeStore) :
    ∃ types', (f.insts.forM (f.checkInst ctx id)).exec types = .ok (.ok ⟨⟩, types') := by
  refine Pass.forM_total (fun i hi types => ?_) types
  by_cases hlt : i.index < start
  · exact checkInst_total h.markable h.markers hi (h.settled i hi hlt) id types
  · obtain ⟨hmarker, -⟩ := h.markers i (Nat.not_lt.1 hlt) (h.markable.sound.lt_of_mem_insts hi)
    exact ⟨types, checkInst_of_marker hmarker id types⟩

/-- `f'` is `f` with a marker made for each of its sites. -/
structure FullyMarked (ctx : Context) (f f' : Function) : Prop where
  progress : Progress ctx f f.insts (f.sites ctx) f'
  markers : f'.MarkersFrom f.graph.insts.size

theorem FullyMarked.covered (h : FullyMarked ctx f f') (hf : f.Sound) :
    f'.Covered ctx f.graph.insts.size := by
  refine ⟨h.progress.markable, h.markers, fun i hi hlt => h.progress.settled i ?_⟩
  exact (h.progress.extension.mem_insts_iff hf h.progress.markable.sound hlt).1 hi

/-! Nothing of this depends on the types that the module has. -/

section Types

variable (types : TypeStore)

theorem Complete.withTypes (h : f.Complete ctx) : f.Complete { ctx with types } := by
  refine ⟨h.closed, h.phis, h.based, h.defined, fun i hi callee his => ?_⟩
  obtain ⟨sig, hsig, hwell⟩ := h.callees i hi callee his
  exact ⟨sig, hsig, hwell.ret, hwell.args, hwell.declared⟩

theorem Markable.withTypes (h : f.Markable ctx) : f.Markable { ctx with types } :=
  ⟨h.toComplete.withTypes types, h.written, h.flat⟩

theorem Settled.withTypes (h : f.Settled ctx start i) : f.Settled { ctx with types } start i := by
  obtain ⟨hglobal, hpointer, hargument, hresult⟩ := h
  exact ⟨hglobal, hpointer, hargument, hresult⟩

theorem Covered.withTypes (h : f.Covered ctx start) : f.Covered { ctx with types } start :=
  ⟨h.markable.withTypes types, h.markers, fun i hi hlt => (h.settled i hi hlt).withTypes types⟩

theorem FullyMarked.withTypes (h : FullyMarked ctx f f') : FullyMarked { ctx with types } f f' := by
  have hp := h.progress
  exact ⟨⟨hp.markable.withTypes types, hp.extension, fun i hi => (hp.settled i hi).withTypes types,
    hp.ahead, hp.count_eq, hp.length⟩, h.markers⟩

end Types

/-! ## Demotion -/

/-- Demoting a constant expression leaves nothing missing. -/
theorem DemoteStep.complete (hstep : f.DemoteStep f') (h : f.Complete ctx)
    (hparts : f.graph.PartsExist) (hwritten : f.Written) :
    f'.Complete ctx ∧ f'.graph.PartsExist ∧ f'.Written := by
  obtain @⟨user, slot, v, e, ty, hval, hinter⟩ := hstep
  have hf := hwritten.toSound
  have hext := hinter.extends hf
  have hbase : e.toInst.lacksBase = false := by
    have hty := hf.graph.expr_type v e ty hval
    cases e with
    | gep source result args =>
        cases args with
        | nil => cases hty
        | cons => rfl
    | cast => rfl
  refine ⟨⟨?_, ?_, fun i his => ?_, fun i hi his => ?_, fun i hi callee his => ?_⟩,
    fun v w hpart => ?_, hinter.written hwritten⟩
  · refine hinter.closed h.closed fun w hw => hparts v w ⟨e, ty, hval, ?_⟩
    rwa [ConstExpr.operands_toInst] at hw
  · exact hinter.phisPlaced (by cases e <;> rfl) h.phis
  · rw [hinter.instIs_iff (Inst.ofShape_eq Inst.lacksBase_shape true) (by simp [hbase])] at his
    exact h.based i his
  · rw [hinter.result?_eq]
    split
    · exact ⟨_, rfl⟩
    · next hne =>
        have hi' := ((hinter.mem_insts hf).1 hi).resolve_right hne
        rw [hext.instIs_iff (Inst.ofShape_eq Inst.makesAddress_shape true)
          (hf.lt_of_mem_insts hi')] at his
        exact h.defined i hi' his
  · have hnone : ¬ e.toInst.callee? = some callee := by
      cases e <;> simp [ConstExpr.toInst, Inst.callee?]
    rw [hinter.instIs_iff (Inst.ofShape_eq Inst.callee?_shape (some callee)) hnone] at his
    obtain ⟨inst, hinst, -⟩ := id his
    exact h.callees i ((hext.mem_insts_iff hf hinter.sound (Graph.inst_lt hinst)).1 hi) callee his
  · exact hext.keeps.has (hparts v w (hinter.part_iff.1 hpart))

/-- Demotion gives what marking relies on. -/
theorem Complete.demote (h : f.Complete ctx) (hf : f.Written) (hparts : f.graph.PartsExist)
    (hacyclic : f.graph.Acyclic) :
    ∃ changed f', f.demote = .ok (changed, f') ∧ f'.Markable ctx := by
  obtain ⟨changed, f', hok, hflat⟩ := hf.demote_flat h.closed hparts h.phis hacyclic
  obtain ⟨-, -, hcomplete, -, hwritten⟩ := (hf.demote_demoted hok).invariant
    (P := fun g => g.Complete ctx ∧ g.graph.PartsExist ∧ g.Written) hf.toSound ⟨h, hparts, hf⟩
    fun _ _ _ _ hP hstep => hstep.complete hP.1 hP.2.1 hP.2.2
  refine ⟨changed, f', hok, hcomplete, hwritten, fun i slot v e ty hv => ?_⟩
  obtain ⟨inst, hinst, -⟩ := Graph.operand_eq_ok.1 hv
  exact hflat i (hwritten.filled i (Graph.inst_lt hinst)) slot v e ty hv

end Function

/-! ## Modules -/

namespace Module

variable {m m' : Module} {id : FuncId} {f : Function} {k count : Nat}

/-- How many markers the instructions of a module need. -/
def sites (m : Module) : Nat := (m.funcs.toList.map (·.sites m.ctx)).sum

/-- Every function of the module can be marked. -/
def Markable (m : Module) : Prop := ∀ id f, m.func id = .ok f → f.Markable m.ctx

/-- `m'` is `m` with all markers in its first `k` functions, which are `count` markers. -/
structure MarkedUpTo (m : Module) (k count : Nat) (m' : Module) : Prop where
  types : ∃ types, m'.ctx = { m.ctx with types }
  size : m'.funcs.size = m.funcs.size
  done : ∀ id f, m.func id = .ok f → id.index < k →
    ∃ f', m'.func id = .ok f' ∧ f.FullyMarked m.ctx f'
  ahead : ∀ id, k ≤ id.index → m'.func id = m.func id
  count_eq : count = ((m.funcs.toList.take k).map (·.sites m.ctx)).sum

theorem markFunction_total (hfunc : m.func id = .ok f) (hf : f.Markable m.ctx) :
    ∃ types f', (markFunction id).exec m =
        .ok (.ok (f.sites m.ctx), (m.setTypes types).setFunc id f') ∧ f.FullyMarked m.ctx f' := by
  have hf' : (⟨m.ctx.types, f⟩ : Marking).func.Markable m.ctx := hf
  obtain ⟨t, hok, hprogress⟩ := Marking.markFunction_total hf'
  have herasable := (Marking.markFunction_marked hf.sound hok).erasable hf.sound
  refine ⟨t.types, t.func, ?_, hprogress, herasable.markersFrom⟩
  exact bind_eq_ok_iff.2 ⟨f, hfunc, bind_eq_ok_iff.2 ⟨_, hok, rfl⟩⟩

theorem MarkedUpTo.step (h : m.MarkedUpTo k count m') (hm : m.Markable)
    (hfunc : m.func ⟨k⟩ = .ok f) :
    ∃ n m'', (markFunction ⟨k⟩).exec m' = .ok (.ok n, m'') ∧
      m.MarkedUpTo (k + 1) (count + n) m'' := by
  obtain ⟨types, hctx⟩ := h.types
  have hfunc' : m'.func ⟨k⟩ = .ok f := (h.ahead ⟨k⟩ (Nat.le_refl k)).trans hfunc
  have hf : f.Markable m'.ctx := hctx ▸ (hm ⟨k⟩ f hfunc).withTypes types
  obtain ⟨types', f', hok, hmarked⟩ := markFunction_total hfunc' hf
  have hlt : k < m.funcs.size := (Array.getElem?_eq_some_iff.1 (func_eq_ok.1 hfunc)).1
  have hlt' : (⟨k⟩ : FuncId).index < (m'.setTypes types').funcs.size := by
    rw [← h.size] at hlt
    exact hlt
  have hput : ∀ id, ((m'.setTypes types').setFunc ⟨k⟩ f').func id =
      if id = ⟨k⟩ then .ok f' else m'.func id := func_setFunc hlt'
  refine ⟨_, _, hok, ⟨types', ?_⟩, ?_, fun id g hg hid => ?_, fun id hid => ?_, ?_⟩
  · show { m'.ctx with types := types' } = _
    rw [hctx]
  · exact (Array.size_setIfInBounds ..).trans h.size
  · rw [hput]
    by_cases heq : id = ⟨k⟩
    · subst heq
      cases hfunc.symm.trans hg
      rw [hctx] at hmarked
      exact ⟨f', if_pos rfl, hmarked.withTypes m.ctx.types⟩
    · rw [if_neg heq]
      have hne : id.index ≠ k := fun hk => heq (FuncId.ext hk)
      exact h.done id g hg (by omega)
  · have hne : id ≠ ⟨k⟩ := fun heq => by
      rw [heq] at hid
      exact absurd hid (Nat.not_succ_le_self k)
    rw [hput, if_neg hne]
    exact h.ahead id (Nat.le_of_succ_le hid)
  · have hget : m.funcs.toList[k]? = some f := by
      rw [Array.getElem?_toList]
      exact func_eq_ok.1 hfunc
    rw [List.take_add_one, hget, List.map_append, List.sum_append, ← h.count_eq, hctx,
      Option.toList_some, List.map_singleton, List.sum_singleton]
    rfl

/-- Marking a module makes one marker for each site. -/
theorem mark_total (hm : m.Markable) : ∃ m', mark.exec m = .ok (.ok (decide (0 < m.sites)), m') ∧
    m.MarkedUpTo m.funcs.size m.sites m' := by
  have hstart : m.MarkedUpTo 0 0 m :=
    ⟨⟨m.ctx.types, rfl⟩, rfl, fun id f _ hid => absurd hid (Nat.not_lt_zero _), fun _ _ => rfl, rfl⟩
  have hlength : m.funcIds.length = m.funcs.size := by
    rw [funcIds, List.length_map, List.length_range]
  have hstep : ∀ done id rest count m', m.funcIds = done ++ id :: rest →
      m.MarkedUpTo done.length count m' →
      ∃ c m'', (do return count + (← markFunction id) : Pass Module Nat).exec m' =
        .ok (.ok c, m'') ∧ m.MarkedUpTo (done ++ [id]).length c m'' := by
    intro done id rest count m' hsplit hdone
    have hget : m.funcIds[done.length]? = some id := by simp [hsplit]
    -- The ids count up, so the next function is the one behind those that are done.
    obtain ⟨hlt, rfl⟩ : done.length < m.funcs.size ∧ id = ⟨done.length⟩ := by
      rw [funcIds, List.getElem?_map, Option.map_eq_some_iff] at hget
      obtain ⟨n, hn, rfl⟩ := hget
      obtain ⟨hlt, rfl⟩ := List.getElem?_eq_some_iff.1 hn
      simp only [List.length_range] at hlt
      exact ⟨hlt, by simp⟩
    have hfunc : m.func ⟨done.length⟩ = .ok m.funcs[done.length] :=
      func_eq_ok.2 (Array.getElem?_eq_getElem hlt)
    obtain ⟨n, m'', hok, hnext⟩ := hdone.step hm hfunc
    refine ⟨count + n, m'', by rw [Pass.exec_bind_of_ok hok, Pass.exec_pure], ?_⟩
    rw [List.length_append, List.length_singleton]
    exact hnext
  obtain ⟨count, m', hok, hdone⟩ := Pass.foldlM_total
    (P := fun done count m' => m.MarkedUpTo done.length count m') hstep hstart
  rw [hlength] at hdone
  have hcount : count = m.sites := by
    rw [hdone.count_eq, List.take_of_length_le (Nat.le_of_eq Array.length_toList), sites]
  rw [hcount] at hok hdone
  refine ⟨m', ?_, hdone⟩
  rw [mark, Pass.exec_bind_of_ok (Pass.exec_get m), Pass.exec_bind_of_ok hok]
  rfl

/-- The check accepts a module whose functions have all markers, from every state of the type
store. -/
theorem checkCoverage_of_covered
    (h : ∀ id f, m.func id = .ok f → ∃ start, f.Covered m.ctx start) (types : TypeStore) :
    ∃ types', m.checkCoverage.exec types = .ok (.ok ⟨⟩, types') := by
  refine Pass.forM_total (fun ⟨id, f⟩ hmem types => ?_) types
  obtain ⟨start, hcovered⟩ := h id f (mem_funcList.1 hmem)
  exact hcovered.check_total id types

section Done

variable (h : m.MarkedUpTo m.funcs.size count m')
include h

/-- Every function of the marked module is one of the module with all markers. -/
theorem MarkedUpTo.exists_func {f' : Function} (hf' : m'.func id = .ok f') :
    ∃ f, m.func id = .ok f ∧ f.FullyMarked m'.ctx f' := by
  have hlt : id.index < m.funcs.size := by
    rw [← h.size]
    exact (Array.getElem?_eq_some_iff.1 (func_eq_ok.1 hf')).1
  have hf : m.func id = .ok m.funcs[id.index] := func_eq_ok.2 (Array.getElem?_eq_getElem hlt)
  obtain ⟨f'', hf'', hmarked⟩ := h.done id _ hf hlt
  cases hf'.symm.trans hf''
  obtain ⟨types, hctx⟩ := h.types
  exact ⟨_, hf, hctx ▸ hmarked.withTypes types⟩

theorem MarkedUpTo.markable : m'.Markable := by
  intro id f' hf'
  obtain ⟨f, -, hmarked⟩ := h.exists_func hf'
  exact hmarked.progress.markable

/-- The check accepts the marked module, from every state of the type store. -/
theorem MarkedUpTo.checkCoverage_total (hm : m.Markable) (types : TypeStore) :
    ∃ types', m'.checkCoverage.exec types = .ok (.ok ⟨⟩, types') := by
  refine checkCoverage_of_covered (fun id f' hf' => ?_) types
  obtain ⟨f, hf, hmarked⟩ := h.exists_func hf'
  exact ⟨_, hmarked.covered (hm id f hf).sound⟩

end Done

/-- Demotion ends well if it does so for each function. -/
theorem demote_of_functions {P : Function → Prop} (h : ∀ id f, m.func id = .ok f →
      ∃ changed f', f.demote = .ok (changed, f') ∧ P f') :
    ∃ changed m', m.demote = .ok (changed, m') ∧ m'.ctx = m.ctx ∧
      ∀ id f', m'.func id = .ok f' → P f' := by
  have hfuncs : ∀ f ∈ m.funcs.toList, ∃ r : Bool × Function, f.demote = .ok r ∧ P r.2 := by
    intro f hmem
    obtain ⟨n, hn⟩ := List.mem_iff_getElem?.1 hmem
    rw [Array.getElem?_toList] at hn
    obtain ⟨changed, f', hok, hf'⟩ := h ⟨n⟩ f (func_eq_ok.2 hn)
    exact ⟨(changed, f'), hok, hf'⟩
  obtain ⟨results, hok, hall⟩ := mapM_total hfuncs
  refine ⟨_, _, bind_eq_ok_iff.2 ⟨results, hok, rfl⟩, rfl, fun id f' hf' => ?_⟩
  rw [func_eq_ok, List.getElem?_toArray, List.getElem?_map, Option.map_eq_some_iff] at hf'
  obtain ⟨r, hr, rfl⟩ := hf'
  exact hall r (List.mem_of_getElem? hr)

/-- A module can be marked after demotion if each of its functions can. -/
theorem demote_total (h : ∀ id f, m.func id = .ok f →
      ∃ changed f', f.demote = .ok (changed, f') ∧ f'.Markable m.ctx) :
    ∃ changed m', m.demote = .ok (changed, m') ∧ m'.Markable := by
  obtain ⟨changed, m', hok, hctx, hfuncs⟩ := demote_of_functions h
  exact ⟨changed, m', hok, fun id f' hf' => hctx ▸ hfuncs id f' hf'⟩

/-- Demotion and any number of runs of marking behind it succeed on a module that is built, if
operands and the parts of constant expressions exist, phis name blocks that have places, constant
expressions do not contain themselves, addresses are computed from a base and have a value, and the
functions that are called are declared with annotations that fit. After demotion no operand is a
constant expression. Each run of marking makes one marker for each site and says whether there was
one, and the coverage check accepts what it leaves. -/
theorem marking_covers (hm : m.Built) (hcomplete : ∀ id f, m.func id = .ok f →
      f.Complete m.ctx ∧ f.graph.PartsExist ∧ f.graph.Acyclic) :
    ∃ changed m₀, m.demote = .ok (changed, m₀) ∧ ∃ run : Nat → Module, run 0 = m₀ ∧ ∀ k,
      mark.exec (run k) = .ok (.ok (decide (0 < (run k).sites)), run (k + 1)) ∧
      (∀ id f, (run k).func id = .ok f →
        (∀ i, f.Flat i) ∧ ∃ f', (run (k + 1)).func id = .ok f' ∧ f.Extends f' ∧
          f'.insts.length = f.insts.length + f.sites (run k).ctx) ∧
      ∀ types, ∃ types', (run (k + 1)).checkCoverage.exec types = .ok (.ok (), types') := by
  obtain ⟨changed, m₀, hdemote, hm₀⟩ := demote_total fun id f hf =>
    have ⟨hf', hparts, hacyclic⟩ := hcomplete id f hf
    hf'.demote (hm.written hf) hparts hacyclic
  -- A run leaves a module that can be marked, so there is always a next one.
  have hnext : ∀ m : { m : Module // m.Markable }, ∃ m' : { m : Module // m.Markable },
      mark.exec m.1 = .ok (.ok (decide (0 < m.1.sites)), m'.1) ∧
      (∀ id f, m.1.func id = .ok f →
        (∀ i, f.Flat i) ∧ ∃ f', m'.1.func id = .ok f' ∧ f.Extends f' ∧
          f'.insts.length = f.insts.length + f.sites m.1.ctx) ∧
      ∀ types, ∃ types', m'.1.checkCoverage.exec types = .ok (.ok (), types') := by
    intro ⟨m, hm⟩
    obtain ⟨m', hok, hmarked⟩ := mark_total hm
    refine ⟨⟨m', hmarked.markable⟩, hok, fun id f hf => ?_, hmarked.checkCoverage_total hm⟩
    have hlt := (Array.getElem?_eq_some_iff.1 (func_eq_ok.1 hf)).1
    obtain ⟨f', hf', hfull⟩ := hmarked.done id f hf hlt
    exact ⟨(hm id f hf).flat, f', hf', hfull.progress.extension, hfull.progress.length⟩
  choose next hnext using hnext
  refine ⟨changed, m₀, hdemote, fun k => (next^[k] ⟨m₀, hm₀⟩).1, rfl, fun k => ?_⟩
  simp only [Function.iterate_succ_apply']
  exact hnext _

/-- A loop that reads a constant address, and gives what it computes to a function with a typed
argument. -/
def readsGlobal : Except Fault Module :=
  ofItems ⟨.air64, .bitcode, .v7⟩ [.constant "x" .i32 .hidden (.zero .i32)]
    [⟨"f", .exported, [.genericPtr], .unit, none⟩,
      ⟨"g", .imported, [.genericPtr, .genericPtr], .unit, some ⟨none, [(0, .zero .i32)]⟩⟩]
    [.globalAddr ⟨0⟩, .constGep .i32 [⟨1⟩], .inst (.phi .genericPtr [(⟨5⟩, ⟨0⟩)]),
      .inst (.alloca .i32 .generic), .inst (.gep .i32 .i32 [⟨2⟩]), .inst (.load ⟨5⟩ .i32),
      .inst (.store ⟨1⟩ ⟨3⟩), .inst (.call ⟨1⟩ [⟨5⟩, ⟨1⟩] .unit), .inst (.jump ⟨0⟩)]

theorem marking_covers_readsGlobal : ∃ (m m₀ m₁ m₂ : Module) (changed : Bool), m.Built ∧
    (∀ id f, m.func id = .ok f → f.Complete m.ctx ∧ f.graph.PartsExist ∧ f.graph.Acyclic) ∧
    m.demote = .ok (changed, m₀) ∧ m₀.sites = 10 ∧ mark.exec m₀ = .ok (.ok true, m₁) ∧
    mark.exec m₁ = .ok (.ok true, m₂) ∧
    ∃ types, m₂.checkCoverage.exec m₂.ctx.types = .ok (.ok (), types) := by
  have hrun : succeeds readsGlobal (fun m =>
      m.funcs.toList.all (fun f => f.checkComplete m.ctx &&
        f.graph.checkParts fun v w => w.index < v.index) &&
      succeeds m.demote fun (_, m₀) => m₀.sites = 10 &&
        succeeds (mark.exec m₀) fun (_, m₁) => 0 < m₁.sites) = true := by
    decide +kernel
  obtain ⟨m, hm, hrun⟩ := exists_of_succeeds hrun
  obtain ⟨hcheck, hrun⟩ := Bool.and_eq_true_iff.1 hrun
  obtain ⟨⟨changed, m₀⟩, hdemote, hrun⟩ := exists_of_succeeds hrun
  obtain ⟨hsites, hrun⟩ := Bool.and_eq_true_iff.1 hrun
  obtain ⟨⟨outcome, m₁⟩, hmark, hmore⟩ := exists_of_succeeds hrun
  have hcomplete : ∀ id f, m.func id = .ok f →
      f.Complete m.ctx ∧ f.graph.PartsExist ∧ f.graph.Acyclic := by
    intro id f hf
    have hmem : f ∈ m.funcs.toList := by
      rw [Array.mem_toList_iff]
      exact Array.mem_of_getElem? (func_eq_ok.1 hf)
    obtain ⟨hf, hparts⟩ := Bool.and_eq_true_iff.1 (List.all_eq_true.1 hcheck f hmem)
    exact ⟨Function.complete_of_checkComplete hf, Graph.acyclic_of_checkParts hparts⟩
  have hbuilt := built_of_ofItems hm
  obtain ⟨_, _, hdemote', run, rfl, hruns⟩ := marking_covers hbuilt hcomplete
  cases hdemote.symm.trans hdemote'
  have hmark₁ := (hruns 0).1
  cases hmark.symm.trans hmark₁
  obtain ⟨hmark₂, -, hcovered⟩ := hruns 1
  have hten : (run 0).sites = 10 := of_decide_eq_true hsites
  have hsome : 0 < (run 1).sites := of_decide_eq_true hmore
  rw [hten] at hmark₁
  rw [decide_eq_true hsome] at hmark₂
  exact ⟨m, run 0, run 1, run 2, changed, hbuilt, hcomplete, hdemote, hten, hmark₁, hmark₂,
    hcovered _⟩

end Module

end Pointee
