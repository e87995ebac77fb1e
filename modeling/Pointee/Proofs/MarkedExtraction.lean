import Pointee.Proofs.ExtractionRecords
import Pointee.Proofs.MarkerOwnership
import Pointee.Proofs.PointerTypes

/-!
# Extraction from marked functions

Nothing stops extraction in a marked function: a pointer operand is a pointer and the value of a
marker, and an address is a pointer that a marker alone consumes. This is `Readable.extract_total`.
The first record for a pointer counts, but for the sites there is no other one. The marker of an
operand is its own, so no other instruction says anything about it (`Readable.fixes_operand`). It
wraps no address either, so only the instruction that makes an address says something about it
(`Parted.fixes_made`). `Function.Mapped` says what the map has for a function in the end.
-/

namespace Pointee

open PtrMap TypeStore

theorem Site.makesAddress_of_resultPointee {inst : Inst} {site : Site} {ty : Ty}
    (hsite : Site.ofInst inst = .ok site) (h : Function.resultPointee? site = some ty) :
    inst.makesAddress = true := by
  cases inst with
  | gep | alloca => rfl
  | cast op arg ty => cases op <;> cases hsite <;> cases h
  | _ => cases hsite; cases h

namespace Function

variable {ctx : Context} {f : Function} {start slot : Nat} {id : FuncId} {i j k : InstId}
  {p v w : ValueId} {d d' : Descriptor} {site : Site} {elem : Ty} {types s t : TypeStore}
  {map map' : PtrMap} {callee : FuncId} {args : List ValueId} {typed : TypedSignature}

theorem IsSite.isMarker_ne (h : f.IsSite ctx i slot) : f.graph.isMarker i ≠ .ok true := by
  intro hmarker
  obtain ⟨arg, ty, hinst⟩ := Graph.inst_of_isMarker hmarker
  rcases h.2.of_inst hinst with hslot | hannotates
  · cases hslot
  · cases hannotates

/-- A marker makes no address. -/
theorem isMarker_ne_of_resultPointee (hsite : f.graph.site i = .ok site)
    (hpointee : resultPointee? site = some elem) : f.graph.isMarker i ≠ .ok true := by
  intro hmarker
  cases (Graph.site_of_isMarker hmarker).symm.trans hsite
  cases hpointee

theorem Makes.isMarker_ne {marker : ValueId} (h : f.Makes i v marker d) :
    f.graph.isMarker i ≠ .ok true := by
  obtain ⟨site, hsite, hpointee⟩ := h.pointee
  exact isMarker_ne_of_resultPointee hsite hpointee

/-- No marker defines an address that is made. -/
theorem Makes.markedOperand_ne {marker : ValueId} (h : f.Makes i v marker d) (hf : f.Sound) :
    f.graph.markedOperand v ≠ .ok (some w) := by
  intro hmarked
  obtain ⟨m, ty, hval, hmarker, -⟩ := exists_inst_of_markedOperand hmarked
  obtain ⟨ty', hval'⟩ := (hf.graph.result_iff i v).1 h.result
  cases hval.symm.trans hval'
  exact h.isMarker_ne hmarker

/-- The instruction computes or allocates an address. -/
def MakesAddress (f : Function) (i : InstId) : Prop := f.InstIs i (·.makesAddress = true)

theorem Makes.makesAddress {marker : ValueId} (h : f.Makes i v marker d) : f.MakesAddress i := by
  obtain ⟨site, hsite, hpointee⟩ := h.pointee
  obtain ⟨inst, hinst, hofInst⟩ := Graph.site_eq_ok.1 hsite
  exact ⟨inst, hinst, Site.makesAddress_of_resultPointee hofInst hpointee⟩

theorem Accesses.isSite (h : f.Accesses i p w d) :
    ∃ slot, f.IsSite ctx i slot ∧ f.graph.operand i slot = .ok p := by
  obtain ⟨site, hsite, hbinding⟩ := h.binding
  obtain ⟨inst, hinst, hofInst⟩ := Graph.site_eq_ok.1 hsite
  obtain ⟨slot, hslot, hp⟩ := Site.pointerSlot_of_binding hofInst hbinding
  have hop := Graph.operand_eq_ok.2 ⟨inst, hinst, hp⟩
  exact ⟨slot, ⟨⟨p, hop⟩, inst, hinst, .inl hslot⟩, hop⟩

/-- An argument that the callee types is at a site. -/
theorem isSite_argument (hsite : f.graph.site i = .ok (.call callee args))
    (htyped : (TypedSignature.annotated ctx callee).exec s = .ok (.ok typed, t))
    (harg : args[slot]? = some p) (hd : typed.arg? slot = some d) :
    f.IsSite ctx i slot ∧ f.graph.operand i slot = .ok p := by
  obtain ⟨ret, hinst⟩ := Graph.inst_of_call hsite
  have hop : f.graph.operand i slot = .ok p := Graph.operand_eq_ok.2 ⟨_, hinst, harg⟩
  refine ⟨⟨⟨p, hop⟩, _, hinst, .inr ?_⟩, hop⟩
  rw [← TypedSignature.isSome_arg htyped, hd]
  rfl

theorem Passes.isSite (h : f.Passes ctx types i p d) :
    ∃ slot, f.IsSite ctx i slot ∧ f.graph.operand i slot = .ok p := by
  obtain ⟨callee, args, typed, slot, hsite, htyped, harg, hd, -⟩ := h
  exact ⟨slot, isSite_argument hsite htyped harg hd⟩

/-- The marker behind an instruction wraps the address that the instruction makes. -/
theorem Makes.markedOperand {marker : ValueId} (h : f.Makes i v marker d) (hf : f.Sound) :
    f.graph.markedOperand marker = .ok (some v) := by
  obtain ⟨v', m, hresult, husers, hmarker, hm⟩ := exists_result_of_soleMarker h.marked
  cases h.result.symm.trans hresult
  obtain ⟨ty, hval⟩ := (hf.graph.result_iff m marker).1 hm
  obtain ⟨inst, hinst, hmem⟩ := (hf.graph.mem_users v m).1 (husers ▸ List.mem_singleton_self m)
  obtain ⟨arg, ty', hinst'⟩ := Graph.inst_of_isMarker hmarker
  cases hinst.symm.trans hinst'
  obtain rfl := List.mem_singleton.1 hmem
  refine bind_eq_ok_iff.2 ⟨_, hval, bind_eq_ok_iff.2 ⟨true, hmarker, ?_⟩⟩
  exact map_eq_ok_iff.2 ⟨v, Graph.operand_eq_ok.2 ⟨_, hinst, rfl⟩, rfl⟩

/-- No other marker wraps it. -/
theorem Makes.eq_marker {marker : ValueId} (h : f.Makes i v marker d) (hf : f.Sound)
    (hp : f.graph.markedOperand p = .ok (some v)) : p = marker := by
  obtain ⟨v', m, hresult, husers, -, hm⟩ := exists_result_of_soleMarker h.marked
  cases h.result.symm.trans hresult
  obtain ⟨k, ty, hval, hmarker, hop⟩ := exists_inst_of_markedOperand hp
  obtain ⟨inst, hinst, harg⟩ := Graph.operand_eq_ok.1 hop
  have hk : k ∈ f.graph.usersOf v :=
    (hf.graph.mem_users v k).2 ⟨inst, hinst, List.mem_of_getElem? harg⟩
  rw [husers] at hk
  obtain rfl := List.mem_singleton.1 hk
  have hp := (hf.graph.result_iff k p).2 ⟨ty, hval⟩
  exact Option.some.inj (hp.symm.trans hm)

/-! ## Markers of results -/

/-- The sites of the function have markers that stay apart from those of addresses. -/
structure Parted (ctx : Context) (start : Nat) (f : Function) : Prop where
  sound : f.Sound
  markers : f.MarkersFrom start
  apart : ∀ i ∈ f.insts, i.index < start → ∀ slot, f.IsSite ctx i slot →
    f.ApartAt start (f.MakesOneOf f.insts) i slot

namespace Parted

theorem withTypes (h : f.Parted ctx start) (types : TypeStore) :
    f.Parted { ctx with types } start :=
  ⟨h.sound, h.markers, h.apart⟩

theorem lt_of_not_marker (h : f.Parted ctx start) (hi : i ∈ f.insts)
    (hmarker : f.graph.isMarker i ≠ .ok true) : i.index < start := by
  by_contra hnot
  exact hmarker (h.markers i (Nat.not_lt.1 hnot) (h.sound.lt_of_mem_insts hi)).1

/-- The marker of an address is at no site. -/
theorem operand_ne_marker {marker : ValueId} (h : f.Parted ctx start) (hi : i ∈ f.insts)
    (hmakes : f.Makes i v marker d) (hj : j ∈ f.insts) (hsite : f.IsSite ctx j slot) :
    f.graph.operand j slot ≠ .ok marker := by
  intro hop
  obtain ⟨k, -, ⟨p, ty, hop', hval⟩, havoids⟩ :=
    h.apart j hj (h.lt_of_not_marker hj hsite.isMarker_ne) slot hsite
  cases hop.symm.trans hop'
  obtain ⟨m, ty', hval', -, hwraps⟩ := exists_inst_of_markedOperand (hmakes.markedOperand h.sound)
  cases hval.symm.trans hval'
  exact havoids i v ⟨hi, hmakes.makesAddress, v, hmakes.result⟩ hmakes.result hwraps

/-- About an address that is made, only the instruction that makes it says something. -/
theorem fixes_made {marker : ValueId} (h : f.Parted ctx start) (hi : i ∈ f.insts)
    (hmakes : f.Makes i v marker d) (hj : j ∈ f.insts)
    (hfix : f.Fixes ctx types id j (.value id v) d') : d' = d := by
  generalize hkey : PtrKey.value id v = key at hfix
  cases hfix with
  | pointer haccess =>
      cases hkey
      exact absurd haccess.marked (hmakes.markedOperand_ne h.sound)
  | @wrapped p w _ _ haccess hofValue =>
      -- Then memory is accessed through the marker of the address.
      subst hkey
      obtain rfl := PtrKey.eq_of_ofValue hofValue
      obtain ⟨slot, hsite, hop⟩ := haccess.isSite
      obtain rfl := hmakes.eq_marker h.sound haccess.marked
      exact absurd hop (h.operand_ne_marker hi hmakes hj hsite)
  | result hmakes' =>
      cases hkey
      obtain rfl := h.sound.graph.result_inj hmakes.result hmakes'.result
      exact (hmakes'.unique hmakes).2.2
  | marker hmakes' =>
      cases hkey
      exact absurd (hmakes'.markedOperand h.sound) (hmakes.markedOperand_ne h.sound)
  | argument hpasses =>
      cases hkey
      obtain ⟨_, _, _, _, -, -, -, -, w, hmarked⟩ := hpasses
      exact absurd hmarked (hmakes.markedOperand_ne h.sound)

end Parted

/-! ## Marked functions -/

/-- What extraction relies on: all markers are there, the operands that need one have one of their
own, and memory is accessed through pointers. -/
structure Readable (ctx : Context) (start : Nat) (f : Function) : Prop
    extends Covered ctx start f where
  owned : ∀ i ∈ f.insts, i.index < start → ∀ slot, f.IsSite ctx i slot → f.OwnedAt start i slot
  parted : f.Parted ctx start
  pointers : f.PointersTyped

theorem Readable.withTypes (h : f.Readable ctx start) (types : TypeStore) :
    f.Readable { ctx with types } start :=
  ⟨h.toCovered.withTypes types, h.owned, h.parted.withTypes types, h.pointers⟩

end Function

/-- A run of marking that succeeds keeps the markers of sites apart from those of addresses. -/
theorem Marking.markFunction_parted {ctx : Context} {n : Nat} {s t : Marking} (hf : s.func.Sound)
    (h : (markFunction ctx).exec s = .ok (.ok n, t)) :
    t.func.Parted ctx s.func.graph.insts.size := by
  have herasable := (markFunction_marked hf h).erasable hf
  have hseparated := markFunction_separated hf h
  have hext := hseparated.extension
  refine ⟨hseparated.sound, herasable.markersFrom, fun i hi hlt slot hsite => ?_⟩
  have hi₀ := (hext.mem_insts_iff hf hseparated.sound hlt).1 hi
  have hsite₀ := (Function.IsSite.of_extends hext hlt).1 hsite
  refine (hseparated.apart i hi₀ slot hsite₀).mono fun j hj => ?_
  obtain ⟨hmem, hmakes, hresult⟩ := hj
  obtain ⟨hlt', hmakes₀⟩ := herasable.instIs_old hext (Inst.ofShape_eq Inst.makesAddress_shape true)
    (fun arg ty => nofun) hmakes
  exact ⟨(hext.mem_insts_iff hf hseparated.sound hlt').1 hmem, hmakes₀,
    hext.result? j hlt' ▸ hresult⟩

/-- A run of marking that succeeds leaves a function that can be read. -/
theorem Marking.markFunction_readable {ctx ctx' : Context} {n : Nat} {s t : Marking}
    (hf : s.func.Markable ctx') (hpointers : s.func.PointersTyped)
    (h : (markFunction ctx).exec s = .ok (.ok n, t)) :
    t.func.Readable ctx s.func.graph.insts.size := by
  have hf : s.func.Markable ctx := hf.withCallees (markFunction_fits hf.sound h)
  obtain ⟨t', hok, hprogress⟩ := markFunction_total hf
  cases h.symm.trans hok
  have herasable := (markFunction_marked hf.sound h).erasable hf.sound
  have hext := hprogress.extension
  have hsound := hprogress.markable.sound
  have hfull : Function.FullyMarked ctx s.func t.func := ⟨hprogress, herasable.markersFrom⟩
  refine ⟨hfull.covered hf.sound, fun i hi hlt slot hsite => ?_, markFunction_parted hf.sound h,
    hpointers.mark hext hsound herasable⟩
  exact markFunction_owned hf.sound hf.closed h i
    ((hext.mem_insts_iff hf.sound hsound hlt).1 hi) slot
    ((Function.IsSite.of_extends hext hlt).1 hsite)

namespace Function

variable {ctx : Context} {f : Function} {start slot : Nat} {id : FuncId} {i j k : InstId}
  {p v w : ValueId} {d d' : Descriptor} {site : Site} {elem : Ty} {types s t : TypeStore}
  {map map' : PtrMap} {callee : FuncId} {args : List ValueId} {typed : TypedSignature}

namespace Readable

section Sites

variable (h : f.Readable ctx start) (hi : i ∈ f.insts)
include h

theorem marked_of_owns (howns : f.Owns start i slot p k w) :
    f.graph.isMarker k = .ok true ∧ f.graph.markedOperand p = .ok (some w) := by
  obtain ⟨ty, hval⟩ := howns.value
  have hmarker := (h.markers k howns.made (h.markable.sound.graph.defined_lt p k ty hval)).1
  refine ⟨hmarker, bind_eq_ok_iff.2 ⟨_, hval, bind_eq_ok_iff.2 ⟨true, hmarker, ?_⟩⟩⟩
  exact map_eq_ok_iff.2 ⟨w, howns.wraps, rfl⟩

include hi

theorem owns_site (hsite : f.IsSite ctx i slot) (hop : f.graph.operand i slot = .ok p) :
    ∃ k w, f.Owns start i slot p k w := by
  have hlt := h.parted.lt_of_not_marker hi hsite.isMarker_ne
  obtain ⟨p', k, w, howns⟩ := h.owned i hi hlt slot hsite
  cases hop.symm.trans howns.operand
  exact ⟨k, w, howns⟩

/-- A binding site accesses memory through a marker of its own. -/
theorem exists_accesses (hsite : f.graph.site i = .ok site)
    (hbinding : site.binding f.graph = .ok (some (p, elem))) :
    ∃ slot k w space, f.IsSite ctx i slot ∧ f.Owns start i slot p k w ∧
      f.Accesses i p w ⟨elem, space⟩ := by
  obtain ⟨inst, hinst, hofInst⟩ := Graph.site_eq_ok.1 hsite
  obtain ⟨slot, hslot, hp⟩ := Site.pointerSlot_of_binding hofInst hbinding
  have hop := Graph.operand_eq_ok.2 ⟨inst, hinst, hp⟩
  have hissite : f.IsSite ctx i slot := ⟨⟨p, hop⟩, inst, hinst, .inl hslot⟩
  obtain ⟨k, w, howns⟩ := h.owns_site hi hissite hop
  obtain ⟨space, hspace⟩ :=
    Graph.isPointer_iff.1 (h.pointers.operand i slot p ⟨inst, hinst, hslot⟩ hop)
  exact ⟨slot, k, w, space, hissite, howns,
    ⟨site, hsite, hbinding⟩, hspace, (h.marked_of_owns howns).2⟩

/-- An argument that the callee types is a marker of its own. -/
theorem owns_argument (hsite : f.graph.site i = .ok (.call callee args))
    (htyped : (TypedSignature.annotated ctx callee).exec s = .ok (.ok typed, t))
    (harg : args[slot]? = some p) (hd : typed.arg? slot = some d) :
    f.IsSite ctx i slot ∧ ∃ k w, f.Owns start i slot p k w := by
  obtain ⟨hissite, hop⟩ := isSite_argument hsite htyped harg hd
  exact ⟨hissite, h.owns_site hi hissite hop⟩

/-- What makes an address has a value that a marker alone consumes. -/
theorem exists_makes (hsite : f.graph.site i = .ok site)
    (hpointee : resultPointee? site = some elem) :
    ∃ v marker space, f.Makes i v marker ⟨elem, space⟩ := by
  have hmarker := isMarker_ne_of_resultPointee hsite hpointee
  obtain ⟨inst, hinst, hofInst⟩ := Graph.site_eq_ok.1 hsite
  have hmakes : f.MakesAddress i :=
    ⟨inst, hinst, Site.makesAddress_of_resultPointee hofInst hpointee⟩
  have hsole := (h.settled i hi (h.parted.lt_of_not_marker hi hmarker)).result hmakes
  obtain ⟨marker, hsole⟩ := hsole.soleMarker h.markable h.markers
  obtain ⟨v, -, hresult, -⟩ := exists_result_of_soleMarker hsole
  obtain ⟨space, hspace⟩ := Graph.isPointer_iff.1 (h.pointers.result i v hmakes hresult)
  exact ⟨v, marker, space, ⟨site, hsite, hpointee⟩, hresult, hspace, hsole⟩

end Sites

/-! ## Extraction comes to its end -/

section Total

variable (h : f.Readable ctx start) (hi : i ∈ f.insts)
include h hi

theorem extractBinding_total (hsite : f.graph.site i = .ok site) (map : PtrMap) (s : TypeStore) :
    ∃ map', (f.extractBinding ctx id map i site).exec s = .ok (.ok map', s) := by
  obtain ⟨inst, hinst, hofInst⟩ := Graph.site_eq_ok.1 hsite
  obtain ⟨binding, hbinding, -⟩ :=
    Site.binding_total hofInst (h.markable.closed.has_operand hinst)
  unfold extractBinding
  rw [Pass.exec_liftM_of_ok hbinding]
  cases binding with
  | none => exact ⟨map, rfl⟩
  | some access =>
      obtain ⟨p, elem⟩ := access
      obtain ⟨slot, k, w, space, -, howns, haccess⟩ := h.exists_accesses hi hsite hbinding
      obtain ⟨key, hkey⟩ := PtrKey.ofValue_total (h.markable.closed k 0 w howns.wraps) id
      refine ⟨(map.insert (.value id p) ⟨elem, space⟩).insert key ⟨elem, space⟩, ?_⟩
      refine (Pass.exec_liftM_of_ok haccess.space _ s).trans ?_
      refine (Pass.exec_liftM_of_ok haccess.marked _ s).trans ?_
      exact (Pass.exec_liftM_of_ok hkey _ s).trans rfl

theorem extractResult_total (hsite : f.graph.site i = .ok site) (map : PtrMap) (s : TypeStore) :
    ∃ map', (f.extractResult ctx id map i site).exec s = .ok (.ok map', s) := by
  unfold extractResult
  cases hpointee : resultPointee? site with
  | none => exact ⟨map, rfl⟩
  | some elem =>
      obtain ⟨v, marker, space, hmakes⟩ := h.exists_makes hi hsite hpointee
      rw [hmakes.result]
      refine ⟨(map.insert (.value id v) ⟨elem, space⟩).insert (.value id marker) ⟨elem, space⟩, ?_⟩
      refine (Pass.exec_liftM_of_ok hmakes.space _ s).trans ?_
      exact (Pass.exec_liftM_of_ok hmakes.marked _ s).trans rfl

theorem extractCall_total (hsite : f.graph.site i = .ok site) (map : PtrMap) (s : TypeStore) :
    ∃ map' t, (f.extractCall ctx id map i site).exec s = .ok (.ok map', t) := by
  cases site with
  | call callee args =>
      obtain ⟨ret, hinst⟩ := Graph.inst_of_call hsite
      obtain ⟨typed, t, htyped, -⟩ := h.markable.annotated_total hi hinst rfl s
      have hround : ∀ arg ∈ args.zipIdx, ∀ map u, ∃ map' u',
          (f.extractArgument ctx id typed i map arg).exec u = .ok (.ok map', u') := by
        rintro ⟨arg, slot⟩ hmem map u
        rw [List.mem_zipIdx_iff_getElem?] at hmem
        unfold extractArgument
        cases hd : typed.arg? slot with
        | none => exact ⟨map, u, rfl⟩
        | some d =>
            obtain ⟨-, k, w, howns⟩ := h.owns_argument hi hsite htyped hmem hd
            exact ⟨map.insert (.value id arg) d, u,
              (Pass.exec_liftM_of_ok (h.marked_of_owns howns).2 _ u).trans rfl⟩
      obtain ⟨map', u, hloop⟩ := Pass.foldlM_of_rounds hround map t
      exact ⟨map', u, (Pass.exec_bind_of_ok htyped).trans hloop⟩
  | _ => exact ⟨map, s, rfl⟩

theorem extractInst_total (map : PtrMap) (s : TypeStore) :
    ∃ map' t, (f.extractInst ctx id map i).exec s = .ok (.ok map', t) := by
  obtain ⟨inst, hinst⟩ := Graph.exists_inst (h.markable.sound.lt_of_mem_insts hi)
  obtain ⟨marker, hmarker⟩ := h.markable.isMarker_total hinst
  unfold extractInst
  cases marker with
  | true =>
      exact ⟨map, s, (Pass.exec_liftM_of_ok hmarker _ s).trans rfl⟩
  | false =>
      have hbase : ¬ inst.lacksBase = true := fun hbase => h.markable.based i ⟨inst, hinst, hbase⟩
      obtain ⟨site, hofInst⟩ := Site.ofInst_total hbase
      have hsite := Graph.site_eq_ok.2 ⟨inst, hinst, hofInst⟩
      obtain ⟨map₁, h₁⟩ := h.extractBinding_total hi hsite map s
      obtain ⟨map₂, h₂⟩ := h.extractResult_total hi hsite map₁ s
      obtain ⟨map₃, t, h₃⟩ := h.extractCall_total hi hsite map₂ s
      refine ⟨map₃, t, ?_⟩
      rw [Pass.exec_if_of_false hmarker, Pass.exec_liftM_of_ok hsite]
      exact Pass.exec_bind_eq_ok.2 ⟨_, _, h₁, Pass.exec_bind_eq_ok.2 ⟨_, _, h₂, h₃⟩⟩

theorem extractGlobalMarker_total (map : PtrMap) :
    ∃ map', f.extractGlobalMarker id map i = .ok map' := by
  obtain ⟨inst, hinst⟩ := Graph.exists_inst (h.markable.sound.lt_of_mem_insts hi)
  obtain ⟨marker, hmarker⟩ := h.markable.isMarker_total hinst
  unfold extractGlobalMarker
  rw [hmarker]
  cases marker with
  | false => exact ⟨map, rfl⟩
  | true =>
      obtain ⟨arg, ty, hinst'⟩ := Graph.inst_of_isMarker hmarker
      have hop : f.graph.operand i 0 = .ok arg := Graph.operand_eq_ok.2 ⟨_, hinst', rfl⟩
      obtain ⟨val, hval⟩ := (h.markable.closed i 0 arg hop).exists_value
      simp only [hop, hval, bind, Except.bind, if_true]
      split
      · next g v _ _ => cases map.get? (.global g) <;> exact ⟨_, rfl⟩
      · exact ⟨_, rfl⟩

end Total

/-- Extraction succeeds on a function that can be read. -/
theorem extract_total (h : f.Readable ctx start) (map : PtrMap) (s : TypeStore) :
    ∃ map' t, (f.extract ctx id map).exec s = .ok (.ok map', t) := by
  have hround : ∀ i ∈ f.insts, ∀ map s, ∃ map' t,
      (f.extractInst ctx id map i).exec s = .ok (.ok map', t) :=
    fun i hi map s => h.extractInst_total hi map s
  have hround' : ∀ done i rest map, f.insts = done ++ i :: rest → True →
      ∃ map', f.extractGlobalMarker id map i = .ok map' ∧ True := by
    intro done i rest map hsplit _
    obtain ⟨map', hrun⟩ := h.extractGlobalMarker_total (i := i) (by simp [hsplit]) map
    exact ⟨map', hrun, trivial⟩
  obtain ⟨map₁, t, h₁⟩ := Pass.foldlM_of_rounds hround map s
  obtain ⟨map₂, h₂, -⟩ := foldlM_total (P := fun _ _ => True) hround' trivial
  refine ⟨map₂, t, Pass.exec_bind_eq_ok.2 ⟨map₁, t, h₁, ?_⟩⟩
  rw [h₂]
  rfl

/-! ## Nothing else is said about a site -/

section Unique

variable (h : f.Readable ctx start)
include h

/-- About the marker of an operand, only the instruction with the operand says something: that it
accesses memory through it, or passes it to a function. -/
theorem fixes_operand (hi : i ∈ f.insts) (hj : j ∈ f.insts) (hsite : f.IsSite ctx i slot)
    (howns : f.Owns start i slot p k w)
    (hfix : f.Fixes ctx types id j (.value id p) d) :
    (∃ w, f.Accesses i p w d) ∨
      ∃ callee args typed, f.graph.site i = .ok (.call callee args) ∧
        (TypedSignature.annotated ctx callee).exec types = .ok (.ok typed, types) ∧
        typed.arg? slot = some d := by
  generalize hkey : PtrKey.value id p = key at hfix
  cases hfix with
  | pointer haccess =>
      cases hkey
      obtain ⟨s, -, hop⟩ : ∃ s, f.IsSite ctx j s ∧ f.graph.operand j s = .ok p := haccess.isSite
      obtain ⟨rfl, -⟩ := howns.alone j s hop
      exact .inl ⟨_, haccess⟩
  | @wrapped p' w' _ _ haccess hofValue =>
      -- Then `i` is the marker that the access goes through.
      subst hkey
      obtain rfl := PtrKey.eq_of_ofValue hofValue
      obtain ⟨m, mty, -, hm, hop⟩ := exists_inst_of_markedOperand haccess.marked
      obtain ⟨rfl, -⟩ := howns.alone m 0 hop
      exact absurd hm hsite.isMarker_ne
  | result hmakes =>
      cases hkey
      exact absurd (h.marked_of_owns howns).2 (hmakes.markedOperand_ne h.markable.sound)
  | marker hmakes =>
      cases hkey
      exact absurd howns.operand (h.parted.operand_ne_marker hj hmakes hi hsite)
  | argument hpasses =>
      cases hkey
      obtain ⟨callee, args, typed, s, hcall, htyped, harg, hd, -⟩ := hpasses
      obtain ⟨rfl, rfl⟩ := howns.alone j s (isSite_argument hcall htyped harg hd).2
      exact .inr ⟨callee, args, typed, hcall, htyped, hd⟩

end Unique

end Readable

/-! ## What the map has for the sites -/

/-- The map has exact descriptors for the sites of the function `id`. The pointer operand of a
binding site points to what is accessed, and what its marker wraps has a descriptor too. An address
that is computed or allocated points to the result or to what is allocated. An argument that the
callee has a sample for points to what has the type of the sample. -/
structure Mapped (ctx : Context) (types : TypeStore) (f : Function) (id : FuncId) (map : PtrMap) :
    Prop where
  pointer : ∀ i ∈ f.insts, ∀ site p elem, f.graph.site i = .ok site →
    site.binding f.graph = .ok (some (p, elem)) →
    ∃ space, f.graph.spaceOf p = .ok (some space) ∧ map.get? (.value id p) = some ⟨elem, space⟩
  wrapped : ∀ i ∈ f.insts, ∀ site p elem, f.graph.site i = .ok site →
    site.binding f.graph = .ok (some (p, elem)) →
    ∃ w key d, f.graph.markedOperand p = .ok (some w) ∧ PtrKey.ofValue id f.graph w = .ok key ∧
      map.get? key = some d
  result : ∀ i ∈ f.insts, ∀ site pointee, f.graph.site i = .ok site →
    resultPointee? site = some pointee →
    ∃ v space, f.graph.result? i = some v ∧ f.graph.spaceOf v = .ok (some space) ∧
      map.get? (.value id v) = some ⟨pointee, space⟩
  argument : ∀ i ∈ f.insts, ∀ callee args sig, f.graph.site i = .ok (.call callee args) →
    ctx.signature callee = .ok sig → ∀ slot arg c, args[slot]? = some arg →
    sig.sample? slot = some c → ∃ ty space, (c.typeOf ctx).run types = .ok (ty, types) ∧
      sig.args[slot]? = some (.ptr space) ∧ map.get? (.value id arg) = some ⟨ty, space⟩

theorem Mapped.mono (h : f.Mapped ctx types id map)
    (hkept : ∀ key d, map.get? key = some d → map'.get? key = some d) :
    f.Mapped ctx types id map' := by
  refine ⟨fun i hi site p elem hsite hbinding => ?_, fun i hi site p elem hsite hbinding => ?_,
    fun i hi site pointee hsite hpointee => ?_,
    fun i hi callee args sig hsite hsig slot arg c harg hc => ?_⟩
  · obtain ⟨space, hspace, hget⟩ := h.pointer i hi site p elem hsite hbinding
    exact ⟨space, hspace, hkept _ _ hget⟩
  · obtain ⟨w, key, d, hmarked, hkey, hget⟩ := h.wrapped i hi site p elem hsite hbinding
    exact ⟨w, key, d, hmarked, hkey, hkept _ _ hget⟩
  · obtain ⟨v, space, hresult, hspace, hget⟩ := h.result i hi site pointee hsite hpointee
    exact ⟨v, space, hresult, hspace, hkept _ _ hget⟩
  · obtain ⟨ty, space, hty, hdeclared, hget⟩ :=
      h.argument i hi callee args sig hsite hsig slot arg c harg hc
    exact ⟨ty, space, hty, hdeclared, hkept _ _ hget⟩

theorem Mapped.withTypes (h : f.Mapped ctx types id map) (types' : TypeStore) :
    f.Mapped { ctx with types := types' } types id map := by
  refine ⟨h.pointer, h.wrapped, h.result,
    fun i hi callee args sig hsite hsig slot arg c harg hc => ?_⟩
  rw [Constant.typeOf_congr rfl c]
  exact h.argument i hi callee args sig hsite hsig slot arg c harg hc

/-- Extraction leaves exact descriptors for the sites of a function that can be read. -/
theorem Readable.mapped (h : f.Readable ctx start) (hmap : ∀ v, map.get? (.value id v) = none)
    (hrun : (f.extract ctx id map).exec s = .ok (.ok map', t)) (ht : t ≤ types) :
    f.Mapped ctx types id map' := by
  obtain ⟨-, hrecorded⟩ := extract_recorded hrun
  obtain ⟨mid, hfirst, hsecond⟩ := hrecorded ht
  suffices hmid : f.Mapped ctx types id mid from hmid.mono fun key d hget => hsecond.kept hget
  refine ⟨fun i hi site p elem hsite hbinding => ?_, fun i hi site p elem hsite hbinding => ?_,
    fun i hi site pointee hsite hpointee => ?_,
    fun i hi callee args sig hsite hsig slot arg c harg hc => ?_⟩
  · obtain ⟨slot, k, w, space, hissite, howns, haccess⟩ := h.exists_accesses hi hsite hbinding
    refine ⟨space, haccess.space, hfirst.get?_unique (hmap p) ⟨i, hi, .pointer haccess⟩ ?_⟩
    intro j hj d hfix
    rcases h.fixes_operand hi hj hissite howns hfix with ⟨w', haccess'⟩ | ⟨_, _, _, hcall, -⟩
    · exact (haccess'.unique haccess).2.2
    · cases hsite.symm.trans hcall
      cases hbinding
  · obtain ⟨slot, k, w, space, -, howns, haccess⟩ := h.exists_accesses hi hsite hbinding
    obtain ⟨key, hkey⟩ := PtrKey.ofValue_total (h.markable.closed k 0 w howns.wraps) id
    obtain ⟨d, hget⟩ := hfirst.exists_get? hi (.wrapped haccess hkey)
    exact ⟨w, key, d, haccess.marked, hkey, hget⟩
  · obtain ⟨v, marker, space, hmakes⟩ := h.exists_makes hi hsite hpointee
    refine ⟨v, space, hmakes.result, hmakes.space,
      hfirst.get?_unique (hmap v) ⟨i, hi, .result hmakes⟩ ?_⟩
    exact fun j hj d hfix => h.parted.fixes_made hi hmakes hj hfix
  · obtain ⟨ret, hinst⟩ := Graph.inst_of_call hsite
    obtain ⟨sig', hsig', hwell⟩ := h.markable.callees i hi callee ⟨_, hinst, rfl⟩
    cases hsig.symm.trans hsig'
    obtain ⟨⟨declared, hdeclared, hptr⟩, -⟩ := hwell.sample hc
    obtain ⟨space, hspace⟩ := Option.isSome_iff_exists.1 hptr
    rw [Ty.space?_eq_some_iff.1 hspace] at hdeclared
    obtain ⟨typed, htyped⟩ := extract_annotated hrun ht i hi callee args hsite
    have hslots := (Pass.exec_liftM_of_ok hsig _ types).symm.trans htyped
    obtain ⟨ty, hty, hd⟩ := Signature.typed_sample hslots (le_refl types) hdeclared hc
    obtain ⟨hissite, k, w, howns⟩ := h.owns_argument hi hsite htyped harg hd
    have hpasses : f.Passes ctx types i arg ⟨ty, space⟩ :=
      ⟨callee, args, typed, slot, hsite, htyped, harg, hd, w, (h.marked_of_owns howns).2⟩
    refine ⟨ty, space, hty, hdeclared,
      hfirst.get?_unique (hmap arg) ⟨i, hi, .argument hpasses⟩ fun j hj d' hfix => ?_⟩
    rcases h.fixes_operand hi hj hissite howns hfix with
      ⟨w', haccess⟩ | ⟨_, _, _, hcall, htyped', hd'⟩
    · obtain ⟨site, hsite', hbinding⟩ := haccess.binding
      cases hsite.symm.trans hsite'
      cases hbinding
    · cases hsite.symm.trans hcall
      cases htyped.symm.trans htyped'
      exact Option.some.inj (hd'.symm.trans hd)

end Function

end Pointee
