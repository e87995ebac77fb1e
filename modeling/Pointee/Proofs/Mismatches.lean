import Pointee.PtrMap
import Pointee.Proofs.Recording
import Pointee.Proofs.SiteReading

/-!
# Accesses that disagree with the map

`Inst.Mismatch` says of an access that the map does not know its pointer to point to what is
accessed, and `Inst.Settled` that an instruction is no such access. Values that were made keep their
types, so both stay as they are while only new values are made and recorded (`Reading.Extends`). If
the operands of an instruction exist, they are also what they were.
-/

namespace Pointee

open PtrMap

/-! ## What is read of a function -/

/-- The values of a function and what is known about its pointers. -/
structure Reading where
  id : FuncId
  graph : Graph
  map : PtrMap

namespace Reading

variable {r r' r'' : Reading} {v : ValueId}

/-- More values may be made and recorded. Those that there were stay what they are, and they and the
symbols stay as they are known. -/
structure Extends (r r' : Reading) : Prop where
  id : r'.id = r.id
  values : r.graph.Keeps r'.graph
  known : ∀ key, (∀ id v, key = .value id v → id = r.id ∧ r.graph.Has v) →
    r'.map.get? key = r.map.get? key

namespace Extends

theorem refl (r : Reading) : r.Extends r := ⟨rfl, .refl _, fun _ _ => rfl⟩

theorem trans (h : r.Extends r') (h' : r'.Extends r'') : r.Extends r'' := by
  refine ⟨h'.id.trans h.id, h.values.trans h'.values, fun key hkey => ?_⟩
  refine (h'.known key fun id v hv => ?_).trans (h.known key hkey)
  exact ⟨(hkey id v hv).1.trans h.id.symm, h.values.has (hkey id v hv).2⟩

end Extends

/-- The descriptor of a value. -/
def descriptor? (r : Reading) (v : ValueId) : Except Fault (Option Descriptor) :=
  r.map.ofValue? r.id r.graph v

theorem Extends.descriptor?_eq (h : r.Extends r') (hv : r.graph.Has v) :
    r'.descriptor? v = r.descriptor? v := by
  obtain ⟨val, hval⟩ := hv.exists_value
  have hkey : PtrKey.ofValue r'.id r'.graph v = PtrKey.ofValue r.id r.graph v := by
    rw [PtrKey.ofValue, PtrKey.ofValue, hval, h.values v val hval, h.id]
  unfold descriptor? PtrMap.ofValue?
  rw [hkey]
  obtain ⟨key, hof⟩ := PtrKey.ofValue_total hv r.id
  rw [hof]
  refine congrArg Except.ok (h.known key fun id w hw => ?_)
  subst hw
  rcases PtrKey.ofValue_eq_ok hof with ⟨_, _, _, heq⟩ | ⟨_, _, heq⟩ | heq <;> cases heq
  exact ⟨rfl, hv⟩

theorem descriptor?_result {i : InstId} {ty : Ty} (hv : r.graph.value v = .ok (.inst i ty)) :
    r.descriptor? v = .ok (r.map.get? (.value r.id v)) := by
  unfold descriptor? PtrMap.ofValue? PtrKey.ofValue
  rw [hv]
  rfl

end Reading

theorem Graph.ne_nextInst {g : Graph} {i : InstId} {inst : Inst} (h : g.inst i = .ok inst) :
    i ≠ g.nextInst := by
  rintro rfl
  exact Nat.lt_irrefl _ (Graph.inst_lt h)

/-! ## Mismatches -/

namespace Inst

variable {g g' : Graph} {inst : Inst} {slot slot' : Nat} {ptr ptr' : ValueId} {elem elem' : Ty}
  {r r' : Reading} {space : AddrSpace}

/-- The instruction accesses an `elem` through `ptr`, its operand `slot`. -/
inductive Accesses (g : Graph) : Inst → Nat → ValueId → Ty → Prop
  | load {ptr : ValueId} {ty : Ty} : Accesses g (.load ptr ty) 0 ptr ty
  | store {value ptr : ValueId} {ty : Ty} :
      g.typeOf value = .ok ty → Accesses g (.store value ptr) 1 ptr ty
  | rmw {op : RmwOp} {ptr value : ValueId} {ty : Ty} :
      g.typeOf value = .ok ty → Accesses g (.rmw op ptr value) 0 ptr ty
  | cmpxchg {ptr expected replacement : ValueId} {ty : Ty} :
      g.typeOf replacement = .ok ty → Accesses g (.cmpxchg ptr expected replacement) 0 ptr ty
  | gep {source result : Ty} {ptr : ValueId} {rest : List ValueId} :
      Accesses g (.gep source result (ptr :: rest)) 0 ptr source

namespace Accesses

theorem pointerSlot (h : inst.Accesses g slot ptr elem) :
    inst.pointerSlot? = some slot ∧ inst.operands[slot]? = some ptr := by
  cases h <;> exact ⟨rfl, rfl⟩

theorem unique (h : inst.Accesses g slot ptr elem) (h' : inst.Accesses g slot' ptr' elem') :
    slot = slot' ∧ ptr = ptr' ∧ elem = elem' := by
  cases h with
  | load | gep => cases h'; exact ⟨rfl, rfl, rfl⟩
  | store hty =>
      cases h' with
      | store hty' => cases hty.symm.trans hty'; exact ⟨rfl, rfl, rfl⟩
  | rmw hty =>
      cases h' with
      | rmw hty' => cases hty.symm.trans hty'; exact ⟨rfl, rfl, rfl⟩
  | cmpxchg hty =>
      cases h' with
      | cmpxchg hty' => cases hty.symm.trans hty'; exact ⟨rfl, rfl, rfl⟩

theorem keeps (hg : g.Keeps g') (h : inst.Accesses g slot ptr elem) :
    inst.Accesses g' slot ptr elem := by
  cases h with
  | load => exact .load
  | store hty => exact .store (hg.typeOf hty)
  | rmw hty => exact .rmw (hg.typeOf hty)
  | cmpxchg hty => exact .cmpxchg (hg.typeOf hty)
  | gep => exact .gep

/-- An access through another pointer is of the same type. -/
theorem setOperand (h : inst.Accesses g slot ptr elem) (v : ValueId) :
    (inst.setOperand slot v).Accesses g slot v elem := by
  cases h with
  | load => exact .load
  | store hty => exact .store hty
  | rmw hty => exact .rmw hty
  | cmpxchg hty => exact .cmpxchg hty
  | @gep _ result _ rest =>
      have hargs : (Inst.gep elem result (ptr :: rest)).setOperand 0 v =
          .gep elem result (v :: rest.mapIdx fun _ w => w) := by
        simp [Inst.setOperand, mapOperands, List.mapIdx_cons]
      rw [hargs]
      exact .gep

end Accesses

/-- What a site binds is what its instruction accesses. -/
theorem accesses_of_binding {site : Site} {binding : Option (ValueId × Ty)}
    (hslot : inst.pointerSlot? = some slot) (hsite : Site.ofInst inst = .ok site)
    (hbinding : site.binding g = .ok binding) :
    ∃ ptr elem, binding = some (ptr, elem) ∧ inst.Accesses g slot ptr elem := by
  cases inst with
  | load ptr ty =>
      cases hslot
      cases hsite
      cases hbinding
      exact ⟨ptr, ty, rfl, .load⟩
  | gep source result args =>
      cases hslot
      cases args with
      | nil => cases hsite
      | cons ptr rest =>
          cases hsite
          cases hbinding
          exact ⟨ptr, source, rfl, .gep⟩
  | store =>
      cases hslot
      cases hsite
      obtain ⟨ty, hty, hrest⟩ := bind_eq_ok_iff.1 hbinding
      cases pure_eq_ok_iff.1 hrest
      exact ⟨_, ty, rfl, .store hty⟩
  | rmw =>
      cases hslot
      cases hsite
      obtain ⟨ty, hty, hrest⟩ := bind_eq_ok_iff.1 hbinding
      cases pure_eq_ok_iff.1 hrest
      exact ⟨_, ty, rfl, .rmw hty⟩
  | cmpxchg =>
      cases hslot
      cases hsite
      obtain ⟨ty, hty, hrest⟩ := bind_eq_ok_iff.1 hbinding
      cases pure_eq_ok_iff.1 hrest
      exact ⟨_, ty, rfl, .cmpxchg hty⟩
  | _ => cases hslot

/-- The instruction accesses memory through `ptr`, its operand `slot`, which is a pointer into
`space`. Either `ptr` has no descriptor, or it is said to point to something else. -/
def Mismatch (r : Reading) (inst : Inst) (slot : Nat) (ptr : ValueId) (space : AddrSpace) : Prop :=
  ∃ elem, inst.Accesses r.graph slot ptr elem ∧ r.graph.typeOf ptr = .ok (.ptr space) ∧
    ∀ d, r.descriptor? ptr = .ok (some d) → d.pointee ≠ elem

/-- The instruction accesses no memory, or does so through a value that is no pointer, or through a
pointer that is known to point to what is accessed. -/
inductive Settled (r : Reading) (inst : Inst) : Prop
  | idle : inst.pointerSlot? = none → Settled r inst
  | number {slot : Nat} {ptr : ValueId} {elem ty : Ty} :
      inst.Accesses r.graph slot ptr elem → r.graph.typeOf ptr = .ok ty → ty.space? = none →
      Settled r inst
  | known {slot : Nat} {ptr : ValueId} {d : Descriptor} :
      inst.Accesses r.graph slot ptr d.pointee → r.descriptor? ptr = .ok (some d) → Settled r inst

theorem Settled.not_mismatch (h : inst.Settled r) : ¬ inst.Mismatch r slot ptr space := by
  rintro ⟨elem, haccess, hty, hother⟩
  cases h with
  | idle hnone => cases hnone.symm.trans haccess.pointerSlot.1
  | number haccess' hty' hspace =>
      obtain ⟨-, rfl, -⟩ := haccess.unique haccess'
      cases hty.symm.trans hty'
      cases hspace
  | known haccess' hd =>
      obtain ⟨-, rfl, rfl⟩ := haccess.unique haccess'
      exact hother _ hd rfl

theorem has_of_descriptor {v : ValueId} {d? : Option Descriptor} (h : r.descriptor? v = .ok d?) :
    r.graph.Has v := by
  obtain ⟨key, hkey, -⟩ := bind_eq_ok_iff.1 h
  obtain ⟨val, hval, -⟩ := bind_eq_ok_iff.1 hkey
  exact Graph.has_of_value hval

theorem has_of_typeOf {v : ValueId} {ty : Ty} (h : g.typeOf v = .ok ty) : g.Has v := by
  obtain ⟨val, hval, -⟩ := Graph.typeOf_eq_ok.1 h
  exact Graph.has_of_value hval

theorem Mismatch.extends (hr : r.Extends r') (h : inst.Mismatch r slot ptr space) :
    inst.Mismatch r' slot ptr space := by
  obtain ⟨elem, haccess, hty, hother⟩ := h
  refine ⟨elem, haccess.keeps hr.values, hr.values.typeOf hty, fun d hd => hother d ?_⟩
  rwa [← hr.descriptor?_eq (has_of_typeOf hty)]

theorem Settled.extends (hr : r.Extends r') (h : inst.Settled r) : inst.Settled r' := by
  cases h with
  | idle hnone => exact .idle hnone
  | number haccess hty hspace =>
      exact .number (haccess.keeps hr.values) (hr.values.typeOf hty) hspace
  | known haccess hd =>
      refine .known (haccess.keeps hr.values) ?_
      rwa [hr.descriptor?_eq (has_of_descriptor hd)]

/-- If the operands of an instruction exist, a mismatch that is there later is there from the
start. -/
theorem Mismatch.of_extends (hr : r.Extends r') (hhas : ∀ v ∈ inst.operands, r.graph.Has v)
    (h : inst.Mismatch r' slot ptr space) : inst.Mismatch r slot ptr space := by
  obtain ⟨elem, haccess, hty, hother⟩ := h
  have htypeOf : ∀ v ∈ inst.operands, r.graph.typeOf v = r'.graph.typeOf v := by
    intro v hv
    rw [Graph.typeOf, Graph.typeOf, hr.values.value_eq (hhas v hv)]
  have hptr : ptr ∈ inst.operands := List.mem_iff_getElem?.2 ⟨slot, haccess.pointerSlot.2⟩
  refine ⟨elem, ?_, (htypeOf ptr hptr).trans hty, fun d hd => hother d ?_⟩
  · cases haccess with
    | load => exact .load
    | store hty => exact .store ((htypeOf _ (by simp [operands])).trans hty)
    | rmw hty => exact .rmw ((htypeOf _ (by simp [operands])).trans hty)
    | cmpxchg hty => exact .cmpxchg ((htypeOf _ (by simp [operands])).trans hty)
    | gep => exact .gep
  · rwa [hr.descriptor?_eq (hhas ptr hptr)]

end Inst

end Pointee
