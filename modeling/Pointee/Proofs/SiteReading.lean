import Pointee.Site
import Pointee.Proofs.MarkingFrame

/-!
# Reading sites

The site of an instruction can be read if the instruction, when it computes an address, has a base.
What the site says about pointers is about the operands of the instruction.
-/

namespace Pointee

/-- Only operands pass through an instruction. -/
theorem Site.passThrough_sublist {inst : Inst} {site : Site} (h : Site.ofInst inst = .ok site) :
    site.passThrough.Sublist inst.operands := by
  cases inst with
  | phi | alloca | load | store | rmw | cmpxchg | call | unary | binary | jump | branch | ret =>
      cases h
      simp [passThrough, Inst.operands]
  | select cond onTrue onFalse =>
      cases h
      exact List.sublist_cons_self cond _
  | gep source result args =>
      cases args with
      | nil => cases h
      | cons => cases h; simp [passThrough]
  | cast op arg ty => cases op <;> cases h <;> simp [passThrough, Inst.operands]

theorem Site.ofInst_total {inst : Inst} (h : ¬ inst.lacksBase = true) :
    ∃ site, Site.ofInst inst = .ok site := by
  cases inst with
  | gep source result args =>
      cases args with
      | nil => exact absurd rfl h
      | cons => exact ⟨_, rfl⟩
  | cast op arg ty => cases op <;> exact ⟨_, rfl⟩
  | _ => exact ⟨_, rfl⟩

/-- What a site binds can be read if its operands exist, and it is one of them. -/
theorem Site.binding_total {g : Graph} {inst : Inst} {site : Site}
    (h : Site.ofInst inst = .ok site) (hhas : ∀ v ∈ inst.operands, g.Has v) :
    ∃ b, site.binding g = .ok b ∧ ∀ p e, b = some (p, e) → p ∈ inst.operands := by
  have hwrites : ∀ ptr value : ValueId, ptr ∈ inst.operands → value ∈ inst.operands →
      ∃ b, (do return some (ptr, ← g.typeOf value) : Except Fault _) = .ok b ∧
        ∀ p e, b = some (p, e) → p ∈ inst.operands := by
    intro ptr value hptr hvalue
    obtain ⟨val, hval⟩ := (hhas value hvalue).exists_value
    refine ⟨_, bind_eq_ok_iff.2 ⟨val.ty, Graph.typeOf_eq_ok.2 ⟨val, hval, rfl⟩, rfl⟩, ?_⟩
    intro p e heq
    cases heq
    exact hptr
  cases inst with
  | load ptr ty =>
      cases h
      refine ⟨_, rfl, fun p e heq => ?_⟩
      cases heq
      exact List.mem_singleton_self ptr
  | store value ptr =>
      cases h
      exact hwrites ptr value (by simp [Inst.operands]) (by simp [Inst.operands])
  | rmw op ptr value =>
      cases h
      exact hwrites ptr value (by simp [Inst.operands]) (by simp [Inst.operands])
  | cmpxchg ptr expected replacement =>
      cases h
      exact hwrites ptr replacement (by simp [Inst.operands]) (by simp [Inst.operands])
  | gep source result args =>
      cases args with
      | nil => cases h
      | cons ptr rest =>
          cases h
          refine ⟨_, rfl, fun p e heq => ?_⟩
          cases heq
          exact List.mem_cons_self
  | cast op arg ty => cases op <;> cases h <;> exact ⟨_, rfl, fun p e heq => by cases heq⟩
  | _ => cases h; exact ⟨_, rfl, fun p e heq => by cases heq⟩

/-- The pointer that a binding site accesses memory through is its pointer operand. -/
theorem Site.pointerSlot_of_binding {g : Graph} {inst : Inst} {site : Site} {ptr : ValueId}
    {elem : Ty} (hsite : Site.ofInst inst = .ok site)
    (hbinding : site.binding g = .ok (some (ptr, elem))) :
    ∃ slot, inst.pointerSlot? = some slot ∧ inst.operands[slot]? = some ptr := by
  cases inst with
  | load p ty =>
      cases hsite
      cases hbinding
      exact ⟨0, rfl, rfl⟩
  | store val p | rmw op p val | cmpxchg p e val =>
      cases hsite
      obtain ⟨ty, -, hrest⟩ := bind_eq_ok_iff.1 hbinding
      cases pure_eq_ok_iff.1 hrest
      exact ⟨_, rfl, rfl⟩
  | gep source result args =>
      cases args with
      | nil => cases hsite
      | cons p rest =>
          cases hsite
          cases hbinding
          exact ⟨0, rfl, rfl⟩
  | cast op arg ty => cases op <;> cases hsite <;> cases hbinding
  | _ => cases hsite; cases hbinding

namespace Graph

variable {g : Graph} {v : ValueId} {space : AddrSpace}

theorem spaceOf_eq_ok {space : Option AddrSpace} :
    g.spaceOf v = .ok space ↔ ∃ val, g.value v = .ok val ∧ val.ty.space? = space := by
  unfold spaceOf typeOf
  cases g.value v <;> simp

theorem Closed.has_operand (h : g.Closed) {i : InstId} {inst : Inst} (hinst : g.inst i = .ok inst) :
    ∀ v ∈ inst.operands, g.Has v := by
  intro v hv
  obtain ⟨slot, hslot⟩ := List.mem_iff_getElem?.1 hv
  exact h i slot v (operand_eq_ok.2 ⟨inst, hinst, hslot⟩)

theorem site_eq_ok {i : InstId} {site : Site} :
    g.site i = .ok site ↔ ∃ inst, g.inst i = .ok inst ∧ Site.ofInst inst = .ok site :=
  bind_eq_ok_iff

theorem inst_of_isMarker {i : InstId} (h : g.isMarker i = .ok true) :
    ∃ arg ty, g.inst i = .ok (.marker arg ty) := by
  obtain ⟨inst, hinst, hrest⟩ := bind_eq_ok_iff.1 h
  split at hrest
  · exact ⟨_, _, hinst⟩
  · cases hrest

/-- A marker says nothing about pointers. -/
theorem site_of_isMarker {i : InstId} (h : g.isMarker i = .ok true) : g.site i = .ok .other := by
  obtain ⟨arg, ty, hinst⟩ := inst_of_isMarker h
  exact site_eq_ok.2 ⟨_, hinst, rfl⟩

end Graph

end Pointee
