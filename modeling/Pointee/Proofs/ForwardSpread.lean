import Mathlib.Data.Finset.Card
import Pointee.Proofs.BackwardWalks
import Pointee.Proofs.Recording

/-!
# Forward spreading

The forward phase takes descriptors from seeds through pass-through sites to all that they flow
into. `Function.Traced` says that a value has its pointee from a seed, by a chain of values that
point to the same. A site that got no descriptor is `Function.Undecided`: none of its operands has
one, or two of them disagree. The phase visits the consumers of queued values; `Waiting` is what
makes it complete: a site that could still decide has an operand in the queue. A value is queued
again only when it is recorded, so the queue runs empty, in every graph.
-/

namespace Pointee

namespace Function

variable {f : Function} {id : FuncId} {v w r : ValueId} {t : Ty} {map map' : PtrMap}
  {queue queue' operands : List ValueId} {i user : InstId} {S : ValueId → Ty → Prop}
  {s s' : List ValueId × PtrMap} {d : Descriptor}

/-! ## What a map says about values -/

/-- The map says that the pointer `v` points to a `t`. -/
def Describes (f : Function) (id : FuncId) (map : PtrMap) (v : ValueId) (t : Ty) : Prop :=
  ∃ space, map.ofValue? id f.graph v = .ok (some ⟨t, space⟩)

/-- A chain of values that all point to a `t` leads from `v` back to a seed, each passed through by
the instruction that defines the one before it. -/
inductive Traced (f : Function) (id : FuncId) (S : ValueId → Ty → Prop) (map : PtrMap) :
    ValueId → Ty → Prop
  | seed {v : ValueId} {t : Ty} : f.Describes id map v t → S v t → Traced f id S map v t
  | through {v w : ValueId} {t : Ty} : f.Describes id map v t → f.PassesThrough v w →
      Traced f id S map w t → Traced f id S map v t

/-- The instruction `i` passes `operands` through to the pointer `r`, which it defines. -/
def Merges (f : Function) (i : InstId) (r : ValueId) (operands : List ValueId) : Prop :=
  ∃ site space, f.graph.result? i = some r ∧ f.graph.spaceOf r = .ok (some space) ∧
    f.graph.site i = .ok site ∧ site.passThrough = operands

/-- None of the operands has a descriptor, or two of them disagree. -/
def Undecided (f : Function) (id : FuncId) (map : PtrMap) (operands : List ValueId) : Prop :=
  (∀ w ∈ operands, ∀ t, ¬ f.Describes id map w t) ∨
    ∃ w ∈ operands, ∃ w' ∈ operands, ∃ t t', t ≠ t' ∧ f.Describes id map w t ∧
      f.Describes id map w' t'

theorem ofValue?_eq_ok {d? : Option Descriptor} : map.ofValue? id f.graph v = .ok d? ↔
    ∃ key, PtrKey.ofValue id f.graph v = .ok key ∧ map.get? key = d? := by
  unfold PtrMap.ofValue?
  rw [bind_eq_ok_iff]
  simp only [pure_eq_ok_iff]

theorem describes_of_ofValue? (h : map.ofValue? id f.graph v = .ok (some d)) :
    f.Describes id map v d.pointee := ⟨d.space, h⟩

theorem not_describes_of_ofValue? (h : map.ofValue? id f.graph v = .ok none) :
    ¬ f.Describes id map v t := by
  rintro ⟨space, hsome⟩
  cases h.symm.trans hsome

/-- A value that is computed at run time is described by its own entry. -/
theorem describes_of_get? {val : Value} (hv : f.graph.value v = .ok val)
    (hlocal : val.isLocal = true) (hget : map.get? (.value id v) = some d) :
    f.Describes id map v d.pointee := by
  have hkey : PtrKey.ofValue id f.graph v = .ok (.value id v) := by
    unfold PtrKey.ofValue
    rw [hv]
    cases val with
    | inst | arg => rfl
    | _ => cases hlocal
  exact ⟨d.space, ofValue?_eq_ok.2 ⟨_, hkey, hget⟩⟩

theorem Describes.mono (h : f.Describes id map v t)
    (hkept : ∀ key d, map.get? key = some d → map'.get? key = some d) :
    f.Describes id map' v t := by
  obtain ⟨space, h⟩ := h
  obtain ⟨key, hkey, hget⟩ := ofValue?_eq_ok.1 h
  exact ⟨space, ofValue?_eq_ok.2 ⟨key, hkey, hkept key _ hget⟩⟩

theorem Traced.describes (h : f.Traced id S map v t) : f.Describes id map v t := by
  cases h with
  | seed hdescribes _ => exact hdescribes
  | through hdescribes _ _ => exact hdescribes

theorem Traced.mono (h : f.Traced id S map v t)
    (hkept : ∀ key d, map.get? key = some d → map'.get? key = some d) :
    f.Traced id S map' v t := by
  induction h with
  | seed hdescribes hseed => exact .seed (hdescribes.mono hkept) hseed
  | through hdescribes hpass _ ih => exact .through (hdescribes.mono hkept) hpass ih

theorem Merges.unique {r' : ValueId} {operands' : List ValueId} (h : f.Merges i r operands)
    (h' : f.Merges i r' operands') : r = r' ∧ operands = operands' := by
  obtain ⟨site, space, hresult, -, hsite, rfl⟩ := h
  obtain ⟨site', space', hresult', -, hsite', rfl⟩ := h'
  cases hresult.symm.trans hresult'
  cases hsite.symm.trans hsite'
  exact ⟨rfl, rfl⟩

/-- What a site merges passes through to its result. -/
theorem Merges.passesThrough (hf : f.Sound) (h : f.Merges i r operands) (hw : w ∈ operands) :
    f.PassesThrough r w := by
  obtain ⟨site, space, hresult, -, hsite, rfl⟩ := h
  obtain ⟨ty, hval⟩ := (hf.graph.result_iff i r).1 hresult
  exact ⟨i, ty, site, hval, hsite, hw⟩

/-- A site consumes what it merges. -/
theorem Merges.mem_usersOf (hf : f.Sound) (h : f.Merges i r operands) (hw : w ∈ operands) :
    i ∈ f.graph.usersOf w := by
  obtain ⟨site, space, -, -, hsite, rfl⟩ := h
  obtain ⟨inst, hinst, hofInst⟩ := Graph.site_eq_ok.1 hsite
  exact (hf.graph.mem_users w i).2
    ⟨inst, hinst, (Site.passThrough_sublist hofInst).subset hw⟩

/-! ## Agreement of operands -/

theorem agreed_eq_some {found : Option Descriptor}
    (h : f.agreed id map found operands = .ok (some d)) :
    found = some d ∨ ∃ w ∈ operands, f.Describes id map w d.pointee := by
  induction operands generalizing found with
  | nil => exact .inl (Except.ok.inj h)
  | cons w rest ih =>
      -- What is found among the rest is found among all.
      have hrest : ∀ {found}, f.agreed id map found rest = .ok (some d) →
          found = some d ∨ ∃ w' ∈ w :: rest, f.Describes id map w' d.pointee := by
        intro found h
        rcases ih h with hfound | ⟨w', hw', hdescribes⟩
        · exact .inl hfound
        · exact .inr ⟨w', List.mem_cons_of_mem w hw', hdescribes⟩
      obtain ⟨d?, hd?, h⟩ := bind_eq_ok_iff.1 h
      match d?, found with
      | none, found => exact hrest h
      | some d', none =>
          rcases hrest h with hfound | hlater
          · cases hfound
            exact .inr ⟨w, List.mem_cons_self, describes_of_ofValue? hd?⟩
          · exact .inr hlater
      | some d', some first =>
          dsimp only at h
          split at h
          · exact hrest h
          · cases pure_eq_ok_iff.1 h

/-- Operands that agree on nothing are undecided, together with what was found before. -/
theorem agreed_eq_none {found : Option Descriptor} (h : f.agreed id map found operands = .ok none) :
    (found = none ∧ ∀ w ∈ operands, ∀ t, ¬ f.Describes id map w t) ∨
      ∃ w ∈ operands, ∃ t t', t ≠ t' ∧ f.Describes id map w t ∧
        ((∃ first, found = some first ∧ first.pointee = t') ∨
          ∃ w' ∈ operands, f.Describes id map w' t') := by
  induction operands generalizing found with
  | nil => exact .inl ⟨Except.ok.inj h, by simp⟩
  | cons w rest ih =>
      obtain ⟨d?, hd?, h⟩ := bind_eq_ok_iff.1 h
      match d?, found with
      | none, found =>
          rcases ih h with ⟨hfound, hnone⟩ | ⟨w', hw', t, t', hne, hdescribes, hother⟩
          · exact .inl ⟨hfound, List.forall_mem_cons.2
              ⟨fun t => not_describes_of_ofValue? hd?, hnone⟩⟩
          · refine .inr ⟨w', List.mem_cons_of_mem w hw', t, t', hne, hdescribes, ?_⟩
            exact hother.imp_right fun ⟨w'', hw'', h'⟩ => ⟨w'', List.mem_cons_of_mem w hw'', h'⟩
      | some d, none =>
          rcases ih h with ⟨hfound, -⟩ | ⟨w', hw', t, t', hne, hdescribes, hother⟩
          · cases hfound
          · refine .inr ⟨w', List.mem_cons_of_mem w hw', t, t', hne, hdescribes, .inr ?_⟩
            rcases hother with ⟨first, hfirst, rfl⟩ | ⟨w'', hw'', h'⟩
            · cases hfirst
              exact ⟨w, List.mem_cons_self, describes_of_ofValue? hd?⟩
            · exact ⟨w'', List.mem_cons_of_mem w hw'', h'⟩
      | some d, some first =>
          dsimp only at h
          split at h
          · rcases ih h with ⟨hfound, -⟩ | ⟨w', hw', t, t', hne, hdescribes, hother⟩
            · cases hfound
            · refine .inr ⟨w', List.mem_cons_of_mem w hw', t, t', hne, hdescribes, ?_⟩
              exact hother.imp_right fun ⟨w'', hw'', h'⟩ => ⟨w'', List.mem_cons_of_mem w hw'', h'⟩
          · next hne =>
              exact .inr ⟨w, List.mem_cons_self, d.pointee, first.pointee, Ne.symm hne,
                describes_of_ofValue? hd?, .inl ⟨first, rfl, rfl⟩⟩

theorem undecided_of_agreed (h : f.agreed id map none operands = .ok none) :
    f.Undecided id map operands := by
  rcases agreed_eq_none h with ⟨-, hnone⟩ | ⟨w, hw, t, t', hne, hdescribes, hother⟩
  · exact .inl hnone
  · rcases hother with ⟨first, hfirst, -⟩ | ⟨w', hw', hdescribes'⟩
    · cases hfirst
    · exact .inr ⟨w, hw, w', hw', t, t', hne, hdescribes, hdescribes'⟩

theorem agreed_total (hhas : ∀ w ∈ operands, f.graph.Has w) (found : Option Descriptor) :
    ∃ d?, f.agreed id map found operands = .ok d? := by
  induction operands generalizing found with
  | nil => exact ⟨found, rfl⟩
  | cons w rest ih =>
      rw [List.forall_mem_cons] at hhas
      obtain ⟨key, hkey⟩ := PtrKey.ofValue_total hhas.1 id
      have hread : map.ofValue? id f.graph w = .ok (map.get? key) :=
        ofValue?_eq_ok.2 ⟨key, hkey, rfl⟩
      rw [agreed, hread]
      dsimp only [bind, Except.bind]
      match map.get? key, found with
      | none, found => exact ih hhas.2 found
      | some d, none => exact ih hhas.2 (some d)
      | some d, some first =>
          dsimp only
          split
          · exact ih hhas.2 (some first)
          · exact ⟨none, rfl⟩

theorem flowing_of_site {site : Site} (hsite : f.graph.site user = .ok site) :
    f.flowing id map user v =
      if v ∈ site.passThrough then f.agreed id map none site.passThrough else .ok none := by
  unfold flowing
  rw [hsite]
  rfl

/-! ## Rounds of the phase -/

/-- A round that records and queues `r`, a pointer without a descriptor so far, in its own address
space. -/
structure Gains (f : Function) (id : FuncId) (r : ValueId) (d : Descriptor)
    (s s' : List ValueId × PtrMap) : Prop where
  space : f.graph.spaceOf r = .ok (some d.space)
  new : s.2.get? (.value id r) = none
  queue : s'.1 = s.1 ++ [r]
  map : s'.2 = s.2.insert (.value id r) d

namespace Gains

theorem addsValues (h : f.Gains id r d s s') : PtrMap.AddsValues [id] s.2 s'.2 := by
  rw [h.map]
  exact .insert id s.2 r d

theorem get? (h : f.Gains id r d s s') (key : PtrKey) :
    s'.2.get? key = if key = .value id r then some d else s.2.get? key := by
  rw [h.map, PtrMap.get?_insert, h.new, Option.none_or]

/-- Exactly the new pointer is described in addition. -/
theorem describes_iff (h : f.Gains id r d s s') {ty : Ty}
    (hr : f.graph.value r = .ok (.inst i ty)) :
    f.Describes id s'.2 v t ↔ f.Describes id s.2 v t ∨ v = r ∧ t = d.pointee := by
  constructor
  · rintro ⟨space, hv⟩
    obtain ⟨key, hkey, hget⟩ := ofValue?_eq_ok.1 hv
    rw [h.get?] at hget
    split at hget
    · next heq =>
        subst heq
        cases hget
        exact .inr ⟨PtrKey.eq_of_ofValue hkey, rfl⟩
    · exact .inl ⟨space, ofValue?_eq_ok.2 ⟨key, hkey, hget⟩⟩
  · rintro (hv | ⟨rfl, rfl⟩)
    · exact hv.mono h.addsValues.kept
    · refine describes_of_get? hr rfl ?_
      rw [h.get?, if_pos rfl]

end Gains

theorem seedInst_eq_ok (h : f.seedInst id s i = .ok s') :
    s' = s ∨ ∃ r d site, f.graph.result? i = some r ∧ f.graph.site i = .ok site ∧
      seedPointee? site = some d.pointee ∧ f.Gains id r d s s' := by
  obtain ⟨queue, map⟩ := s
  unfold seedInst at h
  dsimp only at h
  split at h
  · exact .inl (pure_eq_ok_iff.1 h).symm
  · next r hresult =>
      obtain ⟨space?, hspace, h⟩ := bind_eq_ok_iff.1 h
      cases space? with
      | none => exact .inl (pure_eq_ok_iff.1 h).symm
      | some space =>
          obtain ⟨site, hsite, h⟩ := bind_eq_ok_iff.1 h
          split at h
          · exact .inl (pure_eq_ok_iff.1 h).symm
          · next t hseed =>
              split at h
              · exact .inl (pure_eq_ok_iff.1 h).symm
              · next hnew =>
                  cases pure_eq_ok_iff.1 h
                  refine .inr ⟨r, ⟨t, space⟩, site, hresult, hsite, hseed, hspace, ?_, rfl, rfl⟩
                  simpa [PtrMap.contains] using hnew

/-- What a round at a consumer of `v` did: nothing, and then `v` does not decide the consumer or its
result has a descriptor; or the result got the descriptor of an operand. -/
theorem spreadTo_eq_ok (h : f.spreadTo id v s user = .ok s') :
    (s' = s ∧ ∀ r operands, f.Merges user r operands → v ∈ operands →
      s.2.get? (.value id r) = none → f.Undecided id s.2 operands) ∨
    ∃ r operands w d, f.Merges user r operands ∧ w ∈ operands ∧ f.Describes id s.2 w d.pointee ∧
      f.Gains id r d s s' := by
  obtain ⟨queue, map⟩ := s
  unfold spreadTo at h
  dsimp only at h
  split at h
  · next hresult =>
      refine .inl ⟨(pure_eq_ok_iff.1 h).symm, fun r operands ⟨_, _, hresult', _⟩ => ?_⟩
      cases hresult.symm.trans hresult'
  · next r hresult =>
      obtain ⟨space?, hspace, h⟩ := bind_eq_ok_iff.1 h
      cases space? with
      | none =>
          refine .inl ⟨(pure_eq_ok_iff.1 h).symm, fun r' operands hmerges => ?_⟩
          obtain ⟨_, _, hresult', hspace', _⟩ := hmerges
          cases hresult.symm.trans hresult'
          cases hspace.symm.trans hspace'
      | some space =>
          dsimp only at h
          split at h
          · next hknown =>
              refine .inl ⟨(pure_eq_ok_iff.1 h).symm, fun r' operands hmerges _ hnone => ?_⟩
              obtain ⟨_, _, hresult', _⟩ := hmerges
              cases hresult.symm.trans hresult'
              rw [PtrMap.contains, hnone] at hknown
              cases hknown
          · next hnew =>
              obtain ⟨d?, hflowing, h⟩ := bind_eq_ok_iff.1 h
              obtain ⟨site, hsite, -⟩ := bind_eq_ok_iff.1 hflowing
              rw [flowing_of_site hsite] at hflowing
              have hmerges : f.Merges user r site.passThrough :=
                ⟨site, space, hresult, hspace, hsite, rfl⟩
              cases d? with
              | none =>
                  refine .inl ⟨(pure_eq_ok_iff.1 h).symm, fun r' operands hmerges' hv _ => ?_⟩
                  obtain ⟨-, rfl⟩ := hmerges.unique hmerges'
                  rw [if_pos hv] at hflowing
                  exact undecided_of_agreed hflowing
              | some d =>
                  cases pure_eq_ok_iff.1 h
                  split at hflowing
                  · rcases agreed_eq_some hflowing with hfound | ⟨w, hw, hdescribes⟩
                    · cases hfound
                    · refine .inr ⟨r, _, w, d.inSpace space, hmerges, hw, hdescribes, hspace, ?_,
                        rfl, rfl⟩
                      simpa [PtrMap.contains] using hnew
                  · cases hflowing

theorem seedInst_addsValues (h : f.seedInst id s i = .ok s') :
    PtrMap.AddsValues [id] s.2 s'.2 := by
  rcases seedInst_eq_ok h with rfl | ⟨r, d, site, -, -, -, hgains⟩
  · exact .refl [id] _
  · exact hgains.addsValues

theorem spreadTo_addsValues (h : f.spreadTo id v s user = .ok s') :
    PtrMap.AddsValues [id] s.2 s'.2 := by
  rcases spreadTo_eq_ok h with ⟨rfl, -⟩ | ⟨r, operands, w, d, -, -, -, hgains⟩
  · exact .refl [id] _
  · exact hgains.addsValues

/-! ## The queue runs empty -/

/-- The loop over the queue, without a bound on its steps, ends with the given outcome. -/
inductive Spreads (f : Function) (id : FuncId) :
    List ValueId → PtrMap → Except Fault PtrMap → Prop
  | done {map : PtrMap} : Spreads f id [] map (.ok map)
  | next {v : ValueId} {queue queue' : List ValueId} {map map' : PtrMap}
      {out : Except Fault PtrMap} :
      (f.graph.usersOf v).foldlM (f.spreadTo id v) (queue, map) = .ok (queue', map') →
      Spreads f id queue' map' out → Spreads f id (v :: queue) map out
  | fault {v : ValueId} {queue : List ValueId} {map : PtrMap} {fault : Fault} :
      (f.graph.usersOf v).foldlM (f.spreadTo id v) (queue, map) = .error fault →
      Spreads f id (v :: queue) map (.error fault)

/-- The forward phase, without a bound on its steps, ends with the given outcome. -/
inductive Forwards (f : Function) (id : FuncId) (map : PtrMap) : Except Fault PtrMap → Prop
  | spread {queue : List ValueId} {seeded : PtrMap} {out : Except Fault PtrMap} :
      f.insts.foldlM (f.seedInst id) (f.usedGlobals ++ f.knownArgs id map, map) =
        .ok (queue, seeded) →
      f.Spreads id queue seeded out → Forwards f id map out
  | fault {fault : Fault} :
      f.insts.foldlM (f.seedInst id) (f.usedGlobals ++ f.knownArgs id map, map) = .error fault →
      Forwards f id map (.error fault)

/-- How many values have no descriptor. -/
def unrecorded (f : Function) (id : FuncId) (map : PtrMap) : Nat :=
  ((Finset.range f.graph.values.size).filter fun k => map.get? (.value id ⟨k⟩) = none).card

theorem Gains.unrecorded (h : f.Gains id r d s s') :
    f.unrecorded id s'.2 + 1 = f.unrecorded id s.2 := by
  obtain ⟨val, hval, -⟩ := Graph.spaceOf_eq_ok.1 h.space
  have hmem : r.index ∈ (Finset.range f.graph.values.size).filter
      fun k => s.2.get? (.value id ⟨k⟩) = none :=
    Finset.mem_filter.2 ⟨Finset.mem_range.2 (Graph.has_of_value hval), h.new⟩
  have herase : ((Finset.range f.graph.values.size).filter
      fun k => s'.2.get? (.value id ⟨k⟩) = none) =
      ((Finset.range f.graph.values.size).filter
        fun k => s.2.get? (.value id ⟨k⟩) = none).erase r.index := by
    ext k
    have hkey : PtrKey.value id ⟨k⟩ = .value id r ↔ k = r.index := by
      rw [PtrKey.value.injEq, ValueId.ext_iff]
      simp
    rw [Finset.mem_erase, Finset.mem_filter, Finset.mem_filter, h.get?]
    by_cases hk : k = r.index
    · simp [hk]
    · rw [if_neg (fun heq => hk (hkey.1 heq))]
      simp [hk]
  rw [Function.unrecorded, Function.unrecorded, herase, Finset.card_erase_add_one hmem]

/-- A visit queues as many values as it records. -/
theorem spreadTo_measure (h : f.spreadTo id v s user = .ok s') :
    s'.1.length + f.unrecorded id s'.2 = s.1.length + f.unrecorded id s.2 := by
  rcases spreadTo_eq_ok h with ⟨rfl, -⟩ | ⟨r, operands, w, d, -, -, -, hgains⟩
  · rfl
  · have hrecorded := hgains.unrecorded
    rw [hgains.queue, List.length_append, List.length_singleton]
    omega

/-- The bound on the steps is never reached. -/
theorem spreads_spread {steps : Nat} (hsteps : queue.length + f.unrecorded id map ≤ steps) :
    f.Spreads id queue map (f.spread id steps queue map) := by
  induction steps generalizing queue map with
  | zero =>
      cases queue with
      | nil => exact .done
      | cons v queue => simp at hsteps
  | succ steps ih =>
      cases queue with
      | nil => exact .done
      | cons v queue =>
          cases hround : (f.graph.usersOf v).foldlM (f.spreadTo id v) (queue, map) with
          | error fault =>
              rw [spread, hround]
              exact .fault hround
          | ok s =>
              obtain ⟨queue', map'⟩ := s
              rw [spread, hround]
              refine .next hround (ih ?_)
              have hkept := foldlM_invariant (P := fun s => s.1.length + f.unrecorded id s.2 =
                queue.length + f.unrecorded id map)
                (fun s s' user _ hs hstep => (spreadTo_measure hstep).trans hs) rfl hround
              rw [List.length_cons] at hsteps
              show queue'.length + f.unrecorded id map' ≤ steps
              replace hkept : queue'.length + f.unrecorded id map' =
                queue.length + f.unrecorded id map := hkept
              omega

theorem forward_eq (f : Function) (id : FuncId) (map : PtrMap) : f.forward id map =
    f.insts.foldlM (f.seedInst id) (f.usedGlobals ++ f.knownArgs id map, map) >>= fun s =>
      f.spread id (s.1.length + f.graph.values.size) s.1 s.2 := rfl

theorem forwards_forward (f : Function) (id : FuncId) (map : PtrMap) :
    f.Forwards id map (f.forward id map) := by
  rw [forward_eq]
  cases hseeds : f.insts.foldlM (f.seedInst id) (f.usedGlobals ++ f.knownArgs id map, map) with
  | error fault => exact .fault hseeds
  | ok s =>
      obtain ⟨queue, seeded⟩ := s
      refine .spread hseeds (spreads_spread ?_)
      have hcard : f.unrecorded id seeded ≤ f.graph.values.size := by
        refine (Finset.card_filter_le _ _).trans ?_
        rw [Finset.card_range]
      exact Nat.add_le_add_left hcard _

/-- What a visit to all consumers of a queued value keeps holds at the end. -/
theorem Spreads.invariant {P : List ValueId → PtrMap → Prop}
    (hstep : ∀ v queue map queue' map', P (v :: queue) map →
      (f.graph.usersOf v).foldlM (f.spreadTo id v) (queue, map) = .ok (queue', map') →
      P queue' map')
    (h : f.Spreads id queue map (.ok map')) (hstart : P queue map) : P [] map' := by
  generalize hout : Except.ok map' = out at h
  induction h with
  | done =>
      cases hout
      exact hstart
  | next hround _ ih => exact ih (hstep _ _ _ _ _ hstart hround) hout
  | fault => cases hout

/-- The phase records values of its own function only. -/
theorem forward_addsValues (h : f.forward id map = .ok map') : PtrMap.AddsValues [id] map map' := by
  have hforwards := f.forwards_forward id map
  rw [h] at hforwards
  cases hforwards with
  | @spread queue seeded _ hseeds hspreads =>
      refine hspreads.invariant (P := fun _ mid => PtrMap.AddsValues [id] map mid) ?_ ?_
      · intro v queue mid queue' mid' hmid hround
        exact hmid.trans (PtrMap.AddsValues.foldlM (p := Prod.snd)
          (fun s s' user _ hstep => spreadTo_addsValues hstep) hround)
      · exact PtrMap.AddsValues.foldlM (p := Prod.snd)
          (fun s s' i _ hstep => seedInst_addsValues hstep) hseeds

/-! ## Every descriptor comes from a seed -/

/-- Every described value is traced to a seed. The values that are recorded by number are described
in their own address spaces. -/
structure Flows (f : Function) (id : FuncId) (S : ValueId → Ty → Prop) (map : PtrMap) : Prop where
  traced : ∀ v t, f.Describes id map v t → f.Traced id S map v t
  own : ∀ v d, map.get? (.value id v) = some d →
    f.Describes id map v d.pointee ∧ f.graph.spaceOf v = .ok (some d.space)

/-- A new descriptor must come from a seed or from what is passed through. -/
theorem Flows.gains (h : f.Flows id S s.2) (hgains : f.Gains id r d s s') {ty : Ty}
    (hr : f.graph.value r = .ok (.inst i ty))
    (hreason : S r d.pointee ∨ ∃ w, f.PassesThrough r w ∧ f.Describes id s.2 w d.pointee) :
    f.Flows id S s'.2 := by
  have hkept := hgains.addsValues.kept
  refine ⟨fun v t hv => ?_, fun v d' hd' => ?_⟩
  · rcases (hgains.describes_iff hr).1 hv with hold | ⟨rfl, rfl⟩
    · exact (h.traced v t hold).mono hkept
    · rcases hreason with hseed | ⟨w, hpass, hdescribes⟩
      · exact .seed hv hseed
      · exact .through hv hpass ((h.traced w _ hdescribes).mono hkept)
  · rw [hgains.get?] at hd'
    split at hd'
    · next heq =>
        cases heq
        cases hd'
        exact ⟨(hgains.describes_iff hr).2 (.inr ⟨rfl, rfl⟩), hgains.space⟩
    · obtain ⟨hdescribes, hspace⟩ := h.own v d' hd'
      exact ⟨hdescribes.mono hkept, hspace⟩

theorem Flows.spreadTo (hf : f.Sound) (h : f.Flows id S s.2)
    (hround : f.spreadTo id v s user = .ok s') : f.Flows id S s'.2 := by
  rcases spreadTo_eq_ok hround with ⟨rfl, -⟩ | ⟨r, operands, w, d, hmerges, hw, hdescribes, hgains⟩
  · exact h
  · obtain ⟨i, ty, site, hr, -⟩ := hmerges.passesThrough hf hw
    exact h.gains hgains hr (.inr ⟨w, hmerges.passesThrough hf hw, hdescribes⟩)

/-! ## Every site is decided that can be -/

/-- A site whose result has no descriptor is undecided, or an operand of it is queued, or it has yet
to be visited as a consumer of `v`. -/
def Waiting (f : Function) (id : FuncId) (v : ValueId) (todo : List InstId)
    (s : List ValueId × PtrMap) : Prop :=
  ∀ i r operands, f.Merges i r operands → s.2.get? (.value id r) = none →
    f.Undecided id s.2 operands ∨ (∃ w ∈ operands, w ∈ s.1) ∨ v ∈ operands ∧ i ∈ todo

/-- Operands that are undecided stay so, unless the pointer that is recorded is one of them. -/
theorem Undecided.gains (h : f.Undecided id s.2 operands) (hgains : f.Gains id r d s s') {ty : Ty}
    (hr : f.graph.value r = .ok (.inst i ty)) : f.Undecided id s'.2 operands ∨ r ∈ operands := by
  rcases h with hnone | ⟨w, hw, w', hw', t, t', hne, hdescribes, hdescribes'⟩
  · by_cases hmem : r ∈ operands
    · exact .inr hmem
    · refine .inl (.inl fun w hw t hdescribes => ?_)
      rcases (hgains.describes_iff hr).1 hdescribes with hold | ⟨rfl, -⟩
      · exact hnone w hw t hold
      · exact hmem hw
  · have hkept := hgains.addsValues.kept
    exact .inl (.inr ⟨w, hw, w', hw', t, t', hne, hdescribes.mono hkept, hdescribes'.mono hkept⟩)

/-- A visit to a consumer leaves one consumer less to visit. -/
theorem Waiting.spreadTo (hf : f.Sound) {todo : List InstId}
    (h : f.Waiting id v (user :: todo) s) (hround : f.spreadTo id v s user = .ok s') :
    f.Waiting id v todo s' := by
  intro i r operands hmerges hnone
  rcases spreadTo_eq_ok hround with
    ⟨rfl, hvisited⟩ | ⟨r₀, operands₀, w₀, d, hmerges₀, hw₀, -, hgains⟩
  · rcases h i r operands hmerges hnone with hundecided | hqueued | ⟨hv, hi⟩
    · exact .inl hundecided
    · exact .inr (.inl hqueued)
    · rcases List.mem_cons.1 hi with rfl | hi
      · exact .inl (hvisited r operands hmerges hv hnone)
      · exact .inr (.inr ⟨hv, hi⟩)
  · obtain ⟨_, _, _, hr₀, -⟩ := hmerges₀.passesThrough hf hw₀
    rw [hgains.get?] at hnone
    split at hnone
    · cases hnone
    · next hne =>
        rcases h i r operands hmerges hnone with hundecided | ⟨w, hw, hqueued⟩ | ⟨hv, hi⟩
        · rcases hundecided.gains hgains hr₀ with hundecided | hmem
          · exact .inl hundecided
          · exact .inr (.inl ⟨r₀, hmem, by simp [hgains.queue]⟩)
        · exact .inr (.inl ⟨w, hw, by simp [hgains.queue, hqueued]⟩)
        · rcases List.mem_cons.1 hi with rfl | hi
          · -- The visited consumer has its descriptor now.
            exact absurd (congrArg _ (hmerges.unique hmerges₀).1) hne
          · exact .inr (.inr ⟨hv, hi⟩)

theorem Waiting.foldlM (hf : f.Sound) {todo : List InstId} (h : f.Waiting id v todo s)
    (hrounds : todo.foldlM (f.spreadTo id v) s = .ok s') : f.Waiting id v [] s' := by
  induction todo generalizing s with
  | nil =>
      cases pure_eq_ok_iff.1 hrounds
      exact h
  | cons user todo ih =>
      rw [List.foldlM_cons] at hrounds
      obtain ⟨mid, hround, hrounds⟩ := bind_eq_ok_iff.1 hrounds
      exact ih (h.spreadTo hf hround) hrounds

/-- A value that leaves the queue has all its consumers to visit. -/
theorem Waiting.pop (hf : f.Sound) {u : ValueId} (h : f.Waiting id u [] (v :: queue, map)) :
    f.Waiting id v (f.graph.usersOf v) (queue, map) := by
  intro i r operands hmerges hnone
  rcases h i r operands hmerges hnone with hundecided | ⟨w, hw, hqueued⟩ | ⟨-, hi⟩
  · exact .inl hundecided
  · rcases List.mem_cons.1 hqueued with rfl | hqueued
    · exact .inr (.inr ⟨hw, hmerges.mem_usersOf hf hw⟩)
    · exact .inr (.inl ⟨w, hw, hqueued⟩)
  · cases hi

/-! ## The phase as a whole -/

/-- A map from which the phase starts: the values that it describes are seeds in their own address
spaces, each of them the address of a global or a known argument. -/
structure Primed (f : Function) (id : FuncId) (S : ValueId → Ty → Prop) (map : PtrMap) : Prop where
  given : ∀ v t, f.Describes id map v t → S v t
  own : ∀ v d, map.get? (.value id v) = some d →
    f.Describes id map v d.pointee ∧ f.graph.spaceOf v = .ok (some d.space)
  queued : ∀ v t, f.Describes id map v t →
    (∃ g ty, f.graph.value v = .ok (.global g ty)) ∨ v ∈ f.knownArgs id map

theorem mem_usedGlobals {g : GlobalId} {ty : Ty} (hv : f.graph.value v = .ok (.global g ty))
    (hi : i ∈ f.graph.usersOf v) : v ∈ f.usedGlobals := by
  refine List.mem_filterMap.2 ⟨(v, .global g ty), ?_, ?_⟩
  · refine List.mem_map.2 ⟨(.global g ty, v.index), List.mem_zipIdx_iff_getElem?.2 ?_, rfl⟩
    simpa using Graph.value_eq_ok.1 hv
  · simp [Value.global?, List.ne_nil_of_mem hi]

/-- After seeding, every described value that is consumed is queued. -/
theorem seeded_queued (hf : f.Sound) (hprimed : f.Primed id S map)
    (h : f.insts.foldlM (f.seedInst id) (f.usedGlobals ++ f.knownArgs id map, map) = .ok s)
    (hv : f.Describes id s.2 v t) (hi : i ∈ f.graph.usersOf v) : v ∈ s.1 := by
  refine foldlM_invariant (P := fun s => ∀ v t i, f.Describes id s.2 v t →
    i ∈ f.graph.usersOf v → v ∈ s.1) ?_ ?_ h v t i hv hi
  · intro s s' j _ hs hround v t i hv hi
    rcases seedInst_eq_ok hround with rfl | ⟨r, d, site, hresult, -, -, hgains⟩
    · exact hs v t i hv hi
    · obtain ⟨ty, hr⟩ := (hf.graph.result_iff j r).1 hresult
      rw [hgains.queue, List.mem_append]
      rcases (hgains.describes_iff hr).1 hv with hold | ⟨rfl, -⟩
      · exact .inl (hs v t i hold hi)
      · exact .inr (List.mem_singleton_self v)
  · intro v t i hv hi
    rcases hprimed.queued v t hv with ⟨g, ty, hglobal⟩ | hknown
    · exact List.mem_append_left _ (mem_usedGlobals hglobal hi)
    · exact List.mem_append_right _ hknown

/-- After the phase, every described value is traced to a seed, and every site whose result has no
descriptor is undecided. -/
theorem forward_flows (hf : f.Sound) (hprimed : f.Primed id S map)
    (hseeds : ∀ i r site t, f.graph.result? i = some r → f.graph.site i = .ok site →
      seedPointee? site = some t → S r t)
    (h : f.forward id map = .ok map') :
    f.Flows id S map' ∧ ∀ i r operands, f.Merges i r operands →
      map'.get? (.value id r) = none → f.Undecided id map' operands := by
  have hforwards := f.forwards_forward id map
  rw [h] at hforwards
  cases hforwards with
  | @spread queue seeded _ hloop hspreads =>
      have hflows : f.Flows id S seeded := by
        refine foldlM_invariant (P := fun s => f.Flows id S s.2) ?_ ?_ hloop
        · intro s s' i _ hs hround
          rcases seedInst_eq_ok hround with rfl | ⟨r, d, site, hresult, hsite, hseed, hgains⟩
          · exact hs
          · obtain ⟨ty, hr⟩ := (hf.graph.result_iff i r).1 hresult
            exact hs.gains hgains hr (.inl (hseeds i r site _ hresult hsite hseed))
        · exact ⟨fun v t hv => .seed hv (hprimed.given v t hv), hprimed.own⟩
      have hwaiting : f.Waiting id ⟨0⟩ [] (queue, seeded) := by
        intro i r operands hmerges hnone
        by_cases hsome : ∃ w ∈ operands, ∃ t, f.Describes id seeded w t
        · obtain ⟨w, hw, t, hdescribes⟩ := hsome
          exact .inr (.inl ⟨w, hw, seeded_queued hf hprimed hloop hdescribes
            (hmerges.mem_usersOf hf hw)⟩)
        · exact .inl (.inl fun w hw t hdescribes => hsome ⟨w, hw, t, hdescribes⟩)
      have hend := hspreads.invariant
        (P := fun queue map => f.Flows id S map ∧ ∃ u, f.Waiting id u [] (queue, map)) ?_
        ⟨hflows, _, hwaiting⟩
      · obtain ⟨hflows, u, hwaiting⟩ := hend
        refine ⟨hflows, fun i r operands hmerges hnone => ?_⟩
        simpa using hwaiting i r operands hmerges hnone
      · intro v queue mid queue' mid' ⟨hmid, u, hwaiting⟩ hround
        refine ⟨?_, v, (hwaiting.pop hf).foldlM hf hround⟩
        exact foldlM_invariant (P := fun s => f.Flows id S s.2)
          (fun s s' user _ hs hstep => hs.spreadTo hf hstep) hmid hround

/-! ## The phase ends well -/

theorem seedInst_total (hf : f.Sound) (hbased : ∀ i, ¬ f.InstIs i (·.lacksBase = true))
    (hi : i ∈ f.insts) : ∃ s', f.seedInst id s i = .ok s' := by
  obtain ⟨inst, hinst⟩ := Graph.exists_inst (hf.lt_of_mem_insts hi)
  obtain ⟨site, hofInst⟩ := Site.ofInst_total fun hlacks => hbased i ⟨inst, hinst, hlacks⟩
  have hsite : f.graph.site i = .ok site := Graph.site_eq_ok.2 ⟨inst, hinst, hofInst⟩
  obtain ⟨queue, map⟩ := s
  unfold seedInst
  dsimp only
  split
  · exact ⟨_, rfl⟩
  · next r hresult =>
      obtain ⟨ty, hr⟩ := (hf.graph.result_iff i r).1 hresult
      rw [Graph.spaceOf_eq_ok.2 ⟨_, hr, rfl⟩, hsite]
      dsimp only [bind, Except.bind]
      split
      · exact ⟨_, rfl⟩
      · split
        · exact ⟨_, rfl⟩
        · split <;> exact ⟨_, rfl⟩

theorem spreadTo_total (hf : f.Sound) (hclosed : f.graph.Closed)
    (hbased : ∀ i, ¬ f.InstIs i (·.lacksBase = true)) (huser : user ∈ f.graph.usersOf v) :
    ∃ s', f.spreadTo id v s user = .ok s' := by
  obtain ⟨inst, hinst, -⟩ := (hf.graph.mem_users v user).1 huser
  obtain ⟨site, hofInst⟩ := Site.ofInst_total fun hlacks => hbased user ⟨inst, hinst, hlacks⟩
  have hsite : f.graph.site user = .ok site := Graph.site_eq_ok.2 ⟨inst, hinst, hofInst⟩
  have hflowing : ∃ d?, f.flowing id s.2 user v = .ok d? := by
    rw [flowing_of_site hsite]
    split
    · exact agreed_total (fun w hw => hclosed.has_operand hinst w
        ((Site.passThrough_sublist hofInst).subset hw)) none
    · exact ⟨none, rfl⟩
  obtain ⟨d?, hflowing⟩ := hflowing
  obtain ⟨queue, map⟩ := s
  unfold spreadTo
  dsimp only
  split
  · exact ⟨_, rfl⟩
  · next r hresult =>
      obtain ⟨ty, hr⟩ := (hf.graph.result_iff user r).1 hresult
      rw [Graph.spaceOf_eq_ok.2 ⟨_, hr, rfl⟩]
      dsimp only [bind, Except.bind]
      split
      · exact ⟨_, rfl⟩
      · split
        · exact ⟨_, rfl⟩
        · rw [hflowing]
          cases d? <;> exact ⟨_, rfl⟩

/-- All consumers of a value can be visited. -/
theorem foldlM_spreadTo_total (hf : f.Sound) (hclosed : f.graph.Closed)
    (hbased : ∀ i, ¬ f.InstIs i (·.lacksBase = true)) :
    ∃ s', (f.graph.usersOf v).foldlM (f.spreadTo id v) s = .ok s' := by
  have hround : ∃ s', (f.graph.usersOf v).foldlM (f.spreadTo id v) s = .ok s' ∧ True := by
    refine foldlM_total (P := fun _ _ => True) ?_ trivial
    intro done user rest s hsplit _
    have huser : user ∈ f.graph.usersOf v := by simp [hsplit]
    obtain ⟨s', hs'⟩ := spreadTo_total hf hclosed hbased huser
    exact ⟨s', hs', trivial⟩
  obtain ⟨s', hs', -⟩ := hround
  exact ⟨s', hs'⟩

theorem Spreads.total {out : Except Fault PtrMap} (h : f.Spreads id queue map out) (hf : f.Sound)
    (hclosed : f.graph.Closed) (hbased : ∀ i, ¬ f.InstIs i (·.lacksBase = true)) :
    ∃ map', out = .ok map' := by
  induction h with
  | done => exact ⟨_, rfl⟩
  | next _ _ ih => exact ih
  | fault hfault =>
      obtain ⟨s', hround⟩ := foldlM_spreadTo_total hf hclosed hbased
      cases hfault.symm.trans hround

/-- The phase ends well unless an address computation has no base. -/
theorem forward_total (hf : f.Sound) (hclosed : f.graph.Closed)
    (hbased : ∀ i, ¬ f.InstIs i (·.lacksBase = true)) :
    ∃ map', f.forward id map = .ok map' := by
  have hforwards := f.forwards_forward id map
  generalize f.forward id map = out at hforwards
  cases hforwards with
  | spread _ hspreads => exact hspreads.total hf hclosed hbased
  | fault hfault =>
      have hseeds : ∃ s', f.insts.foldlM (f.seedInst id)
          (f.usedGlobals ++ f.knownArgs id map, map) = .ok s' ∧ True := by
        refine foldlM_total (P := fun _ _ => True) ?_ trivial
        intro done i rest s hsplit _
        have hi : i ∈ f.insts := by simp [hsplit]
        obtain ⟨s', hs'⟩ := seedInst_total hf hbased hi
        exact ⟨s', hs', trivial⟩
      obtain ⟨s', hseeds, -⟩ := hseeds
      cases hfault.symm.trans hseeds

end Function

end Pointee
