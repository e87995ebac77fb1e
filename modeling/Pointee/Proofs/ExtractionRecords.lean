import Pointee.Extraction
import Pointee.Proofs.Recording
import Pointee.Proofs.SiteReading

/-!
# What extraction records

`Function.Fixes` lists what an instruction fixes: the descriptors of the pointer that it accesses
memory through and of what the marker there wraps, of an address that it makes and of the marker
behind it, and of annotated arguments. Extraction records what the instructions of a function fix,
by `Function.extract_recorded`. Only accesses fix anything about pointers that no instruction
defines: symbols and arguments. For those, the first access counts, by `Module.get?_extractBodies`.
-/

namespace Pointee

open PtrMap TypeStore

/-! ## What an instruction fixes -/

namespace Function

variable {ctx : Context} {f : Function} {id : FuncId} {i : InstId} {types s t : TypeStore}
  {map map' : PtrMap} {key : PtrKey} {d : Descriptor} {site : Site}

/-- The instruction accesses memory through `ptr`, which is the value of a marker of `wrapped`. What
it accesses there makes `d` the descriptor of `ptr`. -/
structure Accesses (f : Function) (i : InstId) (ptr wrapped : ValueId) (d : Descriptor) :
    Prop where
  binding : ∃ site, f.graph.site i = .ok site ∧
    site.binding f.graph = .ok (some (ptr, d.pointee))
  space : f.graph.spaceOf ptr = .ok (some d.space)
  marked : f.graph.markedOperand ptr = .ok (some wrapped)

/-- The instruction makes the address `v`, which `marker` alone consumes. What it points to makes
`d` the descriptor of `v`. -/
structure Makes (f : Function) (i : InstId) (v marker : ValueId) (d : Descriptor) : Prop where
  pointee : ∃ site, f.graph.site i = .ok site ∧ resultPointee? site = some d.pointee
  result : f.graph.result? i = some v
  space : f.graph.spaceOf v = .ok (some d.space)
  marked : f.graph.soleMarker i = .ok (some marker)

/-- The instruction calls a function whose annotation makes `d` the descriptor of the argument
`arg`, which is the value of a marker. -/
def Passes (ctx : Context) (types : TypeStore) (f : Function) (i : InstId) (arg : ValueId)
    (d : Descriptor) : Prop :=
  ∃ callee args typed slot, f.graph.site i = .ok (.call callee args) ∧
    (TypedSignature.annotated ctx callee).exec types = .ok (.ok typed, types) ∧
    args[slot]? = some arg ∧ typed.arg? slot = some d ∧
    ∃ wrapped, f.graph.markedOperand arg = .ok (some wrapped)

/-- What an instruction of the function `id` says about pointers. -/
inductive Fixes (ctx : Context) (types : TypeStore) (f : Function) (id : FuncId) (i : InstId) :
    PtrKey → Descriptor → Prop
  | pointer {ptr wrapped : ValueId} {d : Descriptor} :
      f.Accesses i ptr wrapped d → Fixes ctx types f id i (.value id ptr) d
  | wrapped {ptr wrapped : ValueId} {d : Descriptor} {key : PtrKey} :
      f.Accesses i ptr wrapped d → PtrKey.ofValue id f.graph wrapped = .ok key →
      Fixes ctx types f id i key d
  | result {v marker : ValueId} {d : Descriptor} :
      f.Makes i v marker d → Fixes ctx types f id i (.value id v) d
  | marker {v marker : ValueId} {d : Descriptor} :
      f.Makes i v marker d → Fixes ctx types f id i (.value id marker) d
  | argument {arg : ValueId} {d : Descriptor} :
      f.Passes ctx types i arg d → Fixes ctx types f id i (.value id arg) d

theorem Makes.unique {v marker v' marker' : ValueId} {d' : Descriptor} (h : f.Makes i v marker d)
    (h' : f.Makes i v' marker' d') : v = v' ∧ marker = marker' ∧ d = d' := by
  obtain ⟨⟨site, hsite, hpointee⟩, hresult, hspace, hmarked⟩ := h
  obtain ⟨⟨site', hsite', hpointee'⟩, hresult', hspace', hmarked'⟩ := h'
  cases hsite.symm.trans hsite'
  cases hresult.symm.trans hresult'
  cases hmarked.symm.trans hmarked'
  have hsame : d.pointee = d'.pointee ∧ d.space = d'.space := by
    constructor
    · simpa using hpointee.symm.trans hpointee'
    · simpa using hspace.symm.trans hspace'
  exact ⟨rfl, rfl, Descriptor.ext hsame.1 hsame.2⟩

theorem Accesses.unique {ptr wrapped ptr' wrapped' : ValueId} {d' : Descriptor}
    (h : f.Accesses i ptr wrapped d) (h' : f.Accesses i ptr' wrapped' d') :
    ptr = ptr' ∧ wrapped = wrapped' ∧ d = d' := by
  obtain ⟨⟨site, hsite, hbinding⟩, hspace, hmarked⟩ := h
  obtain ⟨⟨site', hsite', hbinding'⟩, hspace', hmarked'⟩ := h'
  cases hsite.symm.trans hsite'
  have hsame : ptr = ptr' ∧ d.pointee = d'.pointee := by
    simpa using hbinding.symm.trans hbinding'
  obtain ⟨rfl, hpointee⟩ := hsame
  cases hmarked.symm.trans hmarked'
  exact ⟨rfl, rfl, Descriptor.ext hpointee (by simpa using hspace.symm.trans hspace')⟩

theorem refuse_not_ok {α : Type} {reason : String → String → Refusal} {a : α} :
    (f.refuse ctx id i reason : Pass TypeStore α).exec s ≠ .ok (.ok a, t) := by
  intro h
  unfold refuse at h
  rw [Pass.exec_liftM_bind] at h
  obtain ⟨sig, -, hrest⟩ := bind_eq_ok_iff.1 h
  rw [Pass.exec_liftM_bind] at hrest
  obtain ⟨text, -, hrest⟩ := bind_eq_ok_iff.1 hrest
  cases hrest

theorem refuseType_not_ok {α : Type} {v : ValueId} {a : α} :
    (f.refuseType ctx id i v : Pass TypeStore α).exec s ≠ .ok (.ok a, t) := by
  intro h
  unfold refuseType at h
  rw [Pass.exec_liftM_bind] at h
  obtain ⟨sig, -, hrest⟩ := bind_eq_ok_iff.1 h
  rw [Pass.exec_liftM_bind] at hrest
  obtain ⟨text, -, hrest⟩ := bind_eq_ok_iff.1 hrest
  rw [Pass.exec_liftM_bind] at hrest
  obtain ⟨ty, -, hrest⟩ := bind_eq_ok_iff.1 hrest
  rw [Pass.exec_liftM_bind] at hrest
  obtain ⟨tyText, -, hrest⟩ := bind_eq_ok_iff.1 hrest
  cases hrest

/-- An access records its pointer operand and what the marker there wraps. -/
theorem extractBinding_records (hsite : f.graph.site i = .ok site) :
    Pass.Records types (fun map => f.extractBinding ctx id map i site) fun key d =>
      ∃ ptr wrapped, f.Accesses i ptr wrapped d ∧
        (key = .value id ptr ∨ PtrKey.ofValue id f.graph wrapped = .ok key) := by
  refine .lift fun binding hbinding => ?_
  cases binding with
  | none =>
      refine .pure ?_
      rintro key d ⟨ptr, wrapped, ⟨⟨site', hsite', hbinding'⟩, hspace, hmarked⟩, hkey⟩
      cases hsite.symm.trans hsite'
      cases hbinding.symm.trans hbinding'
  | some access =>
      obtain ⟨ptr, elem⟩ := access
      refine .lift fun space hspace => ?_
      cases space with
      | none => exact .refused fun _ _ _ _ => refuseType_not_ok
      | some space =>
          refine .lift fun wrapped hwrapped => ?_
          cases wrapped with
          | none => exact .refused fun _ _ _ _ => refuse_not_ok
          | some wrapped =>
              refine .lift fun key hkey => ?_
              have haccess : f.Accesses i ptr wrapped ⟨elem, space⟩ :=
                ⟨⟨site, hsite, hbinding⟩, hspace, hwrapped⟩
              intro map s map' t hrun
              cases hrun
              refine ⟨le_refl _, fun _ => ⟨[(.value id ptr, ⟨elem, space⟩), (key, ⟨elem, space⟩)],
                rfl, fun k d => ?_⟩⟩
              simp only [List.mem_cons, List.not_mem_nil, or_false, Prod.mk.injEq]
              constructor
              · rintro (⟨rfl, rfl⟩ | ⟨rfl, rfl⟩)
                · exact ⟨ptr, wrapped, haccess, .inl rfl⟩
                · exact ⟨ptr, wrapped, haccess, .inr hkey⟩
              · rintro ⟨ptr', wrapped', haccess', hk⟩
                obtain ⟨rfl, rfl, rfl⟩ := haccess.unique haccess'
                rcases hk with rfl | hk
                · exact .inl ⟨rfl, rfl⟩
                · cases hkey.symm.trans hk
                  exact .inr ⟨rfl, rfl⟩

/-- An instruction that makes an address records it and its marker. -/
theorem extractResult_records (hsite : f.graph.site i = .ok site) :
    Pass.Records types (fun map => f.extractResult ctx id map i site) fun key d =>
      ∃ v marker, f.Makes i v marker d ∧ (key = .value id v ∨ key = .value id marker) := by
  have hnothing : (resultPointee? site = none ∨ f.graph.result? i = none) →
      ∀ (key : PtrKey) (d : Descriptor),
      ¬ ∃ v marker, f.Makes i v marker d ∧ (key = .value id v ∨ key = .value id marker) := by
    rintro hnone key d ⟨v, marker, ⟨⟨site', hsite', hpointee⟩, hresult, hspace, hmarked⟩, hkey⟩
    cases hsite.symm.trans hsite'
    rcases hnone with hnone | hnone
    · cases hnone.symm.trans hpointee
    · cases hnone.symm.trans hresult
  unfold extractResult
  cases hpointee : resultPointee? site with
  | none => exact .pure (hnothing (.inl hpointee))
  | some pointee =>
      cases hresult : f.graph.result? i with
      | none => exact .pure (hnothing (.inr hresult))
      | some v =>
          refine .lift fun space hspace => ?_
          cases space with
          | none => exact .refused fun _ _ _ _ => refuseType_not_ok
          | some space =>
              refine .lift fun marker hmarker => ?_
              cases marker with
              | none => exact .refused fun _ _ _ _ => refuse_not_ok
              | some marker =>
                  have hmakes : f.Makes i v marker ⟨pointee, space⟩ :=
                    ⟨⟨site, hsite, hpointee⟩, hresult, hspace, hmarker⟩
                  intro map s map' t hrun
                  cases hrun
                  refine ⟨le_refl _, fun _ => ⟨[(.value id v, ⟨pointee, space⟩),
                    (.value id marker, ⟨pointee, space⟩)], rfl, fun k d => ?_⟩⟩
                  simp only [List.mem_cons, List.not_mem_nil, or_false, Prod.mk.injEq]
                  constructor
                  · rintro (⟨rfl, rfl⟩ | ⟨rfl, rfl⟩)
                    · exact ⟨v, marker, hmakes, .inl rfl⟩
                    · exact ⟨v, marker, hmakes, .inr rfl⟩
                  · rintro ⟨v', marker', hmakes', hk⟩
                    obtain ⟨rfl, rfl, rfl⟩ := hmakes.unique hmakes'
                    rcases hk with rfl | rfl
                    · exact .inl ⟨rfl, rfl⟩
                    · exact .inr ⟨rfl, rfl⟩

theorem extractArgument_records (typed : TypedSignature) (arg : ValueId × Nat) :
    Pass.Records types (fun map => f.extractArgument ctx id typed i map arg) fun key d =>
      typed.arg? arg.2 = some d ∧ key = .value id arg.1 ∧
        ∃ wrapped, f.graph.markedOperand arg.1 = .ok (some wrapped) := by
  unfold extractArgument
  cases hd : typed.arg? arg.2 with
  | none => exact .pure (by simp)
  | some d =>
      refine .lift fun wrapped hwrapped => ?_
      cases wrapped with
      | none => exact .refused fun _ _ _ _ => refuse_not_ok
      | some wrapped =>
          intro map s map' t hrun
          cases hrun
          refine ⟨le_refl _, fun _ => ⟨[(.value id arg.1, d)], rfl, fun k d' => ?_⟩⟩
          simp only [List.mem_singleton, Prod.mk.injEq, Option.some_inj]
          exact ⟨fun ⟨hk, hd'⟩ => ⟨hd'.symm, hk, wrapped, hwrapped⟩,
            fun ⟨hd', hk, _⟩ => ⟨hk, hd'.symm⟩⟩

/-- A call records its arguments that the annotation of the callee types. -/
theorem extractCall_records (hsite : f.graph.site i = .ok site) :
    Pass.Records types (fun map => f.extractCall ctx id map i site) fun key d =>
      ∃ arg, f.Passes ctx types i arg d ∧ key = .value id arg := by
  cases site with
  | call callee args =>
      intro map s map' u hrun
      obtain ⟨typed, t, htyped, hloop⟩ := Pass.exec_bind_eq_ok.1 hrun
      obtain ⟨hle, hrecorded⟩ := Pass.Records.foldlM
        (fun arg _ => extractArgument_records typed arg) hloop
      obtain ⟨hle', hagain⟩ := TypedSignature.annotated_again htyped
      refine ⟨le_trans hle' hle, fun htypes => ?_⟩
      have hagain := hagain types (le_trans hle htypes)
      obtain ⟨rs, hmap, hrs⟩ := (hrecorded htypes).records
      refine ⟨rs, hmap, fun key d => (hrs key d).trans ?_⟩
      constructor
      · rintro ⟨⟨arg, slot⟩, hmem, hd, rfl, hmarked⟩
        rw [List.mem_zipIdx_iff_getElem?] at hmem
        exact ⟨arg, ⟨callee, args, typed, slot, hsite, hagain, hmem, hd, hmarked⟩, rfl⟩
      · rintro ⟨arg, ⟨callee', args', typed', slot, hsite', htyped', hmem, hd, hmarked⟩, rfl⟩
        cases hsite.symm.trans hsite'
        cases hagain.symm.trans htyped'
        exact ⟨(arg, slot), List.mem_zipIdx_iff_getElem?.2 hmem, hd, rfl, hmarked⟩
  | _ =>
      refine .pure ?_
      rintro key d ⟨arg, ⟨callee, args, typed, slot, hsite', -⟩, -⟩
      cases hsite.symm.trans hsite'

/-- Nothing is fixed by a marker. -/
theorem not_fixes_of_marker (hmarker : f.graph.isMarker i = .ok true) :
    ¬ f.Fixes ctx types id i key d := by
  have hother := Graph.site_of_isMarker hmarker
  rintro (⟨⟨⟨site, hsite, hbinding⟩, -, -⟩⟩ | ⟨⟨⟨site, hsite, hbinding⟩, -, -⟩, -⟩ |
    ⟨⟨⟨site, hsite, hpointee⟩, -, -, -⟩⟩ | ⟨⟨⟨site, hsite, hpointee⟩, -, -, -⟩⟩ |
    ⟨⟨callee, args, typed, slot, hsite, -⟩⟩)
  · cases hother.symm.trans hsite
    cases hbinding
  · cases hother.symm.trans hsite
    cases hbinding
  · cases hother.symm.trans hsite
    cases hpointee
  · cases hother.symm.trans hsite
    cases hpointee
  · cases hother.symm.trans hsite

/-- Extraction records what an instruction fixes. -/
theorem extractInst_records (i : InstId) :
    Pass.Records types (fun map => f.extractInst ctx id map i) (f.Fixes ctx types id i) := by
  refine .lift fun marker hmarker => ?_
  cases marker with
  | true => exact .pure fun key d => not_fixes_of_marker hmarker
  | false =>
      refine .lift fun site hsite => ?_
      refine ((extractBinding_records hsite).bind
        ((extractResult_records hsite).bind (extractCall_records hsite))).congr fun key d => ?_
      constructor
      · rintro (haccess | ⟨haccess, hkey⟩ | hmakes | hmakes | hpasses)
        · exact .inl ⟨_, _, haccess, .inl rfl⟩
        · exact .inl ⟨_, _, haccess, .inr hkey⟩
        · exact .inr (.inl ⟨_, _, hmakes, .inl rfl⟩)
        · exact .inr (.inl ⟨_, _, hmakes, .inr rfl⟩)
        · exact .inr (.inr ⟨_, hpasses, rfl⟩)
      · rintro (⟨ptr, wrapped, haccess, rfl | hkey⟩ | ⟨v, marker, hmakes, rfl | rfl⟩ |
          ⟨arg, hpasses, rfl⟩)
        · exact .pointer haccess
        · exact .wrapped haccess hkey
        · exact .result hmakes
        · exact .marker hmakes
        · exact .argument hpasses

/-! ## Markers of globals -/

/-- The instruction is a marker of the address of a global, whose descriptor in `map` it passes on
to its value. -/
def PassesOn (f : Function) (id : FuncId) (map : PtrMap) (i : InstId) (key : PtrKey)
    (d : Descriptor) : Prop :=
  ∃ w g ty v, f.graph.isMarker i = .ok true ∧ f.graph.operand i 0 = .ok w ∧
    f.graph.value w = .ok (.global g ty) ∧ f.graph.result? i = some v ∧
    map.get? (.global g) = some d ∧ key = .value id v

theorem extractGlobalMarker_records (h : f.extractGlobalMarker id map i = .ok map') :
    ∃ rs, map' = map.insertAll rs ∧ ∀ key d, (key, d) ∈ rs ↔ f.PassesOn id map i key d := by
  have hnothing : (∀ key d, ¬ f.PassesOn id map i key d) →
      ∃ rs, map = map.insertAll rs ∧ ∀ key d, (key, d) ∈ rs ↔ f.PassesOn id map i key d :=
    fun hno => ⟨[], rfl, by simp [hno]⟩
  obtain ⟨marker, hmarker, hrest⟩ := bind_eq_ok_iff.1 h
  cases marker with
  | false =>
      cases pure_eq_ok_iff.1 hrest
      refine hnothing ?_
      rintro key d ⟨w, g, ty, v, hmarker', -⟩
      cases hmarker.symm.trans hmarker'
  | true =>
      obtain ⟨w, hw, hrest⟩ := bind_eq_ok_iff.1 hrest
      obtain ⟨val, hval, hrest⟩ := bind_eq_ok_iff.1 hrest
      split at hrest
      · next g v hglobal hresult =>
          obtain ⟨ty, rfl⟩ : ∃ ty, val = .global g ty := by
            cases val with
            | global g' ty => cases hglobal; exact ⟨ty, rfl⟩
            | _ => cases hglobal
          have hiff : ∀ key d, f.PassesOn id map i key d ↔
              map.get? (.global g) = some d ∧ key = .value id v := by
            intro key d
            constructor
            · rintro ⟨w', g', ty', v', -, hw', hval', hresult', hd, hkey⟩
              cases hw.symm.trans hw'
              cases hval.symm.trans hval'
              cases hresult.symm.trans hresult'
              exact ⟨hd, hkey⟩
            · rintro ⟨hd, hkey⟩
              exact ⟨w, g, ty, v, hmarker, hw, hval, hresult, hd, hkey⟩
          cases hd : map.get? (.global g) with
          | none =>
              simp only [hd] at hrest
              cases pure_eq_ok_iff.1 hrest
              exact hnothing fun key d' hpasses => by simp [hiff, hd] at hpasses
          | some d =>
              simp only [hd] at hrest
              cases pure_eq_ok_iff.1 hrest
              refine ⟨[(.value id v, d)], rfl, fun key d' => ?_⟩
              rw [hiff, hd, List.mem_singleton, Prod.mk.injEq, Option.some_inj]
              exact ⟨fun ⟨hk, hd'⟩ => ⟨hd'.symm, hk⟩, fun ⟨hd', hk⟩ => ⟨hk, hd'.symm⟩⟩
      · next hno =>
          cases pure_eq_ok_iff.1 hrest
          refine hnothing ?_
          rintro key d ⟨w', g, ty, v, -, hw', hval', hresult, -⟩
          cases hw.symm.trans hw'
          cases hval.symm.trans hval'
          exact hno g v rfl hresult

/-- The markers of globals pass on what the map held for the globals at the start. -/
theorem foldlM_extractGlobalMarker {is : List InstId} {map₀ : PtrMap}
    (hglobals : ∀ g, map.get? (.global g) = map₀.get? (.global g))
    (h : is.foldlM (f.extractGlobalMarker id) map = .ok map') :
    Recorded (f.PassesOn id map₀) is map map' := by
  induction is generalizing map with
  | nil =>
      cases pure_eq_ok_iff.1 h
      exact .nil _
  | cons i is ih =>
      rw [List.foldlM_cons] at h
      obtain ⟨mid, hmid, hrest⟩ := bind_eq_ok_iff.1 h
      obtain ⟨rs, rfl, hrs⟩ := extractGlobalMarker_records hmid
      refine .cons (fun key d => (hrs key d).trans ?_) (ih (fun g => ?_) hrest)
      · simp only [PassesOn, hglobals]
      · -- Only values are recorded, so globals keep what they have.
        have hnone : rs.lookup (.global g) = none := by
          rw [List.lookup_eq_none_iff]
          rintro ⟨key, d⟩ hmem
          obtain ⟨w, g', ty, v, -, -, -, -, -, rfl⟩ := (hrs key d).1 hmem
          rfl
        rw [get?_insertAll, hnone, Option.or_none, hglobals]

/-- Extraction goes over the instructions, and then over the markers of globals. -/
theorem extract_eq_ok (h : (f.extract ctx id map).exec s = .ok (.ok map', t)) :
    ∃ mid, (f.insts.foldlM (f.extractInst ctx id) map).exec s = .ok (.ok mid, t) ∧
      Recorded (f.PassesOn id mid) f.insts mid map' := by
  obtain ⟨mid, u, hfirst, hsecond⟩ := Pass.exec_bind_eq_ok.1 h
  cases hloop : f.insts.foldlM (f.extractGlobalMarker id) mid with
  | error fault =>
      rw [hloop] at hsecond
      cases hsecond
  | ok result =>
      rw [hloop] at hsecond
      cases hsecond
      exact ⟨mid, hfirst, foldlM_extractGlobalMarker (fun _ => rfl) hloop⟩

/-- Extraction records what the instructions of a function fix, and then what the markers of globals
pass on. -/
theorem extract_recorded (h : (f.extract ctx id map).exec s = .ok (.ok map', t)) :
    s ≤ t ∧ (t ≤ types → ∃ mid, Recorded (f.Fixes ctx types id) f.insts map mid ∧
      Recorded (f.PassesOn id mid) f.insts mid map') := by
  obtain ⟨mid, hfirst, hsecond⟩ := extract_eq_ok h
  obtain ⟨hle, hrecorded⟩ := Pass.Records.foldlM (fun i _ => extractInst_records i) hfirst
  exact ⟨hle, fun htypes => ⟨mid, hrecorded htypes, hsecond⟩⟩

/-- The stages of reading an instruction that is no marker. -/
theorem extractInst_eq_ok (hmarker : f.graph.isMarker i ≠ .ok true)
    (hsite : f.graph.site i = .ok site)
    (h : (f.extractInst ctx id map i).exec s = .ok (.ok map', t)) :
    ∃ map₁ s₁ map₂ s₂, (f.extractBinding ctx id map i site).exec s = .ok (.ok map₁, s₁) ∧
      (f.extractResult ctx id map₁ i site).exec s₁ = .ok (.ok map₂, s₂) ∧
      (f.extractCall ctx id map₂ i site).exec s₂ = .ok (.ok map', t) := by
  unfold extractInst at h
  rw [Pass.exec_liftM_bind] at h
  obtain ⟨marker, hmarker', h⟩ := bind_eq_ok_iff.1 h
  cases marker with
  | true => exact absurd hmarker' hmarker
  | false =>
      have h := (Pass.exec_liftM_of_ok hsite _ s).symm.trans h
      obtain ⟨map₁, s₁, hbinding, h⟩ := Pass.exec_bind_eq_ok.1 h
      obtain ⟨map₂, s₂, hresult, hcall⟩ := Pass.exec_bind_eq_ok.1 h
      exact ⟨map₁, s₁, map₂, s₂, hbinding, hresult, hcall⟩

theorem extractInst_annotated {callee : FuncId} {args : List ValueId}
    (hsite : f.graph.site i = .ok (.call callee args))
    (h : (f.extractInst ctx id map i).exec s = .ok (.ok map', t)) :
    ∃ typed, ∀ types, t ≤ types →
      (TypedSignature.annotated ctx callee).exec types = .ok (.ok typed, types) := by
  have hmarker : f.graph.isMarker i ≠ .ok true := by
    intro hmarker
    cases (Graph.site_of_isMarker hmarker).symm.trans hsite
  obtain ⟨_, _, _, _, -, -, hcall⟩ := extractInst_eq_ok hmarker hsite h
  obtain ⟨typed, u, htyped, hloop⟩ := Pass.exec_bind_eq_ok.1 hcall
  have hrecords : ∀ arg ∈ args.zipIdx,
      Pass.Records t (fun map => f.extractArgument ctx id typed i map arg) _ :=
    fun arg _ => extractArgument_records typed arg
  have hle := (Pass.Records.foldlM hrecords hloop).1
  exact ⟨typed, fun types htypes =>
    (TypedSignature.annotated_again htyped).2 types (le_trans hle htypes)⟩

/-- Extraction has typed the signatures of all functions that are called. -/
theorem extract_annotated (h : (f.extract ctx id map).exec s = .ok (.ok map', t)) (ht : t ≤ types) :
    ∀ i ∈ f.insts, ∀ callee args, f.graph.site i = .ok (.call callee args) →
      ∃ typed, (TypedSignature.annotated ctx callee).exec types = .ok (.ok typed, types) := by
  obtain ⟨mid, hfirst, -⟩ := extract_eq_ok h
  refine Pass.foldlM_invariant (P := fun done _ s => s ≤ types → ∀ i ∈ done, ∀ callee args,
    f.graph.site i = .ok (.call callee args) →
      ∃ typed, (TypedSignature.annotated ctx callee).exec types = .ok (.ok typed, types))
    ?_ (by simp) hfirst ht
  intro done i rest map₁ s₁ map₂ s₂ _ hdone hround hle j hj callee args hsite
  rcases List.mem_append.1 hj with hj | hj
  · have hrecords : Pass.Records types (fun map => f.extractInst ctx id map i) _ :=
      extractInst_records i
    exact hdone (le_trans (hrecords map₁ s₁ map₂ s₂ hround).1 hle) j hj callee args hsite
  · obtain rfl := List.mem_singleton.1 hj
    obtain ⟨typed, htyped⟩ := extractInst_annotated hsite hround
    exact ⟨typed, htyped types hle⟩

/-! ## Pointers that no instruction defines -/

/-- The pointer is not a value that an instruction of the function defines. -/
def Outside (f : Function) (id : FuncId) (key : PtrKey) : Prop :=
  ∀ v, key = .value id v →
    (∀ i, f.graph.result? i ≠ some v) ∧ ∀ i ty, f.graph.value v ≠ .ok (.inst i ty)

/-- What an access says about the pointer that the marker of its pointer operand wraps. -/
def access? (f : Function) (id : FuncId) (i : InstId) : Option (PtrKey × Descriptor) := do
  let site ← (f.graph.site i).toOption
  let (ptr, elem) ← (site.binding f.graph).toOption.join
  let space ← (f.graph.spaceOf ptr).toOption.join
  let wrapped ← (f.graph.markedOperand ptr).toOption.join
  let key ← (PtrKey.ofValue id f.graph wrapped).toOption
  return (key, ⟨elem, space⟩)

/-- What an access through a marker of the given pointer says about it. -/
def accessTo (f : Function) (id : FuncId) (key : PtrKey) (i : InstId) : Option Descriptor :=
  (f.access? id i).bind fun r => if r.1 = key then some r.2 else none

/-- What the first access through a marker of the given pointer says about it, in the body of a
function. -/
def firstAccess (f : Function) (id : FuncId) (key : PtrKey) : Option Descriptor :=
  if f.isDeclaration then none else f.insts.findSome? (f.accessTo id key)

theorem accessTo_eq_some : f.accessTo id key i = some d ↔
    ∃ ptr wrapped, f.Accesses i ptr wrapped d ∧ PtrKey.ofValue id f.graph wrapped = .ok key := by
  have htoOption : ∀ {α : Type} {x : Except Fault α} {a : α}, x.toOption = some a ↔ x = .ok a := by
    intro α x a
    cases x <;> simp [Except.toOption]
  have hjoin : ∀ {α : Type} {x : Except Fault (Option α)} {a : α},
      x.toOption.join = some a ↔ x = .ok (some a) := by
    intro α x a
    cases x <;> simp [Except.toOption]
  have haccess : f.access? id i = some (key, d) ↔
      ∃ ptr wrapped, f.Accesses i ptr wrapped d ∧
        PtrKey.ofValue id f.graph wrapped = .ok key := by
    simp only [access?, Option.bind_eq_bind, Option.bind_eq_some_iff, htoOption, hjoin]
    constructor
    · rintro ⟨site, hsite, ⟨ptr, elem⟩, hbinding, space, hspace, wrapped, hmarked, k, hk, heq⟩
      cases heq
      exact ⟨ptr, wrapped, ⟨⟨site, hsite, hbinding⟩, hspace, hmarked⟩, hk⟩
    · rintro ⟨ptr, wrapped, ⟨⟨site, hsite, hbinding⟩, hspace, hmarked⟩, hk⟩
      exact ⟨site, hsite, (ptr, d.pointee), hbinding, d.space, hspace, wrapped, hmarked, key, hk,
        rfl⟩
  rw [← haccess, accessTo, Option.bind_eq_some_iff]
  constructor
  · rintro ⟨⟨k, d'⟩, hsome, hif⟩
    split at hif
    · next hk =>
        cases hk
        cases hif
        exact hsome
    · cases hif
  · intro hsome
    exact ⟨(key, d), hsome, if_pos rfl⟩

theorem exists_inst_of_markedOperand {v w : ValueId}
    (h : f.graph.markedOperand v = .ok (some w)) :
    ∃ m ty, f.graph.value v = .ok (.inst m ty) ∧ f.graph.isMarker m = .ok true ∧
      f.graph.operand m 0 = .ok w := by
  obtain ⟨val, hval, hrest⟩ := bind_eq_ok_iff.1 h
  cases val with
  | inst m ty =>
      obtain ⟨marker, hmarker, hrest⟩ := bind_eq_ok_iff.1 hrest
      cases marker with
      | true =>
          obtain ⟨w', hw', heq⟩ := map_eq_ok_iff.1 hrest
          cases heq
          exact ⟨m, ty, hval, hmarker, hw'⟩
      | false => cases pure_eq_ok_iff.1 hrest
  | _ => cases pure_eq_ok_iff.1 hrest

theorem exists_result_of_soleMarker {w : ValueId} (h : f.graph.soleMarker i = .ok (some w)) :
    ∃ v m, f.graph.result? i = some v ∧ f.graph.usersOf v = [m] ∧ f.graph.isMarker m = .ok true ∧
      f.graph.result? m = some w := by
  unfold Graph.soleMarker at h
  cases hresult : f.graph.result? i with
  | none =>
      simp only [hresult] at h
      cases pure_eq_ok_iff.1 h
  | some v =>
      simp only [hresult] at h
      split at h
      · next m husers =>
          obtain ⟨marker, hmarker, hrest⟩ := bind_eq_ok_iff.1 h
          cases marker with
          | true => exact ⟨v, m, rfl, husers, hmarker, pure_eq_ok_iff.1 hrest⟩
          | false => cases pure_eq_ok_iff.1 hrest
      · cases pure_eq_ok_iff.1 h

/-- About a pointer that no instruction defines, only accesses say something. -/
theorem Outside.fixes_iff (hkey : f.Outside id key) :
    f.Fixes ctx types id i key d ↔ f.accessTo id key i = some d := by
  rw [accessTo_eq_some]
  constructor
  · rintro (haccess | ⟨haccess, hk⟩ | hmakes | hmakes | hpasses)
    · obtain ⟨m, ty, hval, -⟩ := exists_inst_of_markedOperand haccess.marked
      exact absurd hval ((hkey _ rfl).2 m ty)
    · exact ⟨_, _, haccess, hk⟩
    · exact absurd hmakes.result ((hkey _ rfl).1 i)
    · obtain ⟨v, m, -, -, -, hresult⟩ := exists_result_of_soleMarker hmakes.marked
      exact absurd hresult ((hkey _ rfl).1 m)
    · obtain ⟨callee, args, typed, slot, -, -, -, -, wrapped, hmarked⟩ := hpasses
      obtain ⟨m, ty, hval, -⟩ := exists_inst_of_markedOperand hmarked
      exact absurd hval ((hkey _ rfl).2 m ty)
  · rintro ⟨ptr, wrapped, haccess, hk⟩
    exact .wrapped haccess hk

/-- For a pointer that no instruction defines, the first access counts. -/
theorem Outside.get?_extract (hkey : f.Outside id key)
    (h : (f.extract ctx id map).exec s = .ok (.ok map', t)) :
    map'.get? key = (map.get? key).or (f.insts.findSome? (f.accessTo id key)) := by
  obtain ⟨-, hrecorded⟩ := extract_recorded h
  obtain ⟨mid, hfirst, hsecond⟩ := hrecorded (le_refl t)
  rw [hsecond.get?_other, hfirst.get? fun i _ d => hkey.fixes_iff]
  rintro i - d ⟨w, g, ty, v, -, -, -, hresult, -, hk⟩
  exact (hkey v hk).1 i hresult

end Function

/-! ## Modules -/

namespace Module

variable {m : Module} {config : Config} {s t types : TypeStore} {map map' : PtrMap} {key : PtrKey}
  {fs : List (FuncId × Function)}

/-- What the first access through a marker of the given pointer says about it, in the bodies of all
functions. -/
def firstAccess (m : Module) (key : PtrKey) : Option Descriptor :=
  m.funcList.findSome? fun func => func.2.firstAccess func.1 key

theorem get?_extractBodies
    (hkey : ∀ id f, (id, f) ∈ fs → f.isDeclaration = false → f.Outside id key)
    (h : (fs.foldlM m.extractBody map).exec s = .ok (.ok map', t)) :
    map'.get? key = (map.get? key).or (fs.findSome? fun func => func.2.firstAccess func.1 key) := by
  induction fs generalizing map s with
  | nil =>
      cases h
      simp
  | cons func fs ih =>
      obtain ⟨id, f⟩ := func
      rw [List.foldlM_cons] at h
      obtain ⟨mid, u, hbody, hrest⟩ := Pass.exec_bind_eq_ok.1 h
      have hmid : mid.get? key = (map.get? key).or (f.firstAccess id key) := by
        unfold extractBody at hbody
        unfold Function.firstAccess
        cases hdecl : f.isDeclaration with
        | true =>
            rw [hdecl] at hbody
            cases hbody
            simp
        | false =>
            rw [hdecl] at hbody
            exact (hkey id f List.mem_cons_self hdecl).get?_extract hbody
      rw [ih (fun id f hmem => hkey id f (List.mem_cons_of_mem _ hmem)) hrest, hmid,
        Option.or_assoc, List.findSome?_cons]
      dsimp only
      cases f.firstAccess id key <;> rfl

end Module

end Pointee
