import Pointee.Proofs.ExactExtraction

/-!
# The coverage check guards extraction

Where the coverage check accepts a module, extraction finds a marker wherever it asks for one, by
`Module.checked_extraction_finds_markers`. The check and extraction ask in different ways: the check
by the position of an operand, extraction by what a site binds. `Function.Checked` says what the
check has seen at an instruction, and each part of extraction is shown to need no more. Nothing else
is asked of the module: operands and records of consumers may be anything.
-/

namespace Pointee

/-! ## What the check has seen -/

/-- The refusal is about a marker that is missing. -/
def Refusal.OfMarker (e : Refusal) : Prop :=
  ∃ func inst, e = .unmarkedOperand func inst ∨ e = .unmarkedResult func inst

theorem Refusal.OfSymbol.not_ofMarker {e : Refusal} (h : e.OfSymbol) : ¬ e.OfMarker := by
  rintro ⟨func, inst, rfl | rfl⟩ <;> simp [OfSymbol, IsMisfit] at h

namespace Function

variable {ctx : Context} {f : Function} {id : FuncId} {i : InstId} {s t : TypeStore} {site : Site}
  {map : PtrMap}

/-- The pointers that extraction asks a marker for at an instruction have one: the pointer operand,
the arguments that the annotation of the callee has a sample for, and the address that is made. -/
structure Checked (ctx : Context) (f : Function) (i : InstId) : Prop where
  pointer : ∀ slot v, f.InstIs i (·.pointerSlot? = some slot) → f.graph.operand i slot = .ok v →
    ∃ w, f.graph.markedOperand v = .ok (some w)
  argument : ∀ callee args sig slot v, f.graph.site i = .ok (.call callee args) →
    ctx.signature callee = .ok sig → args[slot]? = some v → (sig.sample? slot).isSome = true →
    ∃ w, f.graph.markedOperand v = .ok (some w)
  result : f.InstIs i (·.makesAddress = true) → ∃ v, f.graph.soleMarker i = .ok (some v)

theorem marked_of_isNone {x : Except Fault (Option ValueId)}
    (h : (do return (← x).isNone : Except Fault Bool) = .ok false) : ∃ w, x = .ok (some w) := by
  obtain ⟨found, hx, hsome⟩ := bind_eq_ok_iff.1 h
  cases found with
  | none => cases hsome
  | some w => exact ⟨w, hx⟩

theorem marked_of_pointerUnmarked {slot : Nat} {v : ValueId} (h : f.pointerUnmarked i = .ok false)
    (hslot : f.InstIs i (·.pointerSlot? = some slot)) (hv : f.graph.operand i slot = .ok v) :
    ∃ w, f.graph.markedOperand v = .ok (some w) := by
  obtain ⟨inst, hinst, hslot⟩ := hslot
  obtain ⟨inst', hinst', hrest⟩ := bind_eq_ok_iff.1 h
  cases hinst.symm.trans hinst'
  rw [hslot] at hrest
  obtain ⟨v', hv', hrest⟩ := bind_eq_ok_iff.1 hrest
  cases hv.symm.trans hv'
  exact marked_of_isNone hrest

theorem marked_of_argumentUnmarked {typed : TypedSignature} {args : List ValueId} {slot : Nat}
    {v : ValueId} (h : f.argumentUnmarked typed args = .ok false) (hv : args[slot]? = some v)
    (hslot : (typed.arg? slot).isSome = true) : ∃ w, f.graph.markedOperand v = .ok (some w) := by
  have hmem := anyM_false h (v, slot) (List.mem_zipIdx_iff_getElem?.2 hv)
  dsimp only at hmem
  rw [if_pos hslot] at hmem
  exact marked_of_isNone hmem

theorem marked_of_resultUnmarked (h : f.resultUnmarked i = .ok false)
    (hmakes : f.InstIs i (·.makesAddress = true)) : ∃ v, f.graph.soleMarker i = .ok (some v) := by
  obtain ⟨inst, hinst, hmakes⟩ := hmakes
  obtain ⟨inst', hinst', hrest⟩ := bind_eq_ok_iff.1 h
  cases hinst.symm.trans hinst'
  cases inst with
  | gep | alloca => exact marked_of_isNone hrest
  | _ => cases hmakes

/-- The check accepts an instruction only if it is a marker or has its markers. -/
theorem checked_of_checkInst (h : (f.checkInst ctx id i).exec s = .ok (.ok (), t)) :
    f.graph.isMarker i = .ok true ∨ f.Checked ctx i := by
  have hrefuse : ∀ {reason} (s : TypeStore) (a : Unit) (t : TypeStore),
      (f.refuse ctx id i reason).exec s ≠ .ok (.ok a, t) := fun s a t => refuse_not_ok
  unfold checkInst at h
  rw [Pass.exec_liftM_bind] at h
  obtain ⟨marker, hmarker, h⟩ := bind_eq_ok_iff.1 h
  cases marker with
  | true => exact .inl hmarker
  | false =>
      right
      obtain ⟨-, h⟩ := Pass.exec_unless (Pass.bind_not_ok hrefuse) h
      obtain ⟨hpointer, h⟩ := Pass.exec_unless (Pass.bind_not_ok hrefuse) h
      rw [Pass.exec_liftM_bind] at h
      obtain ⟨site, hsite, h⟩ := bind_eq_ok_iff.1 h
      cases site with
      | call callee args =>
          obtain ⟨typed, u, htyped, h⟩ := Pass.exec_bind_eq_ok.1 h
          obtain ⟨hargument, h⟩ := Pass.exec_unless (Pass.bind_not_ok hrefuse) h
          obtain ⟨hresult, -⟩ := Pass.exec_unless hrefuse h
          refine ⟨fun slot v => marked_of_pointerUnmarked hpointer, ?_,
            marked_of_resultUnmarked hresult⟩
          intro callee' args' sig slot v hsite' hsig hv hsample
          cases hsite.symm.trans hsite'
          obtain ⟨sig', hsig', hslots⟩ := TypedSignature.isSome_annotated htyped
          cases hsig.symm.trans hsig'
          exact marked_of_argumentUnmarked hargument hv ((hslots slot).trans hsample)
      | _ =>
          obtain ⟨hresult, -⟩ := Pass.exec_unless hrefuse h
          refine ⟨fun slot v => marked_of_pointerUnmarked hpointer, ?_,
            marked_of_resultUnmarked hresult⟩
          intro callee args sig slot v hsite'
          cases hsite.symm.trans hsite'

/-! ## Extraction -/

theorem refuseType_refusal {α : Type} (v : ValueId) :
    Pass.RefusesOnly (¬ ·.OfMarker) (f.refuseType ctx id i v : Pass TypeStore α) := by
  refine .lift_bind fun sig _ => .lift_bind fun inst _ => .lift_bind fun ty _ =>
    .lift_bind fun text _ => ?_
  intro s e t h
  cases h
  rintro ⟨func, inst, h | h⟩ <;> cases h

/-- What a binding site is asked a marker for is its pointer operand. -/
theorem Checked.extractBinding_refusal (h : f.Checked ctx i) (hsite : f.graph.site i = .ok site) :
    Pass.RefusesOnly (¬ ·.OfMarker) (f.extractBinding ctx id map i site) := by
  refine .lift_bind fun binding hbinding => ?_
  cases binding with
  | none => exact .pure map
  | some access =>
      obtain ⟨ptr, elem⟩ := access
      refine .lift_bind fun space _ => ?_
      cases space with
      | none => exact refuseType_refusal ptr
      | some space =>
          obtain ⟨inst, hinst, hofInst⟩ := Graph.site_eq_ok.1 hsite
          obtain ⟨slot, hslot, hptr⟩ := Site.pointerSlot_of_binding hofInst hbinding
          obtain ⟨w, hw⟩ := h.pointer slot ptr ⟨inst, hinst, hslot⟩
            (Graph.operand_eq_ok.2 ⟨inst, hinst, hptr⟩)
          refine .lift_bind fun wrapped hwrapped => ?_
          cases hw.symm.trans hwrapped
          exact (Pass.RefusesOnly.lift _).bind fun key => .pure _

/-- Only address computations and allocations are asked for the marker of their result. -/
theorem Checked.extractResult_refusal (h : f.Checked ctx i) (hsite : f.graph.site i = .ok site) :
    Pass.RefusesOnly (¬ ·.OfMarker) (f.extractResult ctx id map i site) := by
  unfold extractResult
  split
  · next pointee v hpointee hresult =>
      refine .lift_bind fun space _ => ?_
      cases space with
      | none => exact refuseType_refusal v
      | some space =>
          obtain ⟨inst, hinst, hofInst⟩ := Graph.site_eq_ok.1 hsite
          obtain ⟨w, hw⟩ := h.result
            ⟨inst, hinst, Site.makesAddress_of_resultPointee hofInst hpointee⟩
          refine .lift_bind fun marker hmarker => ?_
          cases hw.symm.trans hmarker
          exact .pure _
  · exact .pure map

/-- The arguments of a call that are asked for a marker are those with a sample. -/
theorem Checked.extractCall_refusal (h : f.Checked ctx i) (hsite : f.graph.site i = .ok site) :
    Pass.RefusesOnly (¬ ·.OfMarker) (f.extractCall ctx id map i site) := by
  unfold extractCall
  split
  · next callee args =>
      have hmisfit := (TypedSignature.annotated_refusal ctx callee).mono
        fun e he => Refusal.OfSymbol.not_ofMarker (.inl he)
      refine hmisfit.bind_of_ok fun typed s t htyped => ?_
      obtain ⟨sig, hsig, hslots⟩ := TypedSignature.isSome_annotated htyped
      refine .foldlM_of_mem (fun ⟨v, slot⟩ hmem map => ?_) map
      rw [List.mem_zipIdx_iff_getElem?] at hmem
      unfold extractArgument
      cases hd : typed.arg? slot with
      | none => exact .pure map
      | some d =>
          have hsample : (sig.sample? slot).isSome = true := by rw [← hslots, hd]; rfl
          obtain ⟨w, hw⟩ := h.argument callee args sig slot v hsite hsig hmem hsample
          refine .lift_bind fun wrapped hwrapped => ?_
          cases hw.symm.trans hwrapped
          exact .pure _
  · exact .pure map

/-- Extraction misses no marker at an instruction that is one or has its own. -/
theorem extractInst_refusal (h : f.graph.isMarker i = .ok true ∨ f.Checked ctx i) :
    Pass.RefusesOnly (¬ ·.OfMarker) (f.extractInst ctx id map i) := by
  refine .lift_bind fun marker hmarker => ?_
  cases marker with
  | true => exact .pure map
  | false =>
      rcases h with hmarker' | hchecked
      · cases hmarker.symm.trans hmarker'
      · refine .lift_bind fun site hsite => ?_
        exact (hchecked.extractBinding_refusal hsite).bind fun map =>
          (hchecked.extractResult_refusal hsite).bind fun map => hchecked.extractCall_refusal hsite

end Function

namespace Module

variable {m m' : Module}

/-- Every instruction of the module is a marker or has its markers. -/
def Checked (m : Module) : Prop :=
  ∀ id f, m.func id = .ok f → ∀ i ∈ f.insts, f.graph.isMarker i = .ok true ∨ f.Checked m.ctx i

theorem checked_of_checkCoverage {s t : TypeStore}
    (h : m.checkCoverage.exec s = .ok (.ok ⟨⟩, t)) : m.Checked := by
  intro id f hf i hi
  obtain ⟨s₁, t₁, hfunc⟩ := Pass.forM_rounds h (id, f) (mem_funcList.2 hf)
  obtain ⟨s₂, t₂, hinst⟩ := Pass.forM_rounds hfunc i hi
  exact Function.checked_of_checkInst hinst

/-- What the check has seen is no matter of the type store. -/
theorem Checked.setTypes (h : m.Checked) (types : TypeStore) : (m.setTypes types).Checked := by
  intro id f hf i hi
  exact (h id f hf i hi).imp_right fun hi => ⟨hi.pointer, hi.argument, hi.result⟩

/-- Extraction refuses a module that the check accepts for another reason than a missing marker. -/
theorem Checked.extract_refusal (h : m.Checked) (config : Config) :
    Pass.RefusesOnly (¬ ·.OfMarker) (m.extract config) := by
  have hbodies (map : PtrMap) :
      Pass.RefusesOnly (¬ ·.OfMarker) (m.funcList.foldlM m.extractBody map) := by
    refine .foldlM_of_mem (fun ⟨id, f⟩ hmem map => ?_) map
    unfold extractBody
    split
    · exact .pure map
    · refine Pass.RefusesOnly.bind (.foldlM_of_mem (fun i hi map => ?_) map) fun map => .lift _
      exact Function.extractInst_refusal (h id f (mem_funcList.1 hmem) i hi)
  refine (hbodies _).bind fun map => Pass.RefusesOnly.bind ?_ fun map => ?_
  · exact (classifyFunctions_refusal map).mono fun e he => Refusal.OfSymbol.not_ofMarker (.inl he)
  · exact (classifyTable_refusal map).mono fun e he => he.not_ofMarker

/-- Where the coverage check accepts a module, extraction refuses no operand and no result for want
of a marker, whatever the configuration and whatever types are in the store by then. -/
theorem checked_extraction_finds_markers (h : checkPass.exec m = .ok (.ok (), m')) :
    ∀ config types e m'', (extractPass config).exec (m.setTypes types) = .ok (.error e, m'') →
      ∀ func inst, e ≠ .unmarkedOperand func inst ∧ e ≠ .unmarkedResult func inst := by
  intro config types e m'' hextract func inst
  obtain ⟨_, hcheck, -⟩ := exec_reading_eq_ok h
  obtain ⟨t, hrun, -⟩ := exec_reading_eq_ok hextract
  have hchecked := (checked_of_checkCoverage hcheck).setTypes types
  have hother := hchecked.extract_refusal config _ e t hrun
  exact ⟨fun he => hother ⟨func, inst, .inl he⟩, fun he => hother ⟨func, inst, .inr he⟩⟩

/-- A function that allocates and marks a number, and then reads through the marker of another
number. The check does not look at types. -/
def readsThroughNumber : Except Fault Module :=
  ofInsts ⟨.air64, .bitcode, .v7⟩ ⟨"f", .exported, [.i32], .unit, none⟩
    [.alloca .i32 .generic, .marker ⟨1⟩ .genericPtr, .marker ⟨0⟩ .i32, .load ⟨3⟩ .i8, .ret none]

theorem checked_extraction_finds_markers_readsThroughNumber : ∃ m m₁ m₂ e,
    readsThroughNumber = .ok m ∧ checkPass.exec m = .ok (.ok (), m₁) ∧
    (extractPass (.ofStrategy .eager)).exec m = .ok (.error e, m₂) ∧
    ∀ func inst, e ≠ .unmarkedOperand func inst ∧ e ≠ .unmarkedResult func inst := by
  have hrun : succeeds readsThroughNumber (fun m =>
      succeeds (checkPass.exec m) fun check =>
        succeeds ((extractPass (.ofStrategy .eager)).exec m) fun extract =>
          check.1.isOk && !extract.1.isOk) = true := by
    decide +kernel
  obtain ⟨m, hm, hrun⟩ := exists_of_succeeds hrun
  obtain ⟨⟨r₁, m₁⟩, hcheck, hrun⟩ := exists_of_succeeds hrun
  obtain ⟨⟨r₂, m₂⟩, hextract, hrun⟩ := exists_of_succeeds hrun
  rw [Bool.and_eq_true] at hrun
  cases r₁ with
  | error e => cases hrun.1
  | ok =>
      cases r₂ with
      | ok map => cases hrun.2
      | error e =>
          exact ⟨m, m₁, m₂, e, hm, hcheck, hextract,
            checked_extraction_finds_markers hcheck _ m.ctx.types e m₂ hextract⟩

end Module

end Pointee
