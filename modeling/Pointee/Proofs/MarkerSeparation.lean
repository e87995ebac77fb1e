import Pointee.Proofs.Misfits
import Pointee.Proofs.SiteReading

/-!
# Markers of operands and of results

Marking makes two kinds of markers: one wraps an operand, the other stands behind an instruction and
wraps the address that it makes. The marker of an operand does not wrap such an address in the end.
If the address had its marker already, nothing else consumes it, and if its marker comes later, it
takes the place of the address. `Function.ApartAt` says this of one operand, and
`Marking.markFunction_separated` of all sites of a function that is marked. A function need only be
sound for this: some operands may name values that do not exist.
-/

namespace Pointee

theorem Graph.inst_of_call {g : Graph} {i : InstId} {callee : FuncId} {args : List ValueId}
    (h : g.site i = .ok (.call callee args)) : ∃ ret, g.inst i = .ok (.call callee args ret) := by
  obtain ⟨inst, hinst, hofInst⟩ := Graph.site_eq_ok.1 h
  cases inst with
  | call callee' args' ret =>
      cases hofInst
      exact ⟨ret, hinst⟩
  | gep source result args => cases args <;> cases hofInst
  | cast op arg ty => cases op <;> cases hofInst
  | _ => cases hofInst

theorem TypedSignature.isSome_arg {ctx : Context} {callee : FuncId} {args : List ValueId} {ret : Ty}
    {typed : TypedSignature} {s t : TypeStore}
    (h : (TypedSignature.annotated ctx callee).exec s = .ok (.ok typed, t)) (slot : Nat) :
    (typed.arg? slot).isSome = (Inst.call callee args ret).annotates ctx slot := by
  obtain ⟨sig, hsig, hslots⟩ := isSome_annotated h
  rw [hslots]
  simp [Inst.annotates, succeeds, hsig]

namespace Function

variable {f f' f₀ g g' : Function} {start slot s : Nat} {makers : InstId → Prop}
  {i j k : InstId} {p v w : ValueId} {ctx : Context} {slots : List Nat}

/-! ## Wrapping operands -/

/-- Operand `slot` of `i` is the value of the instruction `k`. -/
def DefinedAt (f : Function) (i : InstId) (slot : Nat) (k : InstId) : Prop :=
  ∃ p ty, f.graph.operand i slot = .ok p ∧ f.graph.value p = .ok (.inst k ty)

/-- The operands that were wrapped are values of instructions made meanwhile. -/
theorem WrapsSlots.fresh (h : f.WrapsSlots i slots g) (hf : f.Sound) :
    f.graph.insts.size ≤ g.graph.insts.size ∧ g.Sound ∧
      ∀ s ∈ slots, ∃ k, f.graph.insts.size ≤ k.index ∧ g.DefinedAt i s k := by
  induction h with
  | refl => exact ⟨Nat.le_refl _, hf, by simp⟩
  | @wrap slots s g g' _ hrun ih =>
      obtain ⟨hsize, hg, hslots⟩ := ih
      obtain ⟨v, ty, -, hinter⟩ := hg.wrapOperand_eq_ok hrun
      refine ⟨?_, hinter.sound, fun t ht => ?_⟩
      · rw [hinter.size_insts]
        omega
      by_cases hts : t = s
      · refine ⟨g.graph.nextInst, hsize, g.graph.nextValue, ty, ?_, ?_⟩
        · rw [hinter.operand_eq, if_neg hinter.user_ne, if_pos ⟨rfl, hts⟩]
        · rw [hinter.value_eq, if_pos rfl]
      · have hmem : t ∈ slots := by simpa [hts] using ht
        obtain ⟨k, hk, p, pty, hop, hval⟩ := hslots t hmem
        refine ⟨k, hk, p, pty, ?_, (hinter.extends hg).keeps p _ hval⟩
        rw [hinter.operand_eq, if_neg hinter.user_ne, if_neg fun hand => hts hand.2, hop]

/-! ## Markers that stay apart -/

/-- The first operand of `k` is no address that one of `makers` defines. -/
def Avoids (f : Function) (makers : InstId → Prop) (k : InstId) : Prop :=
  ∀ j v, makers j → f.graph.result? j = some v → f.graph.operand k 0 ≠ .ok v

/-- Operand `slot` of `i` is the value of an instruction made from `start` on, whose own operand is
no address that one of `makers` defines. -/
def ApartAt (f : Function) (start : Nat) (makers : InstId → Prop) (i : InstId) (slot : Nat) :
    Prop :=
  ∃ k, start ≤ k.index ∧ f.DefinedAt i slot k ∧ f.Avoids makers k

theorem ApartAt.mono {makers' : InstId → Prop} (h : f.ApartAt start makers i slot)
    (hmakers : ∀ j, makers' j → makers j) : f.ApartAt start makers' i slot := by
  obtain ⟨k, hk, hdefined, havoids⟩ := h
  exact ⟨k, hk, hdefined, fun j v hj => havoids j v (hmakers j hj)⟩

section Step

variable (h : f.MarkStep start i f') (hf : f.Sound) (hi : i.index < start)
  (hle : start ≤ f.graph.insts.size)
include h hf hi hle

/-- An edit for `i` leaves the markers of operands of other instructions where they are. -/
theorem MarkStep.definedAt (hj : j ≠ i) (hk : start ≤ k.index) (hdefined : f.DefinedAt j slot k) :
    f'.DefinedAt j slot k := by
  obtain ⟨p, ty, hop, hval⟩ := hdefined
  obtain ⟨inst, hinst, -⟩ := Graph.operand_eq_ok.1 hop
  rcases h.operand_old hle (Graph.inst_lt hinst) slot with hsame | ⟨-, heq | ⟨v, hv, hop'⟩⟩
  · exact ⟨p, ty, hsame.trans hop, (h.keeps hf).1.keeps p _ hval⟩
  · exact absurd heq hj
  · -- What `i` defines is not the value of a marker.
    cases hop.symm.trans hop'
    obtain ⟨vty, hval'⟩ := (hf.graph.result_iff i p).1 hv
    cases hval.symm.trans hval'
    omega

/-- An edit for `i` makes no instruction consume an address that has its marker. -/
theorem MarkStep.avoids (hmakers : ∀ j, makers j → j ≠ i ∧ j.index < start ∧ f.SoleAt start j)
    (hk : k.index < f.graph.insts.size → f.Avoids makers k) : f'.Avoids makers k := by
  intro j v hj hv hop
  obtain ⟨hne, hlt, v', m, hv', hm, hused⟩ := hmakers j hj
  obtain ⟨hext, hf'⟩ := h.keeps hf
  obtain ⟨vty, hval⟩ := (hf'.graph.result_iff j v).1 hv
  rw [hext.result? j (Nat.lt_of_lt_of_le hlt hle)] at hv
  cases hv.symm.trans hv'
  by_cases hold : k.index < f.graph.insts.size
  · rcases h.operand_old hle hold 0 with hsame | ⟨⟨w, x, ty, hw, hval', hx⟩, -⟩
    · exact hk hold j v hj hv (hsame ▸ hop)
    · cases hop.symm.trans hw
      cases hval.symm.trans hval'
      omega
  · obtain ⟨-, ⟨t, hop'⟩ | hresult⟩ := h.operand_new (Nat.not_lt.1 hold) hop
    · -- Only its marker consumes the address, and `i` is no marker.
      have him := ((hused i t).1 hop').1
      rw [← him] at hm
      omega
    · exact hne (hf.graph.result_inj hv hresult)

end Step

/-- What edits for one instruction keep of the markers made before. -/
structure KeepsApart (start : Nat) (makers : InstId → Prop) (i : InstId) (f f' : Function) :
    Prop where
  sole : ∀ j, makers j → f'.SoleAt start j
  defined : ∀ j slot k, j ≠ i → start ≤ k.index → f.DefinedAt j slot k → f'.DefinedAt j slot k
  avoids : ∀ k, (k.index < f.graph.insts.size → f.Avoids makers k) → f'.Avoids makers k

theorem MarkedFor.keepsApart (h : f.MarkedFor start i f') (hf : f.Sound) (hi : i.index < start)
    (hle : start ≤ f.graph.insts.size)
    (hmakers : ∀ j, makers j → j ≠ i ∧ j.index < start ∧ f.SoleAt start j) :
    KeepsApart start makers i f f' := by
  refine (h.invariant (P := KeepsApart start makers i f) hf
    ⟨fun j hj => (hmakers j hj).2.2, fun _ _ _ _ _ hdefined => hdefined, fun k hk => ?_⟩ ?_).2.2
  · intro j v hj hv hop
    obtain ⟨inst, hinst, -⟩ := Graph.operand_eq_ok.1 hop
    exact hk (Graph.inst_lt hinst) j v hj hv hop
  · intro g g' hext hg hkeeps hstep
    have hle' := Nat.le_trans hle hext.size_le
    refine ⟨fun j hj => ?_, fun j slot k hj hk hdefined => ?_, fun k hk => ?_⟩
    · obtain ⟨hne, hlt, -⟩ := hmakers j hj
      exact hstep.soleAt hg hi hle' hne hlt (hkeeps.sole j hj)
    · exact hstep.definedAt hg hi hle' hj hk (hkeeps.defined j slot k hj hk hdefined)
    · refine hstep.avoids hg hi hle' (fun j hj => ?_) fun _ => hkeeps.avoids k hk
      exact ⟨(hmakers j hj).1, (hmakers j hj).2.1, hkeeps.sole j hj⟩

/-! ## What is done -/

/-- The operands that need a marker for what they point to: the pointer operand of an access or an
address computation, and the arguments that the callee has samples for. -/
def IsSite (ctx : Context) (f : Function) (i : InstId) (slot : Nat) : Prop :=
  f.HasSlot i slot ∧
    f.InstIs i fun inst => inst.pointerSlot? = some slot ∨ inst.annotates ctx slot = true

theorem IsSite.of_extends (h : f.Extends f') (hi : i.index < f.graph.insts.size) :
    f'.IsSite ctx i slot ↔ f.IsSite ctx i slot := by
  have hshape : Inst.OfShape fun inst =>
      inst.pointerSlot? = some slot ∨ inst.annotates ctx slot = true := by
    intro inst
    show inst.shape.pointerSlot? = _ ∨ inst.shape.annotates ctx slot = _ ↔ _
    rw [Inst.pointerSlot?_shape, Inst.annotates_shape]
  unfold IsSite
  rw [h.hasSlot_iff hi, h.instIs_iff hshape hi]

/-- One of the given instructions, which makes an address. -/
def MakesOneOf (f : Function) (insts : List InstId) (j : InstId) : Prop :=
  j ∈ insts ∧ f.InstIs j (·.makesAddress = true) ∧ ∃ v, f.graph.result? j = some v

/-- The state of marking `f₀` when the operands of `wrapped` have their markers, and the results of
`done`. -/
structure Separated (ctx : Context) (f₀ : Function) (wrapped done : List InstId) (f : Function) :
    Prop where
  sound : f.Sound
  extension : f₀.Extends f
  sole : ∀ j, f₀.MakesOneOf done j → f.SoleAt f₀.graph.insts.size j
  apart : ∀ j ∈ wrapped, ∀ slot, f₀.IsSite ctx j slot →
    f.ApartAt f₀.graph.insts.size (f₀.MakesOneOf done) j slot

section Separated

variable {wrapped done : List InstId} (hf₀ : f₀.Sound) (hdone : ∀ j ∈ done, j ∈ f₀.insts)
  (hnew : i ∉ done)
include hf₀ hdone hnew

theorem Separated.of_makes (h : f₀.Separated ctx wrapped done f) (j : InstId)
    (hj : f₀.MakesOneOf done j) :
    j ≠ i ∧ j.index < f₀.graph.insts.size ∧ f.SoleAt f₀.graph.insts.size j :=
  ⟨fun heq => hnew (heq ▸ hj.1), hf₀.lt_of_mem_insts (hdone j hj.1), h.sole j hj⟩

variable (hi : i ∈ f₀.insts)
include hi

/-- Wrapping its sites separates one more instruction. -/
theorem Separated.wrap (h : f₀.Separated ctx done done f)
    (hmarked : f.MarkedFor f₀.graph.insts.size i g) (hwraps : f.WrapsSlots i slots g)
    (hslots : ∀ s, f₀.IsSite ctx i s → s ∈ slots) :
    f₀.Separated ctx (done ++ [i]) done g := by
  have hlt := hf₀.lt_of_mem_insts hi
  have hle := h.extension.size_le
  obtain ⟨hext, hg⟩ := hmarked.keeps h.sound
  have hkeeps := hmarked.keepsApart h.sound hlt hle (h.of_makes hf₀ hdone hnew)
  refine ⟨hg, h.extension.trans hext, hkeeps.sole, fun j hj slot hsite => ?_⟩
  rcases List.mem_append.1 hj with hj | hj
  · obtain ⟨k, hk, hdefined, havoids⟩ := h.apart j hj slot hsite
    have hji : j ≠ i := fun heq => hnew (heq ▸ hj)
    exact ⟨k, hk, hkeeps.defined j slot k hji hk hdefined, hkeeps.avoids k fun _ => havoids⟩
  · obtain rfl := List.mem_singleton.1 hj
    obtain ⟨-, -, hfresh⟩ := hwraps.fresh h.sound
    obtain ⟨k, hk, hdefined⟩ := hfresh slot (hslots slot hsite)
    exact ⟨k, Nat.le_trans hle hk, hdefined,
      hkeeps.avoids k fun hold => absurd hold (Nat.not_lt.2 hk)⟩

/-- Wrapping its result keeps the markers of operands apart from one more address. -/
theorem Separated.wrapResult (h : f₀.Separated ctx wrapped done f)
    (hmarked : f.MarkedFor f₀.graph.insts.size i g) (hwraps : f.WrapsResult i v g) :
    f₀.Separated ctx wrapped (done ++ [i]) g := by
  have hlt := hf₀.lt_of_mem_insts hi
  have hle := h.extension.size_le
  obtain ⟨hext, hg⟩ := hmarked.keeps h.sound
  have hkeeps := hmarked.keepsApart h.sound hlt hle (h.of_makes hf₀ hdone hnew)
  -- A maker is one of before, or `i`.
  have hcases : ∀ {j}, f₀.MakesOneOf (done ++ [i]) j → f₀.MakesOneOf done j ∨ j = i := by
    rintro j ⟨hj, hmakes⟩
    rcases List.mem_append.1 hj with hj | hj
    · exact .inl ⟨hj, hmakes⟩
    · exact .inr (List.mem_singleton.1 hj)
  refine ⟨hg, h.extension.trans hext, fun j hj => ?_, fun j hj slot hsite => ?_⟩
  · rcases hcases hj with hj | rfl
    · exact hkeeps.sole j hj
    · exact ⟨v, f.graph.nextInst, hwraps.result, hle, hwraps.sole⟩
  · obtain ⟨k, hk, ⟨p, ty, hop, hval⟩, havoids⟩ := h.apart j hj slot hsite
    have hpv : p ≠ v := by
      rintro rfl
      obtain ⟨vty, hval'⟩ := (hg.graph.result_iff i p).1 hwraps.result
      cases (hext.keeps p _ hval).symm.trans hval'
      omega
    have hkf := h.sound.graph.defined_lt p k ty hval
    refine ⟨k, hk, ⟨p, ty, hwraps.kept j slot p hpv hop, hext.keeps p _ hval⟩, ?_⟩
    intro x u hx hu hxop
    rcases hcases hx with hx | rfl
    · exact hkeeps.avoids k (fun _ => havoids) x u hx hu hxop
    · cases hwraps.result.symm.trans hu
      rw [((hwraps.sole k 0).1 hxop).1] at hkf
      exact Nat.lt_irrefl _ hkf

end Separated

/-- An instruction that makes no address leaves nothing to separate from. -/
theorem Separated.skipResult {wrapped done : List InstId} (h : f₀.Separated ctx wrapped done f)
    (hno : ¬ f₀.MakesOneOf [i] i) : f₀.Separated ctx wrapped (done ++ [i]) f := by
  have hmakers : ∀ j, f₀.MakesOneOf (done ++ [i]) j → f₀.MakesOneOf done j := by
    rintro j ⟨hj, hmakes⟩
    rcases List.mem_append.1 hj with hj | hj
    · exact ⟨hj, hmakes⟩
    · obtain rfl := List.mem_singleton.1 hj
      exact absurd ⟨hj, hmakes⟩ hno
  exact ⟨h.sound, h.extension, fun j hj => h.sole j (hmakers j hj),
    fun j hj slot hsite => (h.apart j hj slot hsite).mono hmakers⟩

end Function

/-! ## Runs of marking -/

namespace Marking

variable {ctx : Context} {n : Nat} {i : InstId} {s t : Marking} {f f₀ : Function}
  {done : List InstId}

/-- The arguments that the callee has samples for are wrapped if they are not already. -/
theorem markCall_wraps (hlt : i.index < f.graph.insts.size) (hext : f.Extends s.func)
    {slots : List Nat} (hwraps : f.WrapsSlots i slots s.func)
    (h : (markCall ctx i slots).exec s = .ok (.ok n, t)) :
    ∃ slots', f.WrapsSlots i slots' t.func ∧ (∀ k ∈ slots, k ∈ slots') ∧
      ∀ k, f.HasSlot i k → f.InstIs i (·.annotates ctx k = true) → k ∈ slots' := by
  obtain ⟨inst, hinst⟩ := Graph.exists_inst hlt
  obtain ⟨inst', hinst', hshape⟩ := Graph.inst_of_shape_eq (hext.shape i hlt) hinst
  have hcallee := Inst.eq_of_shape Inst.callee?_shape hshape
  obtain ⟨site, hsite, ⟨hother, -, hfunc⟩ | ⟨callee, args, rfl, ⟨⟨e, hrefused⟩, -⟩ |
    ⟨typed, types, more, htyped, rfl, -, hloop⟩⟩⟩ := markCall_eq_ok h
  · refine ⟨slots, hfunc ▸ hwraps, fun k hk => hk, fun k _ his => ?_⟩
    have hannotates := his.of_inst hinst
    obtain ⟨_, hinst'', hofInst⟩ := Graph.site_eq_ok.1 hsite
    cases hinst'.symm.trans hinst''
    cases hcase : inst.callee? with
    | none =>
        rw [Inst.annotates_of_callee_none ctx hcase] at hannotates
        cases hannotates
    | some callee =>
        obtain ⟨args, ret, rfl⟩ := Inst.eq_call_of_callee (hcallee.trans hcase)
        cases hofInst
        exact absurd rfl (hother callee args)
  · cases hrefused
  · obtain ⟨ret, hcall⟩ := Graph.inst_of_call hsite
    cases hinst'.symm.trans hcall
    refine ⟨_, hwraps.trans hloop, fun k hk => List.mem_append_left _ hk, fun k hk his => ?_⟩
    have hlength : args.length = inst.operands.length := Inst.length_operands_of_shape hshape
    have hk' : k < args.length := by
      rw [hlength]
      exact (Function.hasSlot_iff hinst).1 hk
    have hsome : (typed.arg? k).isSome = true := by
      rw [TypedSignature.isSome_arg htyped k,
        Inst.eq_of_shape (Inst.annotates_shape ctx k) hshape]
      exact his.of_inst hinst
    by_cases hin : k ∈ slots
    · exact List.mem_append_left _ hin
    · refine List.mem_append_right _ (List.mem_filter.2 ⟨List.mem_range.2 hk', ?_⟩)
      simp [hsome, hin]

/-- Marking an instruction wraps operands of it, the sites among them, and then the address that it
makes, if it makes one. -/
theorem markInst_stages {start : Nat} (hs : s.func.Sound) (hi : i ∈ s.func.insts)
    (hstart : i.index < start) (hle : start ≤ s.func.graph.insts.size)
    (h : (markInst ctx i).exec s = .ok (.ok n, t)) :
    ∃ mid slots, s.func.MarkedFor start i mid ∧ s.func.WrapsSlots i slots mid ∧
      (∀ slot, s.func.IsSite ctx i slot → slot ∈ slots) ∧
      (¬ s.func.MakesOneOf [i] i ∧ t.func = mid ∨
        ∃ v, mid.MarkedFor start i t.func ∧ mid.WrapsResult i v t.func) := by
  have hlt := hs.lt_of_mem_insts hi
  obtain ⟨globals, wrapped, arguments, results, s₁, s₂, s₃, h₁, h₂, h₃, h₄, -⟩ := markInst_ok h
  have hwraps₁ := Function.wrapGlobals_wraps h₁
  obtain ⟨hwraps₂, hpointer⟩ := hwraps₁.wrapPointer h₂
  have hmarked₁ := Function.wrapGlobals_marked hs .refl hstart h₁
  have hmarked₂ := Function.wrapPointer_marked hs hmarked₁ hstart h₂
  have hext₁ := (hmarked₁.keeps hs).1
  obtain ⟨slots, hwraps₃, hslots, hannotates⟩ :=
    markCall_wraps hlt (hmarked₂.keeps hs).1 hwraps₂ h₃
  have hmarked₃ : s.func.MarkedFor start i s₃.func :=
    markCall_preserves hs hstart wrapped s₂ _ s₃ hmarked₂ h₃
  obtain ⟨hext₃, hsound₃⟩ := hmarked₃.keeps hs
  refine ⟨s₃.func, slots, hmarked₃, hwraps₃, fun slot hsite => ?_, ?_⟩
  · obtain ⟨hslot, inst, hinst, hreason⟩ := hsite
    rcases hreason with hreason | hreason
    · refine hslots slot (hpointer slot ?_)
      rw [hext₁.instIs_iff (Inst.ofShape_eq Inst.pointerSlot?_shape (some slot)) hlt]
      exact ⟨inst, hinst, hreason⟩
    · exact hannotates slot hslot ⟨inst, hinst, hreason⟩
  have hmakes := hext₃.instIs_iff (Inst.ofShape_eq Inst.makesAddress_shape true) hlt
  obtain ⟨inst, hinst, ⟨hno, -, hfunc⟩ | ⟨hyes, _, -, hwrap⟩⟩ := markResult_eq_ok h₄
  · refine .inl ⟨fun hmaker => ?_, hfunc⟩
    cases hno.symm.trans ((hmakes.2 hmaker.2.1).of_inst hinst)
  rcases Function.wrapResult_eq_ok hwrap with ⟨hnone, -, hfunc⟩ | ⟨v, _, _, _, _, hresult, -⟩
  · refine .inl ⟨fun hmaker => ?_, hfunc⟩
    obtain ⟨v, hv⟩ := hmaker.2.2
    cases hnone.symm.trans ((hext₃.result? i hlt).trans hv)
  · have hi₃ := (hext₃.mem_insts_iff hs hsound₃ hlt).2 hi
    obtain ⟨g, hwraps⟩ := hsound₃.exists_wrapsResult hi₃ hresult
    cases hwrap.symm.trans hwraps.run
    have hle₃ := Nat.le_trans hle hext₃.size_le
    exact .inr ⟨v, Function.wrapResult_marked hsound₃ .refl hstart hle₃ hinst hyes hwrap, hwraps⟩

/-- Marking an instruction separates its sites from the addresses made so far, and all sites from
the address that it makes. -/
theorem markInst_separated (hf₀ : f₀.Sound) (hdone : ∀ j ∈ done, j ∈ f₀.insts) (hnew : i ∉ done)
    (hi : i ∈ f₀.insts) (h : f₀.Separated ctx done done s.func)
    (hrun : (markInst ctx i).exec s = .ok (.ok n, t)) :
    f₀.Separated ctx (done ++ [i]) (done ++ [i]) t.func := by
  have hlt := hf₀.lt_of_mem_insts hi
  have hi' := (h.extension.mem_insts_iff hf₀ h.sound hlt).2 hi
  obtain ⟨mid, slots, hmarked, hwraps, hsites, hresult⟩ :=
    markInst_stages h.sound hi' hlt h.extension.size_le hrun
  have hmid := h.wrap hf₀ hdone hnew hi hmarked hwraps fun slot hsite =>
    hsites slot ((Function.IsSite.of_extends h.extension hlt).2 hsite)
  rcases hresult with ⟨hno, hfunc⟩ | ⟨v, hmarked', hwraps'⟩
  · rw [hfunc]
    refine hmid.skipResult fun hmaker => hno ⟨hmaker.1, ?_, ?_⟩
    · rw [h.extension.instIs_iff (Inst.ofShape_eq Inst.makesAddress_shape true) hlt]
      exact hmaker.2.1
    · rw [h.extension.result? i hlt]
      exact hmaker.2.2
  · exact hmid.wrapResult hf₀ hdone hnew hi hmarked' hwraps'

/-- Once a function is marked, the markers of its sites stay apart from the addresses that it
makes. -/
theorem markFunction_separated (hf : s.func.Sound)
    (h : (markFunction ctx).exec s = .ok (.ok n, t)) :
    s.func.Separated ctx s.func.insts s.func.insts t.func := by
  rw [markFunction, Pass.exec_bind_of_ok (Pass.exec_get s)] at h
  have hnodup := hf.nodup_insts
  refine Pass.foldlM_invariant (P := fun done _ (u : Marking) =>
    s.func.Separated ctx done done u.func) ?_ ⟨hf, .refl hf, fun j hj => ?_, by simp⟩ h
  · intro done i rest count u count' u' hsplit hseparated hround
    obtain ⟨m, u₁, hrun, hrest⟩ := Pass.exec_bind_eq_ok.1 hround
    cases hrest
    rw [hsplit] at hnodup
    have hnew : i ∉ done := fun hmem => (List.nodup_append.1 hnodup).2.2 i hmem i (by simp) rfl
    exact markInst_separated hf (by simp +contextual [hsplit]) hnew (by simp [hsplit]) hseparated
      hrun
  · exact absurd hj.1 List.not_mem_nil

end Marking

end Pointee
