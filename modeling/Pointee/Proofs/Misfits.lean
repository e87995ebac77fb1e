import Pointee.Proofs.Declarations
import Pointee.Proofs.MarkerCoverage
import Pointee.Proofs.TypeGrowth

/-!
# Annotations that do not fit

Marking refuses for one reason: a function is called whose annotation does not fit its signature, by
`Module.mark_refusal`. If it succeeds, the annotations of all functions that are called fit, by
`Module.mark_fits`. In between it meets no fault that it would not meet without the annotations that
do not fit: `Context.keepSamples` leaves them out, and `Marking.markFunction_refusesOr` compares
the two runs.
-/

namespace Pointee

/-! ## Samples that are typed -/

theorem Constant.declared_of_typeOf {ctx : Context} {c : Constant} {types types' : TypeStore}
    {ty : Ty} (h : (c.typeOf ctx).run types = .ok (ty, types')) : c.Declared ctx := by
  cases c with
  | global id =>
      cases hglobal : ctx.global id with
      | ok global => exact ⟨global, hglobal⟩
      | error fault =>
          have htype : Constant.typeOf ctx (.global id) = do
              return .ptr (← ctx.global id).space := rfl
          rw [htype, hglobal] at h
          cases h
  | _ => trivial

namespace Signature

variable {ctx : Context} {sig : Signature}

theorem isPointer_of_fits (h : sig.annotation.bind (·.misfit? sig) = none) {a : Annotation}
    (ha : sig.annotation = some a) :
    (∀ c, a.ret = some c → sig.ret.isPointer = true) ∧
      ∀ i c, (i, c) ∈ a.args → ∃ ty, sig.args[i]? = some ty ∧ ty.isPointer = true := by
  rw [ha] at h
  have h : a.misfit? sig = none := h
  unfold Annotation.misfit? at h
  split at h
  · cases h
  · next hret =>
      refine ⟨fun c hc => ?_, fun i c hmem => ?_⟩
      · simpa [hc] using hret
      · have hentry := List.findSome?_eq_none_iff.1 h (i, c) hmem
        dsimp only at hentry
        split at hentry
        · cases hentry
        · next ty hty =>
            refine ⟨ty, hty, ?_⟩
            by_contra hptr
            rw [if_neg hptr] at hentry
            cases hentry

/-- The samples of the annotation that count are no globals that do not exist. -/
structure SamplesDeclared (ctx : Context) (sig : Signature) : Prop where
  ret : ∀ a c, sig.annotation = some a → a.ret = some c → c.Declared ctx
  arg : ∀ i c, sig.sample? i = some c → c.Declared ctx

theorem wellAnnotated_iff : sig.WellAnnotated ctx ↔
    sig.annotation.bind (·.misfit? sig) = none ∧ sig.SamplesDeclared ctx := by
  constructor
  · intro h
    exact ⟨h.misfit, fun a c ha hc => (h.ret a c ha hc).2, h.declared⟩
  · rintro ⟨hfits, hret, harg⟩
    exact ⟨fun a c ha hc => ⟨(isPointer_of_fits hfits ha).1 c hc, hret a c ha hc⟩,
      fun a i c ha hmem => (isPointer_of_fits hfits ha).2 i c hmem, harg⟩

/-- The annotation fits if the signature is typed by it. -/
theorem wellAnnotated_of_typed {typed : TypedSignature} {types types' : TypeStore}
    (h : (sig.typed ctx none .none).exec types = .ok (.ok typed, types')) :
    sig.WellAnnotated ctx := by
  have hfits : sig.annotation.bind (·.misfit? sig) = none := by
    unfold Signature.typed at h
    split at h
    · cases h
    · assumption
  -- A slot with a sample was typed by the type of the sample.
  have hslot : ∀ {ty : Ty} {c : Constant} {source : Except Fault (Option Descriptor)}
      {r : Option Descriptor} {s t : TypeStore}, ty.isPointer = true →
      (typeSlot ctx none ty (some c) source).run s = .ok (r, t) → c.Declared ctx := by
    intro ty c source r s t hptr hrun
    obtain ⟨space, hspace⟩ := Option.isSome_iff_exists.1 hptr
    unfold typeSlot at hrun
    rw [hspace] at hrun
    obtain ⟨ty', t', hty, -⟩ := TypeStore.run_bind_eq_ok.1 hrun
    exact Constant.declared_of_typeOf hty
  refine wellAnnotated_iff.2 ⟨hfits, fun a c ha hc => ?_, fun i c hc => ?_⟩
  · have hptr := (isPointer_of_fits hfits ha).1 c hc
    unfold Signature.typed at h
    rw [hfits] at h
    obtain ⟨⟨slots, t⟩, hslots, -⟩ := bind_eq_ok_iff.1 h
    have hslots : (sig.typeSlots ctx none .none).run types = .ok (slots, t) := hslots
    obtain ⟨ret, s₁, hret, -⟩ := TypeStore.run_bind_eq_ok.1 hslots
    have hsample : sig.annotation.bind (·.ret) = some c := by rw [ha]; exact hc
    rw [hsample] at hret
    exact hslot hptr hret
  · obtain ⟨a, ha, harg⟩ := Option.bind_eq_some_iff.1 hc
    have hmem := Annotation.mem_of_arg harg
    obtain ⟨ty, hty, hptr⟩ := (isPointer_of_fits hfits ha).2 i c hmem
    have hrun := typed_arg h (TypeStore.le_refl types') hty
    rw [show sig.annotation.bind (·.arg? i) = some c from hc] at hrun
    exact hslot hptr hrun

end Signature

theorem TypedSignature.fits_of_annotated {ctx : Context} {callee : FuncId} {typed : TypedSignature}
    {types types' : TypeStore}
    (h : (TypedSignature.annotated ctx callee).exec types = .ok (.ok typed, types')) :
    ∃ sig, ctx.signature callee = .ok sig ∧ sig.WellAnnotated ctx := by
  unfold TypedSignature.annotated at h
  rw [Pass.exec_liftM_bind] at h
  obtain ⟨sig, hsig, htyped⟩ := bind_eq_ok_iff.1 h
  exact ⟨sig, hsig, Signature.wellAnnotated_of_typed htyped⟩

/-- The slots of a callee that its annotation types do not depend on the type store. -/
theorem TypedSignature.isSome_annotated {ctx : Context} {callee : FuncId} {typed : TypedSignature}
    {s t : TypeStore} (h : (TypedSignature.annotated ctx callee).exec s = .ok (.ok typed, t)) :
    ∃ sig, ctx.signature callee = .ok sig ∧
      ∀ i, (typed.arg? i).isSome = (sig.sample? i).isSome := by
  obtain ⟨sig, hsig, hwell⟩ := fits_of_annotated h
  obtain ⟨typed', t', htyped, hslots⟩ := annotated_total hsig hwell s
  cases h.symm.trans htyped
  exact ⟨sig, hsig, hslots⟩

theorem TypedSignature.annotated_refusal (ctx : Context) (callee : FuncId) :
    Pass.RefusesOnly Refusal.IsMisfit (TypedSignature.annotated ctx callee) :=
  (Pass.RefusesOnly.lift _).bind fun sig => (sig.typed_bounded ctx none .none).refusal

/-! ## Runs of marking that end well -/

namespace Marking

variable {ctx : Context} {i : InstId} {s t : Marking} {count : Nat}

/-- The function that an instruction calls has an annotation that fits, if the instruction was
marked. -/
theorem markInst_fits (hs : s.func.Sound) (hlt : i.index < s.func.graph.insts.size)
    (h : (markInst ctx i).exec s = .ok (.ok count, t)) {callee : FuncId}
    (hcallee : s.func.InstIs i (·.callee? = some callee)) :
    ∃ sig, ctx.signature callee = .ok sig ∧ sig.WellAnnotated ctx := by
  obtain ⟨globals, wrapped, _, _, s₁, s₂, s₃, h₁, h₂, h₃, -, -⟩ := markInst_ok h
  -- Wrapping operands changes no callee.
  have hmarked : s.func.MarkedFor s.func.graph.insts.size i s₂.func :=
    Function.wrapPointer_marked hs (Function.wrapGlobals_marked hs .refl hlt h₁) hlt h₂
  have hcallee' : s₂.func.InstIs i (·.callee? = some callee) :=
    ((hmarked.keeps hs).1.instIs_iff (Inst.ofShape_eq Inst.callee?_shape (some callee)) hlt).2
      hcallee
  obtain ⟨site, hsite, hcall⟩ := markCall_eq_ok h₃
  obtain ⟨inst, hinst, hofInst⟩ := bind_eq_ok_iff.1 hsite
  obtain ⟨args, ret, rfl⟩ := Inst.eq_call_of_callee (hcallee'.of_inst hinst)
  cases hofInst
  rcases hcall with ⟨hother, -⟩ | ⟨callee', args', heq, ⟨⟨e, hrefused⟩, -⟩ |
    ⟨typed, types, slots, htyped, -⟩⟩
  · exact absurd rfl (hother callee args)
  · cases hrefused
  · cases heq
    exact TypedSignature.fits_of_annotated htyped

/-- All functions that are called have annotations that fit, if the calls were marked. -/
theorem markFunction_fits (hs : s.func.Sound)
    (h : (markFunction ctx).exec s = .ok (.ok count, t)) :
    ∀ i ∈ s.func.insts, ∀ callee, s.func.InstIs i (·.callee? = some callee) →
      ∃ sig, ctx.signature callee = .ok sig ∧ sig.WellAnnotated ctx := by
  rw [markFunction, Pass.exec_bind_of_ok (Pass.exec_get s)] at h
  refine (Pass.foldlM_invariant (P := fun done _ (u : Marking) =>
    s.func.Marked s.func.graph.insts.size u.func ∧ ∀ i ∈ done, ∀ callee,
      s.func.InstIs i (·.callee? = some callee) →
      ∃ sig, ctx.signature callee = .ok sig ∧ sig.WellAnnotated ctx) ?_ ⟨.refl, by simp⟩ h).2
  rintro done i rest count u count' u' hsplit ⟨hmarked, hdone⟩ hround
  obtain ⟨n, v, hrun, hrest⟩ := Pass.exec_bind_eq_ok.1 hround
  cases hrest
  have hi : i ∈ s.func.insts := by simp [hsplit]
  have hlt := hs.lt_of_mem_insts hi
  obtain ⟨hext, hsound⟩ := hmarked.keeps hs
  have hlt' := Nat.lt_of_lt_of_le hlt hext.size_le
  refine ⟨hmarked.trans (markInst_marked hsound hlt hext.size_le hrun).marked, ?_⟩
  intro j hj callee hcallee
  rcases List.mem_append.1 hj with hj | hj
  · exact hdone j hj callee hcallee
  · obtain rfl := List.mem_singleton.1 hj
    refine markInst_fits hsound hlt' hrun ?_
    exact (hext.instIs_iff (Inst.ofShape_eq Inst.callee?_shape (some callee)) hlt).2 hcallee

/-! ## Refusals of marking -/

theorem edit_refusal {α : Type} {R : Refusal → Prop}
    (step : Function → Except Fault (α × Function)) : Pass.RefusesOnly R (edit step) := by
  intro s e t h
  obtain ⟨a, heq, -⟩ := edit_eq_ok h
  cases heq

theorem annotated_refusal (ctx : Context) (callee : FuncId) :
    Pass.RefusesOnly Refusal.IsMisfit (annotated ctx callee) := by
  intro s e t h
  obtain ⟨⟨r, types⟩, hrun, hrest⟩ := bind_eq_ok_iff.1 h
  cases hrest
  exact TypedSignature.annotated_refusal ctx callee s.types e _ hrun

theorem markCall_refusal (ctx : Context) (i : InstId) (wrapped : List Nat) :
    Pass.RefusesOnly Refusal.IsMisfit (markCall ctx i wrapped) := by
  refine Pass.RefusesOnly.get.bind fun s => (Pass.RefusesOnly.lift _).bind fun site => ?_
  cases site with
  | call callee args => exact (annotated_refusal ctx callee).bind fun typed => edit_refusal _
  | _ => exact .pure 0

theorem markResult_refusal (i : InstId) : Pass.RefusesOnly Refusal.IsMisfit (markResult i) := by
  refine Pass.RefusesOnly.get.bind fun s => (Pass.RefusesOnly.lift _).bind fun inst => ?_
  cases inst with
  | gep | alloca => exact edit_refusal _
  | _ => exact .pure 0

theorem markFunction_refusal (ctx : Context) :
    Pass.RefusesOnly Refusal.IsMisfit (markFunction ctx) := by
  refine Pass.RefusesOnly.get.bind fun s => .foldlM (fun count i => ?_) _ 0
  refine Pass.RefusesOnly.bind ?_ fun n => .pure _
  refine (edit_refusal _).bind fun globals => (edit_refusal _).bind fun wrapped => ?_
  exact (markCall_refusal ctx i wrapped).bind fun arguments =>
    (markResult_refusal i).bind fun results => .pure _

end Marking

/-! ## Leaving out what does not fit -/

namespace Pass

variable {σ α β : Type} {p q : Pass σ α} {k l : α → Pass σ β}

/-- The pass does as `q` does, unless it refuses. -/
def RefusesOr (p q : Pass σ α) : Prop :=
  ∀ s, p.exec s = q.exec s ∨ ∃ e t, p.exec s = .ok (.error e, t)

namespace RefusesOr

theorem refl (p : Pass σ α) : RefusesOr p p := fun _ => .inl rfl

theorem bind (hp : RefusesOr p q) (hk : ∀ a, RefusesOr (k a) (l a)) :
    RefusesOr (p >>= k) (q >>= l) := by
  intro s
  rcases hp s with hsame | ⟨e, t, hrefused⟩
  · rw [exec_bind, exec_bind, hsame]
    split
    · exact .inl rfl
    · exact .inl rfl
    · next a t _ => exact hk a t
  · exact .inr ⟨e, t, by rw [exec_bind, hrefused]⟩

theorem foldlM {step step' : β → α → Pass σ β} (h : ∀ b a, RefusesOr (step b a) (step' b a))
    (as : List α) (b : β) : RefusesOr (as.foldlM step b) (as.foldlM step' b) := by
  induction as generalizing b with
  | nil => exact refl _
  | cons a as ih =>
      rw [List.foldlM_cons, List.foldlM_cons]
      exact (h b a).bind ih

/-- A pass meets no fault if the one it is compared with meets none. -/
theorem returns (h : RefusesOr p q) {s : σ} (hq : q.Returns s) : p.Returns s := by
  rcases h s with hsame | ⟨e, t, hrefused⟩
  · obtain ⟨r, t, hrun⟩ := hq
    exact ⟨r, t, hsame.trans hrun⟩
  · exact ⟨.error e, t, hrefused⟩

end RefusesOr

end Pass

/-- The signature, without its annotation unless `keep` holds of it. -/
def Signature.keepSamples (keep : Signature → Bool) (sig : Signature) : Signature :=
  if keep sig then sig else { sig with annotation := none }

/-- The context with the annotations of those signatures that `keep` holds of. -/
def Context.keepSamples (ctx : Context) (keep : Signature → Bool) : Context :=
  { ctx with signatures := ctx.signatures.map (·.keepSamples keep) }

/-- Whether the annotation, if there is one, fits the signature. -/
def Signature.fits (sig : Signature) : Bool := (sig.annotation.bind (·.misfit? sig)).isNone

variable {ctx : Context} {keep : Signature → Bool}

theorem Context.signature_keepSamples (ctx : Context) (keep : Signature → Bool) (f : FuncId) :
    (ctx.keepSamples keep).signature f = (·.keepSamples keep) <$> ctx.signature f := by
  simp only [Context.signature, keepSamples, Array.getElem?_map]
  cases ctx.signatures[f.index]? <;> rfl

/-- What is left of the annotations fits if those fit that were kept. -/
theorem Context.exists_wellAnnotated {f : FuncId} {sig : Signature}
    (hsig : ctx.signature f = .ok sig) (h : keep sig = true → sig.WellAnnotated ctx) :
    ∃ sig', (ctx.keepSamples keep).signature f = .ok sig' ∧
      sig'.WellAnnotated (ctx.keepSamples keep) := by
  have hdeclared : ∀ {c : Constant}, c.Declared ctx → c.Declared (ctx.keepSamples keep) := by
    intro c hc
    cases c with
    | global id => exact hc
    | _ => trivial
  refine ⟨sig.keepSamples keep, by rw [signature_keepSamples, hsig]; rfl, ?_⟩
  unfold Signature.keepSamples
  split
  · next hkeep =>
      have hwell := h hkeep
      exact ⟨fun a c ha hc => ⟨(hwell.ret a c ha hc).1, hdeclared (hwell.ret a c ha hc).2⟩,
        hwell.args, fun i c hc => hdeclared (hwell.declared i c hc)⟩
  · exact ⟨fun a c => nofun, fun a i c => nofun, fun i c => nofun⟩

theorem TypedSignature.annotated_refusesOr (ctx : Context) (callee : FuncId) :
    Pass.RefusesOr (TypedSignature.annotated ctx callee)
      (TypedSignature.annotated (ctx.keepSamples Signature.fits) callee) := by
  intro types
  unfold TypedSignature.annotated
  rw [Pass.exec_liftM_bind, Pass.exec_liftM_bind, Context.signature_keepSamples]
  cases ctx.signature callee with
  | error fault => exact .inl rfl
  | ok sig =>
      show (sig.typed ctx none .none).exec types =
          ((sig.keepSamples Signature.fits).typed (ctx.keepSamples Signature.fits) none
            .none).exec types ∨
        ∃ e t, (sig.typed ctx none .none).exec types = .ok (.error e, t)
      rw [Signature.typed_congr (show (ctx.keepSamples _).globals = ctx.globals from rfl)]
      unfold Signature.keepSamples
      split
      · exact .inl rfl
      · next hmisfit =>
          unfold Signature.fits at hmisfit
          obtain ⟨e, he⟩ := Option.ne_none_iff_exists'.1 (mt Option.isNone_iff_eq_none.2 hmisfit)
          refine .inr ⟨e, types, ?_⟩
          unfold Signature.typed
          rw [he]
          rfl

namespace Marking

variable {ctx : Context} {s : Marking}

theorem annotated_refusesOr (ctx : Context) (callee : FuncId) :
    Pass.RefusesOr (annotated ctx callee)
      (annotated (ctx.keepSamples Signature.fits) callee) := by
  intro s
  show ((TypedSignature.annotated ctx callee).exec s.types >>= _) = _ ∨ _
  rcases TypedSignature.annotated_refusesOr ctx callee s.types with hsame | ⟨e, types, hrefused⟩
  · rw [hsame]
    exact .inl rfl
  · exact .inr ⟨e, { s with types }, bind_eq_ok_iff.2 ⟨_, hrefused, rfl⟩⟩

/-- Marking does as it would without the annotations that do not fit, until it is refused for one of
them. -/
theorem markFunction_refusesOr (ctx : Context) :
    Pass.RefusesOr (markFunction ctx) (markFunction (ctx.keepSamples Signature.fits)) := by
  have hcall : ∀ i wrapped, Pass.RefusesOr (markCall ctx i wrapped)
      (markCall (ctx.keepSamples Signature.fits) i wrapped) := by
    intro i wrapped
    refine (Pass.RefusesOr.refl _).bind fun s => (Pass.RefusesOr.refl _).bind fun site => ?_
    cases site with
    | call callee args => exact (annotated_refusesOr ctx callee).bind fun typed => .refl _
    | _ => exact .refl _
  refine (Pass.RefusesOr.refl _).bind fun s => .foldlM (fun count i => ?_) _ 0
  refine Pass.RefusesOr.bind ?_ fun n => .refl _
  refine (Pass.RefusesOr.refl _).bind fun globals => (Pass.RefusesOr.refl _).bind fun wrapped => ?_
  exact (hcall i wrapped).bind fun arguments => .refl _

/-- Marking looks at nothing of a context but its globals and its signatures. -/
theorem markFunction_congr {ctx ctx' : Context} (h : ctx'.globals = ctx.globals)
    (hsigs : ctx'.signatures = ctx.signatures) : markFunction ctx' = markFunction ctx := by
  have hannotated : ∀ callee, annotated ctx' callee = annotated ctx callee := by
    intro callee
    unfold annotated
    rw [TypedSignature.annotated_congr h hsigs]
  simp only [markFunction, markInst, markCall, hannotated]

end Marking

/-! ## Functions -/

namespace Function

variable {f : Function}

/-- Which functions are called is all that depends on the context. -/
theorem Markable.withCallees {ctx ctx' : Context} (h : f.Markable ctx')
    (hcallees : ∀ i ∈ f.insts, ∀ callee, f.InstIs i (·.callee? = some callee) →
      ∃ sig, ctx.signature callee = .ok sig ∧ sig.WellAnnotated ctx) : f.Markable ctx :=
  ⟨⟨h.closed, h.phis, h.based, h.defined, hcallees⟩, h.written, h.flat⟩

end Function

/-! ## Modules -/

namespace Module

variable {m m' : Module}

/-- Marking is refused only for an annotation that does not fit. -/
theorem mark_refusal {e : Refusal} (h : mark.exec m = .ok (.error e, m')) : e.IsMisfit := by
  have hrun : Pass.RefusesOnly Refusal.IsMisfit mark := by
    refine Pass.RefusesOnly.get.bind fun m => Pass.RefusesOnly.bind ?_ fun count => .pure _
    refine .foldlM (fun count f => Pass.RefusesOnly.bind ?_ fun n => .pure _) _ 0
    intro m e m' h
    obtain ⟨func, -, hrest⟩ := bind_eq_ok_iff.1 h
    obtain ⟨⟨r, t⟩, hmark, hrest⟩ := bind_eq_ok_iff.1 hrest
    cases hrest
    exact Marking.markFunction_refusal m.ctx _ e t hmark
  exact hrun m e m' h

/-- In `m'`, the functions `done` of `m` are marked, and the others are what they were. -/
structure MarkRuns (m : Module) (done : List FuncId) (m' : Module) : Prop where
  types : ∃ types, m'.ctx = { m.ctx with types }
  size : m'.funcs.size = m.funcs.size
  marked : ∀ id ∈ done, ∀ f, m.func id = .ok f → ∃ types n t,
    (Marking.markFunction m.ctx).exec ⟨types, f⟩ = .ok (.ok n, t) ∧ m'.func id = .ok t.func
  ahead : ∀ id, id ∉ done → m'.func id = m.func id

theorem MarkRuns.start (m : Module) : m.MarkRuns [] m :=
  ⟨⟨m.ctx.types, rfl⟩, rfl, fun _ hid => absurd hid List.not_mem_nil, fun _ _ => rfl⟩

section Runs

variable {done : List FuncId} {id : FuncId}

/-- Marking the next function is a run over what the function was at the start. -/
theorem MarkRuns.exec (h : m.MarkRuns done m') (hid : id ∉ done) : ∃ types,
    (markFunction id).exec m' = do
      let (count, s) ← (Marking.markFunction m.ctx).exec ⟨types, ← m.func id⟩
      return (count, (m'.setTypes s.types).setFunc id s.func) := by
  obtain ⟨types, hctx⟩ := h.types
  refine ⟨m'.ctx.types, ?_⟩
  have hcongr : Marking.markFunction m'.ctx = Marking.markFunction m.ctx :=
    Marking.markFunction_congr (by rw [hctx]) (by rw [hctx])
  rw [← h.ahead id hid, ← hcongr]
  rfl

theorem MarkRuns.step (h : m.MarkRuns done m') (hid : id ∉ done) {n : Nat} {m'' : Module}
    (hrun : (markFunction id).exec m' = .ok (.ok n, m'')) : m.MarkRuns (done ++ [id]) m'' := by
  obtain ⟨types, hexec⟩ := h.exec hid
  rw [hexec] at hrun
  obtain ⟨f, hf, hrun⟩ := bind_eq_ok_iff.1 hrun
  obtain ⟨⟨_, t⟩, ht, hrun⟩ := bind_eq_ok_iff.1 hrun
  cases hrun
  have hlt : id.index < (m'.setTypes t.types).funcs.size := by
    have hlt := (Array.getElem?_eq_some_iff.1 (func_eq_ok.1 hf)).1
    exact h.size ▸ hlt
  obtain ⟨types', hctx⟩ := h.types
  refine ⟨⟨t.types, by rw [setFunc, setTypes, hctx]⟩, (Array.size_setIfInBounds ..).trans h.size,
    fun j hj g hg => ?_, fun j hj => ?_⟩
  · rw [func_setFunc hlt]
    by_cases heq : j = id
    · subst heq
      cases hf.symm.trans hg
      exact ⟨types, n, t, ht, if_pos rfl⟩
    · rw [if_neg heq]
      exact h.marked j ((List.mem_append.1 hj).resolve_right (by simpa using heq)) g hg
  · rw [List.mem_append, List.mem_singleton, not_or] at hj
    rw [func_setFunc hlt, if_neg hj.2]
    exact h.ahead j hj.1

end Runs

theorem not_mem_of_funcIds {done rest : List FuncId} {id : FuncId}
    (h : m.funcIds = done ++ id :: rest) : id ∉ done := by
  have hnodup := m.nodup_funcIds
  rw [h] at hnodup
  exact fun hmem => (List.nodup_append.1 hnodup).2.2 id hmem id List.mem_cons_self rfl

/-- A run of marking that succeeds has marked every function from what it was. -/
theorem mark_ok {marked : Bool} (h : mark.exec m = .ok (.ok marked, m')) :
    m.MarkRuns m.funcIds m' := by
  rw [mark, Pass.exec_bind_of_ok (Pass.exec_get m)] at h
  obtain ⟨count, m'', hloop, hrest⟩ := Pass.exec_bind_eq_ok.1 h
  cases hrest
  refine Pass.foldlM_invariant (P := fun done _ m' => m.MarkRuns done m') ?_ (.start m) hloop
  intro done id rest count m₁ count' m₂ hsplit hruns hround
  obtain ⟨n, m₃, hrun, hrest⟩ := Pass.exec_bind_eq_ok.1 hround
  cases hrest
  exact hruns.step (not_mem_of_funcIds hsplit) hrun

/-- Marking meets no fault if it would meet none without the annotations that do not fit. -/
theorem mark_returns (hm : ∀ id f, m.func id = .ok f →
    f.Markable (m.ctx.keepSamples Signature.fits)) : mark.Returns m := by
  unfold Pass.Returns
  rw [mark, Pass.exec_bind_of_ok (Pass.exec_get m)]
  refine Pass.Returns.bind ?_ fun count m' _ => ⟨_, _, rfl⟩
  refine Pass.Returns.foldlM (P := fun done _ m' => m.MarkRuns done m') ?_ (.start m)
  intro done id rest count m₁ hsplit hruns
  have hid := not_mem_of_funcIds hsplit
  refine ⟨Pass.Returns.bind ?_ fun n m₂ _ => ⟨_, _, rfl⟩, fun count' m₂ hround => ?_⟩
  · obtain ⟨f, hf⟩ := exists_func_of_mem (m := m) (f := id) (by simp [hsplit])
    obtain ⟨types, hexec⟩ := hruns.exec hid
    have hmarkable : (⟨types, f⟩ : Marking).func.Markable
        (m.ctx.keepSamples Signature.fits) := hm id f hf
    obtain ⟨t, hok, -⟩ := Marking.markFunction_total hmarkable
    obtain ⟨r, t', hrun⟩ := (Marking.markFunction_refusesOr m.ctx).returns ⟨_, t, hok⟩
    exact ⟨r, _, hexec.trans (bind_eq_ok_iff.2 ⟨f, hf, bind_eq_ok_iff.2 ⟨_, hrun, rfl⟩⟩)⟩
  · obtain ⟨n, m₃, hrun, hrest⟩ := Pass.exec_bind_eq_ok.1 hround
    cases hrest
    exact hruns.step hid hrun

end Module

end Pointee
