import Mathlib.Data.List.Forall2
import Pointee.SlotTyping
import Pointee.Proofs.Outcome

/-!
# Slots that annotations type

An annotation that fits its signature types exactly the slots that it has a sample for, by
`TypedSignature.annotated_total`. Typing them enters types into the type store; it is refused in no
state of the store and meets no fault.
-/

namespace Pointee

/-- A loop over a list that ends well for each member ends well, with one result for each. -/
theorem mapM_run_total {α β σ : Type} {F : α → StateT σ (Except Fault) β} {Q : α → β → Prop}
    {xs : List α} (h : ∀ x ∈ xs, ∀ s, ∃ y t, (F x).run s = .ok (y, t) ∧ Q x y) (s : σ) :
    ∃ ys t, (xs.mapM F).run s = .ok (ys, t) ∧ List.Forall₂ Q xs ys := by
  induction xs generalizing s with
  | nil => exact ⟨[], s, rfl, .nil⟩
  | cons x xs ih =>
      obtain ⟨y, t, hy, hQ⟩ := h x List.mem_cons_self s
      obtain ⟨ys, u, hys, hQs⟩ := ih (fun x hx => h x (List.mem_cons_of_mem _ hx)) t
      refine ⟨y :: ys, u, ?_, .cons hQ hQs⟩
      rw [List.mapM_cons, StateT.run_bind]
      refine bind_eq_ok_iff.2 ⟨_, hy, ?_⟩
      rw [StateT.run_bind]
      exact bind_eq_ok_iff.2 ⟨_, hys, rfl⟩

/-- The constant is not the address of a global that does not exist. -/
def Constant.Declared (ctx : Context) : Constant → Prop
  | .global id => ∃ global, ctx.global id = .ok global
  | _ => True

def Constant.checkDeclared (ctx : Context) : Constant → Bool
  | .global id => succeeds (ctx.global id) fun _ => true
  | _ => true

theorem Constant.declared_of_checkDeclared {ctx : Context} {c : Constant}
    (h : c.checkDeclared ctx = true) : c.Declared ctx := by
  cases c with
  | global id =>
      obtain ⟨global, hglobal, -⟩ := exists_of_succeeds h
      exact ⟨global, hglobal⟩
  | _ => trivial

theorem Constant.typeOf_total {ctx : Context} {c : Constant} (h : c.Declared ctx)
    (types : TypeStore) : ∃ ty types', (c.typeOf ctx).run types = .ok (ty, types') := by
  cases c with
  | global id =>
      obtain ⟨global, hglobal⟩ := h
      have htype : Constant.typeOf ctx (.global id) = do
          return .ptr (← ctx.global id).space := rfl
      rw [htype, hglobal]
      exact ⟨.ptr global.space, types, rfl⟩
  | _ => exact ⟨_, _, rfl⟩

theorem Annotation.mem_of_arg {a : Annotation} {i : Nat} {c : Constant} (h : a.arg? i = some c) :
    (i, c) ∈ a.args := by
  obtain ⟨⟨k, c'⟩, hfind, rfl⟩ := Option.map_eq_some_iff.1 h
  obtain rfl : k = i := by simpa using List.find?_some hfind
  exact List.mem_of_find?_eq_some hfind

namespace Signature

variable {ctx : Context} {sig : Signature}

/-- The sample that the annotation has for argument `i`. -/
def sample? (sig : Signature) (i : Nat) : Option Constant := sig.annotation.bind (·.arg? i)

/-- The annotation of a signature, if there is one, fits it: all its samples are for pointers of the
signature, and those that count are no globals that do not exist. -/
structure WellAnnotated (ctx : Context) (sig : Signature) : Prop where
  ret : ∀ a c, sig.annotation = some a → a.ret = some c → sig.ret.isPointer = true ∧ c.Declared ctx
  args : ∀ a i c, sig.annotation = some a → (i, c) ∈ a.args →
    ∃ ty, sig.args[i]? = some ty ∧ ty.isPointer = true
  declared : ∀ i c, sig.sample? i = some c → c.Declared ctx

namespace WellAnnotated

theorem misfit (h : sig.WellAnnotated ctx) : sig.annotation.bind (·.misfit? sig) = none := by
  cases ha : sig.annotation with
  | none => rfl
  | some a =>
      show a.misfit? sig = none
      unfold Annotation.misfit?
      rw [if_neg]
      · rw [List.findSome?_eq_none_iff]
        rintro ⟨i, c⟩ hi
        obtain ⟨ty, hty, hptr⟩ := h.args a i c ha hi
        simp [hty, hptr]
      · intro hret
        simp only [Bool.and_eq_true, Option.isSome_iff_exists, Bool.not_eq_true'] at hret
        obtain ⟨⟨c, hc⟩, hptr⟩ := hret
        rw [(h.ret a c ha hc).1] at hptr
        cases hptr

theorem sample (h : sig.WellAnnotated ctx) {i : Nat} {c : Constant} (hc : sig.sample? i = some c) :
    (∃ ty, sig.args[i]? = some ty ∧ ty.isPointer = true) ∧ c.Declared ctx := by
  obtain ⟨a, ha, harg⟩ := Option.bind_eq_some_iff.1 hc
  have hmem := Annotation.mem_of_arg harg
  exact ⟨h.args a i c ha hmem, h.declared i c hc⟩

end WellAnnotated

/-- Whether the annotation, if there is one, has samples for pointers only, none of them a global
that does not exist. -/
def checkSamples (ctx : Context) (sig : Signature) : Bool :=
  sig.annotation.all fun a =>
    (a.ret.all fun c => sig.ret.isPointer && c.checkDeclared ctx) &&
      a.args.all fun (i, c) => sig.args[i]?.any (·.isPointer) && c.checkDeclared ctx

theorem wellAnnotated_of_checkSamples (h : sig.checkSamples ctx = true) :
    sig.WellAnnotated ctx := by
  simp only [checkSamples, Option.all_eq_true, Bool.and_eq_true, List.all_eq_true,
    Option.any_eq_true] at h
  refine ⟨fun a c ha hc => ?_, fun a i c ha hmem => ?_, fun i c hc => ?_⟩
  · obtain ⟨hptr, hdeclared⟩ := (h a ha).1 c hc
    exact ⟨hptr, c.declared_of_checkDeclared hdeclared⟩
  · obtain ⟨ty, hty, hptr⟩ := ((h a ha).2 (i, c) hmem).1
    exact ⟨ty, hty, hptr⟩
  · obtain ⟨a, ha, harg⟩ := Option.bind_eq_some_iff.1 hc
    have hmem := Annotation.mem_of_arg harg
    exact c.declared_of_checkDeclared ((h a ha).2 (i, c) hmem).2

/-- A slot whose sample fits is typed if it has one. -/
theorem typeSlot_total {declared : Ty} {sample : Option Constant}
    (h : ∀ c, sample = some c → declared.isPointer = true ∧ c.Declared ctx) (types : TypeStore) :
    ∃ r types', (typeSlot ctx none declared sample (.ok none)).run types = .ok (r, types') ∧
      r.isSome = sample.isSome := by
  unfold typeSlot
  cases hspace : declared.space? with
  | none =>
      cases sample with
      | none => exact ⟨none, types, rfl, rfl⟩
      | some c =>
          have hptr := (h c rfl).1
          rw [Ty.isPointer, hspace] at hptr
          cases hptr
  | some space =>
      cases sample with
      | none => exact ⟨none, types, rfl, rfl⟩
      | some c =>
          obtain ⟨ty, types', hty⟩ := Constant.typeOf_total (h c rfl).2 types
          refine ⟨some ⟨ty, space⟩, types', ?_, rfl⟩
          show (c.typeOf ctx).run types >>= _ = _
          exact bind_eq_ok_iff.2 ⟨_, hty, rfl⟩

theorem typeSlots_total (h : sig.WellAnnotated ctx) (types : TypeStore) :
    ∃ typed types', (sig.typeSlots ctx none .none).run types = .ok (typed, types') ∧
      ∀ i, (typed.arg? i).isSome = (sig.sample? i).isSome := by
  have hret : ∀ c, sig.annotation.bind (·.ret) = some c →
      sig.ret.isPointer = true ∧ c.Declared ctx := by
    intro c hc
    obtain ⟨a, ha, hret⟩ := Option.bind_eq_some_iff.1 hc
    exact h.ret a c ha hret
  obtain ⟨ret, types₁, hrun₁, -⟩ := typeSlot_total hret types
  have hslot : ∀ p ∈ sig.args.zipIdx, ∀ types, ∃ r types',
      (typeSlot ctx none p.1 (sig.sample? p.2) (.ok none)).run types = .ok (r, types') ∧
        r.isSome = (sig.sample? p.2).isSome := by
    rintro ⟨ty, i⟩ hp types
    rw [List.mem_zipIdx_iff_getElem?] at hp
    refine typeSlot_total (fun c hc => ?_) types
    obtain ⟨⟨ty', hty', hptr⟩, hdeclared⟩ := h.sample hc
    cases hp.symm.trans hty'
    exact ⟨hptr, hdeclared⟩
  obtain ⟨args, types₂, hrun₂, hargs⟩ := mapM_run_total hslot types₁
  refine ⟨⟨ret, args⟩, types₂, ?_, fun i => ?_⟩
  · unfold typeSlots
    rw [StateT.run_bind]
    refine bind_eq_ok_iff.2 ⟨_, hrun₁, ?_⟩
    rw [StateT.run_bind]
    exact bind_eq_ok_iff.2 ⟨_, hrun₂, rfl⟩
  · have hlen : args.length = sig.args.length := by
      rw [← hargs.length_eq, List.length_zipIdx]
    by_cases hi : i < sig.args.length
    · have hget := hargs.get (by simpa using hi) (hlen ▸ hi)
      simpa [TypedSignature.arg?, hlen, hi] using hget
    · have hnone : sig.sample? i = none := by
        by_contra hsome
        obtain ⟨c, hc⟩ := Option.ne_none_iff_exists'.1 hsome
        obtain ⟨⟨ty, hty, -⟩, -⟩ := h.sample hc
        exact hi (List.getElem?_eq_some_iff.1 hty).1
      simp [TypedSignature.arg?, hnone, hlen, hi]

end Signature

/-- The slots of a callee that its annotation types are those that the annotation has samples for.
-/
theorem TypedSignature.annotated_total {ctx : Context} {callee : FuncId} {sig : Signature}
    (hsig : ctx.signature callee = .ok sig) (h : sig.WellAnnotated ctx) (types : TypeStore) :
    ∃ typed types', (TypedSignature.annotated ctx callee).exec types = .ok (.ok typed, types') ∧
      ∀ i, (typed.arg? i).isSome = (sig.sample? i).isSome := by
  obtain ⟨typed, types', hrun, hslots⟩ := Signature.typeSlots_total h types
  refine ⟨typed, types', ?_, hslots⟩
  unfold TypedSignature.annotated
  rw [Pass.exec_liftM_bind, hsig]
  show (sig.typed ctx none .none).exec types = _
  unfold Signature.typed
  rw [h.misfit]
  show (sig.typeSlots ctx none .none).run types >>= _ = _
  exact bind_eq_ok_iff.2 ⟨_, hrun, rfl⟩

end Pointee
