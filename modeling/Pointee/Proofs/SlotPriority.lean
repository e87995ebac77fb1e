import Pointee.Proofs.ExactExtraction

/-!
# Slots are filled by priority

Typing a signature against a pointer map comes down to two rules. `Signature.FirstMisfit` is the one
for refusals: the return slot is looked at first, then the entries of the annotation in order, those
for the same argument too. `Signature.Fills` is the one for slots: a sample comes before what the
map knows, and that before the fallback. `Signature.slots_filled_by_priority` says that typing does
both.
-/

namespace Pointee

open TypeStore

/-! ## Annotations that do not fit -/

namespace Signature

/-- The argument exists and is a pointer. -/
def TakesPointer (sig : Signature) (i : Nat) : Prop :=
  ∃ ty, sig.args[i]? = some ty ∧ ty.isPointer = true

/-- The refusal of an entry for argument `i`. -/
inductive BadEntry (sig : Signature) (i : Nat) : Refusal → Prop
  | outOfRange : sig.args[i]? = none →
      BadEntry sig i (.annotationOutOfRange sig.name i sig.args.length)
  | notPointer {ty : Ty} : sig.args[i]? = some ty → ty.isPointer = false →
      BadEntry sig i (.annotationNotPointer sig.name (.arg i))

/-- The refusal of the first part of the annotation that does not fit. -/
inductive FirstMisfit (sig : Signature) : Refusal → Prop
  | ret {a : Annotation} {c : Constant} : sig.annotation = some a → a.ret = some c →
      sig.ret.isPointer = false → FirstMisfit sig (.annotationNotPointer sig.name .ret)
  | entry {a : Annotation} {before after : List (Nat × Constant)} {i : Nat} {c : Constant}
      {e : Refusal} : sig.annotation = some a → (a.ret.isSome → sig.ret.isPointer = true) →
      a.args = before ++ (i, c) :: after → (∀ p ∈ before, sig.TakesPointer p.1) →
      sig.BadEntry i e → FirstMisfit sig e

/-- The annotation has a sample for a return value that is no pointer, or an entry for an argument
that does not exist or is no pointer. -/
def Malformed (sig : Signature) : Prop :=
  ∃ a, sig.annotation = some a ∧
    (a.ret.isSome = true ∧ sig.ret.isPointer = false ∨ ∃ p ∈ a.args, ¬ sig.TakesPointer p.1)

variable {sig : Signature} {i : Nat} {e : Refusal}

/-- The check of one entry. -/
def entryMisfit? (sig : Signature) (i : Nat) : Option Refusal :=
  match sig.args[i]? with
  | none => some (.annotationOutOfRange sig.name i sig.args.length)
  | some ty => if ty.isPointer then none else some (.annotationNotPointer sig.name (.arg i))

theorem entryMisfit?_eq_some_iff : sig.entryMisfit? i = some e ↔ sig.BadEntry i e := by
  unfold entryMisfit?
  constructor
  · intro h
    split at h
    · next hnone =>
        cases h
        exact .outOfRange hnone
    · next ty hty =>
        split at h
        · cases h
        · next hptr =>
            cases h
            exact .notPointer hty (Bool.eq_false_iff.2 hptr)
  · rintro (hnone | ⟨hty, hptr⟩)
    · rw [hnone]
    · rw [hty]
      exact if_neg (Bool.eq_false_iff.1 hptr)

theorem entryMisfit?_eq_none_iff : sig.entryMisfit? i = none ↔ sig.TakesPointer i := by
  unfold entryMisfit? TakesPointer
  cases sig.args[i]? <;> simp

theorem misfit?_eq_some_iff :
    sig.annotation.bind (·.misfit? sig) = some e ↔ sig.FirstMisfit e := by
  have hunfold : ∀ a : Annotation, a.misfit? sig =
      if a.ret.isSome && !sig.ret.isPointer then some (.annotationNotPointer sig.name .ret)
      else a.args.findSome? fun p => sig.entryMisfit? p.1 := fun a => rfl
  constructor
  · intro h
    obtain ⟨a, ha, h⟩ := Option.bind_eq_some_iff.1 h
    rw [hunfold] at h
    split at h
    · next hret =>
        cases h
        simp only [Bool.and_eq_true, Option.isSome_iff_exists, Bool.not_eq_true'] at hret
        obtain ⟨⟨c, hc⟩, hptr⟩ := hret
        exact .ret ha hc hptr
    · next hret =>
        obtain ⟨before, ⟨i, c⟩, after, hsplit, hbad, hbefore⟩ := List.findSome?_eq_some_iff.1 h
        refine .entry ha (fun hsome => ?_) hsplit ?_ (entryMisfit?_eq_some_iff.1 hbad)
        · simpa [hsome] using hret
        · exact fun p hp => entryMisfit?_eq_none_iff.1 (hbefore p hp)
  · rintro (⟨ha, hc, hptr⟩ | ⟨ha, hret, hsplit, hbefore, hbad⟩)
    · refine Option.bind_eq_some_iff.2 ⟨_, ha, ?_⟩
      rw [hunfold, if_pos (by simp [hc, hptr])]
    · refine Option.bind_eq_some_iff.2 ⟨_, ha, ?_⟩
      rw [hunfold, if_neg (by simpa using hret)]
      refine List.findSome?_eq_some_iff.2 ⟨_, _, _, hsplit, entryMisfit?_eq_some_iff.2 hbad, ?_⟩
      exact fun p hp => entryMisfit?_eq_none_iff.2 (hbefore p hp)

theorem BadEntry.not_takesPointer (h : sig.BadEntry i e) : ¬ sig.TakesPointer i := by
  rintro ⟨ty, hty, hptr⟩
  cases h with
  | outOfRange hnone => cases hty.symm.trans hnone
  | notPointer hty' hptr' =>
      cases hty.symm.trans hty'
      cases hptr.symm.trans hptr'

/-- An annotation is malformed exactly if there is a first part of it that does not fit. -/
theorem malformed_iff : sig.Malformed ↔ ∃ e, sig.FirstMisfit e := by
  constructor
  · rintro ⟨a, ha, hbad⟩
    cases hmisfit : sig.annotation.bind (·.misfit? sig) with
    | some e => exact ⟨e, misfit?_eq_some_iff.1 hmisfit⟩
    | none =>
        obtain ⟨hret, hargs⟩ := isPointer_of_fits hmisfit ha
        rcases hbad with ⟨hsome, hptr⟩ | ⟨⟨i, c⟩, hmem, hnot⟩
        · obtain ⟨c, hc⟩ := Option.isSome_iff_exists.1 hsome
          cases hptr.symm.trans (hret c hc)
        · exact absurd (hargs i c hmem) hnot
  · rintro ⟨e, hfirst⟩
    cases hfirst with
    | ret ha hc hptr => exact ⟨_, ha, .inl ⟨by rw [hc]; rfl, hptr⟩⟩
    | @entry a before after i c _ ha _ hsplit _ hbad =>
        exact ⟨a, ha, .inr ⟨(i, c), by simp [hsplit], hbad.not_takesPointer⟩⟩

/-- Typing is refused for the first part of the annotation that does not fit, before anything is
read. -/
theorem typed_eq_error_iff {ctx : Context} {fallback : Option Ty} {source : SlotSource}
    {s t : TypeStore} : (sig.typed ctx fallback source).exec s = .ok (.error e, t) ↔
      t = s ∧ sig.FirstMisfit e := by
  constructor
  · intro h
    have hmisfit := (sig.typed_bounded_misfit ctx fallback source).refusal s e t h
    refine ⟨?_, misfit?_eq_some_iff.1 hmisfit⟩
    unfold typed at h
    rw [hmisfit] at h
    cases h
    rfl
  · rintro ⟨rfl, hfirst⟩
    unfold typed
    rw [misfit?_eq_some_iff.2 hfirst]
    rfl

end Signature

/-! ## What a function returns -/

namespace SlotSource

variable {map : PtrMap} {f : FuncId} {g : Graph} {i : InstId} {d d' : Descriptor}

/-- The instruction returns a value that the map has a descriptor for. -/
def Returned (map : PtrMap) (f : FuncId) (g : Graph) (i : InstId) (d : Descriptor) : Prop :=
  ∃ v, g.inst i = .ok (.ret (some v)) ∧ map.ofValue? f g v = .ok (some d)

theorem Returned.unique (h : Returned map f g i d) (h' : Returned map f g i d') : d = d' := by
  obtain ⟨v, hinst, hd⟩ := h
  obtain ⟨v', hinst', hd'⟩ := h'
  cases hinst.symm.trans hinst'
  cases hd.symm.trans hd'
  rfl

/-- One round of the search. An instruction that returns nothing known is passed over; another one
is the first, or agrees with what was found, or ends the search. -/
theorem sharedReturn_cons {found r : Option Descriptor} {is : List InstId}
    (h : sharedReturn map f g found (i :: is) = .ok r) :
    (∀ d, ¬ Returned map f g i d) ∧ sharedReturn map f g found is = .ok r ∨
    ∃ d, Returned map f g i d ∧
      ((∀ d', found = some d' → d' = d) ∧ sharedReturn map f g (some d) is = .ok r ∨
        (∃ d', found = some d' ∧ d' ≠ d) ∧ r = .none) := by
  obtain ⟨inst, hinst, h⟩ := bind_eq_ok_iff.1 h
  have hother : (∀ v, inst ≠ .ret (some v)) → ∀ d, ¬ Returned map f g i d := by
    rintro hne d ⟨v, hret, -⟩
    cases hinst.symm.trans hret
    exact hne v rfl
  cases inst with
  | ret returned =>
      cases returned with
      | none => exact .inl ⟨hother nofun, h⟩
      | some v =>
          obtain ⟨known, hknown, h⟩ := bind_eq_ok_iff.1 h
          cases known with
          | none =>
              refine .inl ⟨fun d hd => ?_, h⟩
              obtain ⟨v', hret, hd⟩ := hd
              cases hinst.symm.trans hret
              cases hknown.symm.trans hd
          | some d =>
              refine .inr ⟨d, ⟨v, hinst, hknown⟩, ?_⟩
              cases found with
              | none => exact .inl ⟨nofun, h⟩
              | some shared =>
                  dsimp only at h
                  split at h
                  · next heq =>
                      subst heq
                      exact .inl ⟨fun d' heq => (Option.some.inj heq).symm, h⟩
                  · next hne =>
                      cases h
                      exact .inr ⟨⟨shared, rfl, hne⟩, rfl⟩
  | _ => exact .inl ⟨hother nofun, h⟩

/-- The search gives the one descriptor among those found before and those that are returned, and
nothing if there is none or more than one. -/
theorem sharedReturn_eq_some_iff {found r : Option Descriptor} {is : List InstId}
    (h : sharedReturn map f g found is = .ok r) :
    r = some d ↔ (found = some d ∨ ∃ i ∈ is, Returned map f g i d) ∧
      ∀ d', (found = some d' ∨ ∃ i ∈ is, Returned map f g i d') → d' = d := by
  induction is generalizing found with
  | nil =>
      cases h
      simp only [List.not_mem_nil, false_and, exists_false, or_false]
      constructor
      · rintro rfl
        exact ⟨rfl, fun d' heq => (Option.some.inj heq).symm⟩
      · exact And.left
  | cons i is ih =>
      rcases sharedReturn_cons h with ⟨hnone, hrest⟩ | ⟨d₀, hd₀, ⟨hagree, hrest⟩ | ⟨hdiffer, rfl⟩⟩
      · rw [ih hrest]
        simp [hnone]
      · -- From here on the descriptor of this instruction is the one that was found.
        have hcandidates : ∀ d', (some d₀ = some d' ∨ ∃ j ∈ is, Returned map f g j d') ↔
            (found = some d' ∨ ∃ j ∈ i :: is, Returned map f g j d') := by
          intro d'
          rw [List.exists_mem_cons_iff]
          constructor
          · rintro (heq | hrest)
            · cases heq
              exact .inr (.inl hd₀)
            · exact .inr (.inr hrest)
          · rintro (hfound | hhere | hrest)
            · exact .inl (by rw [hagree d' hfound])
            · exact .inl (by rw [hd₀.unique hhere])
            · exact .inr hrest
        rw [ih hrest]
        simp only [hcandidates]
      · obtain ⟨d', hfound, hne⟩ := hdiffer
        constructor
        · intro heq
          cases heq
        · rintro ⟨-, hall⟩
          refine absurd ?_ hne
          rw [hall d' (.inl hfound), hall d₀ (.inr ⟨i, List.mem_cons_self, hd₀⟩)]

end SlotSource

/-! ## Slots -/

/-- What a typed signature has in a slot. -/
def TypedSignature.slot (t : TypedSignature) : Slot → Option Descriptor
  | .ret => t.ret
  | .arg i => t.arg? i

/-- What a pointer map knows about the slots of a function: the descriptors of its arguments, and
the one that all its returns with a descriptor share. -/
def Function.Known (map : PtrMap) (id : FuncId) (f : Function) : Slot → Descriptor → Prop
  | .ret, d => (∃ i ∈ f.insts, SlotSource.Returned map id f.graph i d) ∧
      ∀ d', (∃ i ∈ f.insts, SlotSource.Returned map id f.graph i d') → d' = d
  | .arg i, d => ∃ v, f.args[i]? = some v ∧ map.get? (.value id v) = some d

namespace Signature

variable {sig : Signature}

/-- The declared type of a slot. -/
def slotType? (sig : Signature) : Slot → Option Ty
  | .ret => some sig.ret
  | .arg i => sig.args[i]?

/-- The sample that counts for a slot: that of the return value, or the first one for an
argument. -/
def Sampled (sig : Signature) : Slot → Constant → Prop
  | .ret, c => ∃ a, sig.annotation = some a ∧ a.ret = some c
  | .arg i, c => ∃ a before after, sig.annotation = some a ∧
      a.args = before ++ (i, c) :: after ∧ ∀ p ∈ before, p.1 ≠ i

/-- What belongs into a slot that is declared with the given type. A slot that is no pointer is
empty. A sample comes first, then what is known, and then the fallback, if there is one. -/
inductive Fills (ctx : Context) (types : TypeStore) (fallback : Option Ty) (sig : Signature)
    (Known : Slot → Descriptor → Prop) (slot : Slot) : Ty → Option Descriptor → Prop
  | other {ty : Ty} : ty.isPointer = false →
      Fills ctx types fallback sig Known slot ty none
  | sample {space : AddrSpace} {c : Constant} {elem : Ty} : sig.Sampled slot c →
      (c.typeOf ctx).run types = .ok (elem, types) →
      Fills ctx types fallback sig Known slot (.ptr space) (some ⟨elem, space⟩)
  | known {space : AddrSpace} {d : Descriptor} : (∀ c, ¬ sig.Sampled slot c) → Known slot d →
      Fills ctx types fallback sig Known slot (.ptr space) (some d)
  | fallback {space : AddrSpace} : (∀ c, ¬ sig.Sampled slot c) → (∀ d, ¬ Known slot d) →
      Fills ctx types fallback sig Known slot (.ptr space) (fallback.map (⟨·, space⟩))

theorem sampled_ret_iff {c : Constant} :
    sig.annotation.bind (·.ret) = some c ↔ sig.Sampled .ret c := Option.bind_eq_some_iff

theorem sampled_arg_iff {i : Nat} {c : Constant} :
    sig.annotation.bind (·.arg? i) = some c ↔ sig.Sampled (.arg i) c := by
  rw [Option.bind_eq_some_iff]
  constructor
  · rintro ⟨a, ha, h⟩
    obtain ⟨⟨k, c'⟩, hfind, rfl⟩ := Option.map_eq_some_iff.1 h
    obtain ⟨hk, before, after, hsplit, hbefore⟩ := List.find?_eq_some_iff_append.1 hfind
    obtain rfl : k = i := by simpa using hk
    exact ⟨a, before, after, ha, hsplit, fun p hp => by simpa using hbefore p hp⟩
  · rintro ⟨a, before, after, ha, hsplit, hbefore⟩
    refine ⟨a, ha, Option.map_eq_some_iff.2 ⟨(i, c), ?_, rfl⟩⟩
    refine List.find?_eq_some_iff_append.2 ⟨by simp, before, after, hsplit, fun p hp => ?_⟩
    simpa using hbefore p hp

/-- A slot that is typed is filled by priority. -/
theorem fills_of_typeSlot {ctx : Context} {types : TypeStore} {fallback : Option Ty}
    {Known : Slot → Descriptor → Prop} {slot : Slot} {ty : Ty} {sample : Option Constant}
    {source : Except Fault (Option Descriptor)} {filled : Option Descriptor}
    (hsample : ∀ c, sample = some c ↔ sig.Sampled slot c)
    (hsource : ∀ known, source = .ok known → ∀ d, known = some d ↔ Known slot d)
    (h : (typeSlot ctx fallback ty sample source).run types = .ok (filled, types)) :
    Fills ctx types fallback sig Known slot ty filled := by
  unfold typeSlot at h
  cases ty with
  | ptr space =>
      cases sample with
      | some c =>
          obtain ⟨elem, mid, helem, hrest⟩ := run_bind_eq_ok.1 h
          cases hrest
          exact .sample ((hsample c).1 rfl) helem
      | none =>
          have hnone : ∀ c, ¬ sig.Sampled slot c := by
            intro c hc
            cases (hsample c).2 hc
          obtain ⟨known, mid, hlift, hrest⟩ := run_bind_eq_ok.1 h
          obtain ⟨hknown, -⟩ := run_liftM_eq_ok.1 hlift
          cases hrest
          cases known with
          | some d => exact .known hnone ((hsource _ hknown d).1 rfl)
          | none =>
              refine .fallback hnone fun d hd => ?_
              cases (hsource _ hknown d).2 hd
  | _ =>
      cases h
      exact .other rfl

end Signature

/-- The source that a pointer map is knows what the map knows. -/
theorem SlotSource.ret_ofMap {m : Module} {map : PtrMap} {id : FuncId} {f : Function}
    (hf : m.func id = .ok f) {known : Option Descriptor}
    (h : (ofMap m map id).ret = .ok known) (d : Descriptor) :
    known = some d ↔ f.Known map id .ret d := by
  obtain ⟨_, hf', hshared⟩ := bind_eq_ok_iff.1 h
  cases hf.symm.trans hf'
  have hiff := sharedReturn_eq_some_iff (d := d) hshared
  simp only [reduceCtorEq, false_or] at hiff
  exact hiff

theorem SlotSource.arg_ofMap {m : Module} {map : PtrMap} {id : FuncId} {f : Function}
    (hf : m.func id = .ok f) {i : Nat} {known : Option Descriptor}
    (h : (ofMap m map id).arg i = .ok known) (d : Descriptor) :
    known = some d ↔ f.Known map id (.arg i) d := by
  obtain ⟨_, hf', hrest⟩ := bind_eq_ok_iff.1 h
  cases hf.symm.trans hf'
  cases pure_eq_ok_iff.1 hrest
  exact Option.bind_eq_some_iff

namespace Signature

variable {m : Module} {id : FuncId} {f : Function}

/-- The slots of a typed signature are filled by priority. -/
theorem fills_of_typed (hf : m.func id = .ok f) {sig : Signature} {fallback : Option Ty}
    {map : PtrMap} {typed : TypedSignature} {s t : TypeStore}
    (h : (sig.typed m.ctx fallback (.ofMap m map id)).exec s = .ok (.ok typed, t)) {slot : Slot}
    {ty : Ty} (hty : sig.slotType? slot = some ty) :
    Fills m.ctx t fallback sig (f.Known map id) slot ty (typed.slot slot) := by
  cases slot with
  | arg i =>
      have hrun := typed_arg h (le_refl t) hty
      exact fills_of_typeSlot (fun _ => sampled_arg_iff) (fun _ => SlotSource.arg_ofMap hf) hrun
  | ret =>
      cases hty
      have hrun := typed_ret h (le_refl t)
      exact fills_of_typeSlot (fun _ => sampled_ret_iff) (fun _ => SlotSource.ret_ofMap hf) hrun

/-- Typing a signature against a pointer map is refused exactly if the annotation is malformed, for
the first part of it that does not fit, and leaves the types as they are then. If it is not refused,
there is one slot for each argument, and every slot is filled by priority. It is not refused and
meets no fault if the annotation is not malformed, its samples exist, and the instructions of the
function and the values it returns do. -/
theorem slots_filled_by_priority (hf : m.func id = .ok f) (sig : Signature) (fallback : Option Ty)
    (map : PtrMap) (s : TypeStore) :
    (∀ e t, (sig.typed m.ctx fallback (.ofMap m map id)).exec s = .ok (.error e, t) ↔
      t = s ∧ sig.FirstMisfit e) ∧
    ((∃ e t, (sig.typed m.ctx fallback (.ofMap m map id)).exec s = .ok (.error e, t)) ↔
      sig.Malformed) ∧
    (∀ typed t, (sig.typed m.ctx fallback (.ofMap m map id)).exec s = .ok (.ok typed, t) →
      typed.args.length = sig.args.length ∧
      ∀ slot ty, sig.slotType? slot = some ty →
        Fills m.ctx t fallback sig (f.Known map id) slot ty (typed.slot slot)) ∧
    (¬ sig.Malformed → sig.SamplesDeclared m.ctx →
      (∀ i ∈ f.insts, ∃ inst, f.graph.inst i = .ok inst ∧
        ∀ v, inst = .ret (some v) → f.graph.Has v) →
      ∃ typed t, (sig.typed m.ctx fallback (.ofMap m map id)).exec s = .ok (.ok typed, t)) := by
  refine ⟨fun e t => typed_eq_error_iff, ?_, fun typed t h => ?_, fun hfits hsamples hinsts => ?_⟩
  · simp only [typed_eq_error_iff, malformed_iff]
    constructor
    · rintro ⟨e, t, -, hfirst⟩
      exact ⟨e, hfirst⟩
    · rintro ⟨e, hfirst⟩
      exact ⟨e, s, rfl, hfirst⟩
  · exact ⟨length_of_typed h, fun slot ty hty => fills_of_typed hf h hty⟩
  · have hret : ∃ d, (SlotSource.ofMap m map id).ret = .ok d := by
      obtain ⟨shared, hshared⟩ := SlotSource.sharedReturn_total hinsts none
      exact ⟨shared, bind_eq_ok_iff.2 ⟨f, hf, hshared⟩⟩
    have harg : ∀ i, ∃ d, (SlotSource.ofMap m map id).arg i = .ok d :=
      fun i => ⟨_, bind_eq_ok_iff.2 ⟨f, hf, rfl⟩⟩
    obtain ⟨outcome, t, hrun⟩ := typed_returns hsamples hret harg s
    cases outcome with
    | ok typed => exact ⟨typed, t, hrun⟩
    | error e => exact absurd (malformed_iff.2 ⟨e, (typed_eq_error_iff.1 hrun).2⟩) hfits

/-- A function with two samples for its first argument and none for the others. Two of its three
returns are of the second argument. -/
def returnsArguments : Except Fault Module :=
  Module.ofItems ⟨.air64, .bitcode, .v7⟩ []
    [⟨"f", .exported, [.genericPtr, .genericPtr, .genericPtr, .i32], .genericPtr,
      some ⟨none, [(0, .zero .i8), (0, .zero .i16)]⟩⟩]
    [.inst (.ret (some ⟨1⟩)), .inst (.ret (some ⟨2⟩)), .inst (.ret (some ⟨1⟩))]

theorem slots_filled_by_priority_returnsArguments :
    ∃ (m : Module) (f : Function) (sig : Signature) (typed : TypedSignature) (t : TypeStore)
      (map : PtrMap), returnsArguments = .ok m ∧ m.func ⟨0⟩ = .ok f ∧
      m.ctx.signature ⟨0⟩ = .ok sig ∧ ¬ sig.Malformed ∧ sig.SamplesDeclared m.ctx ∧
      (∀ i ∈ f.insts, ∃ inst, f.graph.inst i = .ok inst ∧
        ∀ v, inst = .ret (some v) → f.graph.Has v) ∧
      (sig.typed m.ctx (some .i64) (.ofMap m map ⟨0⟩)).exec m.ctx.types = .ok (.ok typed, t) ∧
      typed = ⟨some ⟨.i32, .generic⟩,
        [some ⟨.i8, .generic⟩, some ⟨.i32, .generic⟩, some ⟨.i64, .generic⟩, none]⟩ ∧
      Fills m.ctx t (some .i64) sig (f.Known map ⟨0⟩) .ret .genericPtr (typed.slot .ret) := by
  have hrun : succeeds returnsArguments (fun m => succeeds (m.func ⟨0⟩) fun f =>
      succeeds (m.ctx.signature ⟨0⟩) fun sig => sig.checkSamples m.ctx && sig.ret = .genericPtr &&
        (f.insts.all fun i => succeeds (f.graph.inst i) fun inst =>
          inst.operands.all fun v => v.index < f.graph.values.size) &&
        succeeds ((sig.typed m.ctx (some .i64) (.ofMap m (PtrMap.empty.insert (.value ⟨0⟩ ⟨1⟩)
          ⟨.i32, .generic⟩) ⟨0⟩)).exec m.ctx.types) fun run => run.1.toOption =
            some ⟨some ⟨.i32, .generic⟩,
              [some ⟨.i8, .generic⟩, some ⟨.i32, .generic⟩, some ⟨.i64, .generic⟩, none]⟩) =
      true := by
    decide +kernel
  obtain ⟨m, hm, hrun⟩ := exists_of_succeeds hrun
  obtain ⟨f, hf, hrun⟩ := exists_of_succeeds hrun
  obtain ⟨sig, hsig, hrun⟩ := exists_of_succeeds hrun
  simp only [Bool.and_eq_true, decide_eq_true_eq, List.all_eq_true] at hrun
  obtain ⟨⟨⟨hsamples, hret⟩, hoperands⟩, hrun⟩ := hrun
  obtain ⟨⟨outcome, t⟩, hexec, houtcome⟩ := exists_of_succeeds hrun
  obtain ⟨-, hmalformed, hfills, htotal⟩ := slots_filled_by_priority hf sig (some .i64)
    (PtrMap.empty.insert (.value ⟨0⟩ ⟨1⟩) ⟨.i32, .generic⟩) m.ctx.types
  have hdeclared : sig.SamplesDeclared m.ctx :=
    (wellAnnotated_iff.1 (wellAnnotated_of_checkSamples hsamples)).2
  have hinsts : ∀ i ∈ f.insts, ∃ inst, f.graph.inst i = .ok inst ∧
      ∀ v, inst = .ret (some v) → f.graph.Has v := by
    intro i hi
    obtain ⟨inst, hinst, hall⟩ := exists_of_succeeds (hoperands i hi)
    refine ⟨inst, hinst, ?_⟩
    rintro v rfl
    have hlt : v.index < f.graph.values.size :=
      of_decide_eq_true (List.all_eq_true.1 hall v (by simp [Inst.operands]))
    exact hlt
  have hfits : ¬ sig.Malformed := by
    rw [← hmalformed]
    rintro ⟨e, u, hrefused⟩
    cases hexec.symm.trans hrefused
    cases of_decide_eq_true houtcome
  obtain ⟨typed, t', htyped⟩ := htotal hfits hdeclared hinsts
  cases hexec.symm.trans htyped
  refine ⟨m, f, sig, typed, t, _, hm, hf, hsig, hfits, hdeclared, hinsts, hexec, ?_, ?_⟩
  · exact Option.some.inj (of_decide_eq_true houtcome)
  · exact (hfills typed t hexec).2 .ret .genericPtr (congrArg some hret)

end Signature

end Pointee
