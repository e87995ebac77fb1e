import Mathlib.Logic.Relation
import Pointee.ConstructorTable
import Pointee.Proofs.Outcome

/-!
# The type store grows

Typing slots and constants enters types without names into the type store and takes none out,
`TypeStore.Entered`. A type that is looked up again gets the handle it has, so what was typed once
comes out the same in every later store, and leaves it as it is: `TypeStore.Canonical` says this of
operations on the store and `TypeStore.Settles` of computations over it. Computations that look into
the store are only shown to let it grow. `Pass.Bounded` says that of passes, together with what they
may refuse.
-/

namespace Pointee

namespace TypeStore

variable {α β : Type} {s t u : TypeStore}

/-- A later store has the same rows, and perhaps more behind them. What was found stays found. -/
instance : LE TypeStore :=
  ⟨fun s t => s.compounds.toList <+: t.compounds.toList ∧
    ∀ c id, s.find? c = some id → t.find? c = some id⟩

theorem le_refl (s : TypeStore) : s ≤ s := ⟨List.prefix_rfl, fun _ _ h => h⟩

theorem le_trans (h : s ≤ t) (h' : t ≤ u) : s ≤ u :=
  ⟨h.1.trans h'.1, fun c id hc => h'.2 c id (h.2 c id hc)⟩

theorem le_enter {c : Compound} (h : s.find? c = none) : s ≤ s.enter c := by
  refine ⟨⟨[c], by simp [enter]⟩, fun d id hd => ?_⟩
  rw [find?_enter, if_neg, hd]
  intro heq
  rw [heq, h] at hd
  cases hd

theorem le_intern (s : TypeStore) (c : Compound) : s ≤ (s.intern c).2 := by
  unfold intern
  split
  · exact le_refl s
  · next hnone => exact le_enter hnone

theorem find?_intern (s : TypeStore) (c : Compound) :
    ∃ id, (s.intern c).1 = .compound id ∧ (s.intern c).2.find? c = some id := by
  unfold intern
  split
  · next id hid => exact ⟨id, rfl, hid⟩
  · exact ⟨⟨s.size⟩, rfl, by rw [find?_enter, if_pos rfl]⟩

/-- `t` is `s` after types without names were entered. -/
def Entered : TypeStore → TypeStore → Prop :=
  Relation.ReflTransGen fun s t => ∃ c : Compound, c.structName? = none ∧ t = (s.intern c).2

theorem Entered.refl (s : TypeStore) : s.Entered s := Relation.ReflTransGen.refl

theorem Entered.trans (h : s.Entered t) (h' : t.Entered u) : s.Entered u :=
  Relation.ReflTransGen.trans h h'

theorem Entered.le (h : s.Entered t) : s ≤ t := by
  induction h with
  | refl => exact le_refl s
  | tail _ hlast ih =>
      obtain ⟨c, -, rfl⟩ := hlast
      exact le_trans ih (le_intern _ c)

/-! ## Operations that give the same again -/

/-- The operation enters types without names. In every store behind that, it gives the same and
changes nothing. -/
structure Canonical (op : TypeStore → α × TypeStore) : Prop where
  entered : ∀ s, Entered s (op s).2
  again : ∀ s u, (op s).2 ≤ u → op u = ((op s).1, u)

/-- A type that is in the store keeps its handle. -/
theorem canonical_intern (c : Compound) (hc : c.structName? = none := by rfl) :
    Canonical (·.intern c) := by
  refine ⟨fun s => .single ⟨c, hc, rfl⟩, fun s u hle => ?_⟩
  obtain ⟨id, hid, hfound⟩ := find?_intern s c
  show u.intern c = _
  rw [hid]
  unfold intern
  rw [hle.2 c id hfound]

namespace Canonical

theorem le {op : TypeStore → α × TypeStore} (h : Canonical op) (s : TypeStore) : s ≤ (op s).2 :=
  (h.entered s).le

theorem pure (a : α) : Canonical fun s => (a, s) := ⟨.refl, fun _ _ _ => rfl⟩

theorem bind {op : TypeStore → α × TypeStore} {next : α → TypeStore → β × TypeStore}
    (h : Canonical op) (hnext : ∀ a, Canonical (next a)) :
    Canonical fun s => next (op s).1 (op s).2 := by
  refine ⟨fun s => (h.entered s).trans ((hnext _).entered _), fun s u hle => ?_⟩
  have hmid : (op s).2 ≤ u := le_trans ((hnext _).le _) hle
  show next (op u).1 (op u).2 = _
  rw [h.again s u hmid]
  exact (hnext _).again _ u hle

end Canonical

theorem canonical_slotType (declared : Ty) (slot : Option Descriptor) :
    Canonical (TypedSignature.slotType declared slot) := by
  cases slot with
  | none => exact .pure declared
  | some d => exact canonical_intern (.typedPtr d.pointee d.space)

theorem canonical_argTypes (typed : TypedSignature) (i : Nat) (args : List Ty) :
    Canonical (typed.argTypes i args) := by
  induction args generalizing i with
  | nil => exact .pure []
  | cons ty rest ih =>
      exact (canonical_slotType ty (typed.arg? i)).bind fun ty =>
        (ih (i + 1)).bind fun rest => .pure (ty :: rest)

/-- The descriptor of a function's address is the same in every later store. -/
theorem canonical_funcDescriptor (typed : TypedSignature) (sig : Signature) :
    Canonical (typed.funcDescriptor sig) :=
  ((canonical_argTypes typed 0 sig.args).bind fun args =>
    (canonical_slotType sig.ret typed.ret).bind fun ret =>
      canonical_intern (.func args ret)).bind fun ty => .pure (⟨ty, .generic⟩ : Descriptor)

/-! ## Computations over the store -/

/-- The computation enters types without names if it ends well. -/
def Grows (p : StateT TypeStore (Except Fault) α) : Prop :=
  ∀ s a t, p.run s = .ok (a, t) → Entered s t

/-- The computation enters types without names if it ends well. In every store behind that, it gives
the same and changes nothing. -/
def Settles (p : StateT TypeStore (Except Fault) α) : Prop :=
  ∀ s a t, p.run s = .ok (a, t) → Entered s t ∧ ∀ u, t ≤ u → p.run u = .ok (a, u)

theorem run_bind_eq_ok {p : StateT TypeStore (Except Fault) α}
    {k : α → StateT TypeStore (Except Fault) β} {b : β} :
    (p >>= k).run s = .ok (b, u) ↔ ∃ a t, p.run s = .ok (a, t) ∧ (k a).run t = .ok (b, u) := by
  rw [StateT.run_bind, bind_eq_ok_iff]
  exact ⟨fun ⟨⟨a, t⟩, h⟩ => ⟨a, t, h⟩, fun ⟨a, t, h⟩ => ⟨(a, t), h⟩⟩

/-- What does not touch the store leaves it as it is. -/
theorem run_liftM_eq_ok {x : Except Fault α} {a : α} :
    (liftM x : StateT TypeStore (Except Fault) α).run s = .ok (a, t) ↔ x = .ok a ∧ s = t := by
  cases x with
  | error fault =>
      constructor
      · intro h
        cases h
      · rintro ⟨h, -⟩
        cases h
  | ok b =>
      constructor
      · intro h
        cases h
        exact ⟨rfl, rfl⟩
      · rintro ⟨h, rfl⟩
        cases h
        rfl

/-- A loop over a list gives one result for each member. -/
theorem length_of_mapM {F : α → StateT TypeStore (Except Fault) β} {as : List α} {bs : List β}
    (h : (as.mapM F).run s = .ok (bs, t)) : bs.length = as.length := by
  induction as generalizing s bs with
  | nil =>
      cases h
      rfl
  | cons a as ih =>
      rw [List.mapM_cons] at h
      obtain ⟨b, s₁, -, h⟩ := run_bind_eq_ok.1 h
      obtain ⟨bs', s₂, hbs, h⟩ := run_bind_eq_ok.1 h
      obtain ⟨rfl, rfl⟩ := Prod.mk.inj (Except.ok.inj h)
      rw [List.length_cons, List.length_cons, ih hbs]

variable {p : StateT TypeStore (Except Fault) α} {k : α → StateT TypeStore (Except Fault) β}

namespace Settles

theorem grows (h : Settles p) : Grows p := fun s a t hrun => (h s a t hrun).1

theorem pure (a : α) : Settles (Pure.pure a : StateT TypeStore (Except Fault) α) := by
  intro s b t h
  cases h
  exact ⟨.refl s, fun _ _ => rfl⟩

theorem bind (hp : Settles p) (hk : ∀ a, Settles (k a)) : Settles (p >>= k) := by
  intro s b u h
  obtain ⟨a, t, ha, hb⟩ := run_bind_eq_ok.1 h
  obtain ⟨hgrown, hagain⟩ := hp s a t ha
  obtain ⟨hgrown', hagain'⟩ := hk a t b u hb
  exact ⟨hgrown.trans hgrown', fun v hv =>
    run_bind_eq_ok.2 ⟨a, v, hagain v (le_trans hgrown'.le hv), hagain' v hv⟩⟩

/-- What does not touch the store settles. -/
theorem lift (x : Except Fault α) : Settles (liftM x : StateT TypeStore (Except Fault) α) := by
  intro s a t h
  obtain ⟨hx, rfl⟩ := run_liftM_eq_ok.1 h
  exact ⟨.refl s, fun u _ => run_liftM_eq_ok.2 ⟨hx, rfl⟩⟩

theorem modifyGet {op : TypeStore → α × TypeStore} (h : Canonical op) :
    Settles (MonadState.modifyGet op : StateT TypeStore (Except Fault) α) := by
  intro s a t hrun
  have hop : op s = (a, t) := Except.ok.inj hrun
  have hgrown := h.entered s
  have hagain := h.again s
  rw [hop] at hgrown hagain
  exact ⟨hgrown, fun u hu => congrArg Except.ok (hagain u hu)⟩

theorem mapM {F : α → StateT TypeStore (Except Fault) β} (h : ∀ a, Settles (F a)) (as : List α) :
    Settles (as.mapM F) := by
  induction as with
  | nil => exact .pure []
  | cons a as ih =>
      rw [List.mapM_cons]
      exact (h a).bind fun b => ih.bind fun bs => .pure (b :: bs)

/-- In a later store, each member of the list still gives what it gave in the loop. -/
theorem mapM_again {F : α → StateT TypeStore (Except Fault) β} (h : ∀ a, Settles (F a))
    {as : List α} {bs : List β} (hrun : (as.mapM F).run s = .ok (bs, t)) (hle : t ≤ u) {n : Nat}
    {a : α} (ha : as[n]? = some a) : ∃ b, bs[n]? = some b ∧ (F a).run u = .ok (b, u) := by
  induction as generalizing s bs n with
  | nil => simp at ha
  | cons c cs ih =>
      rw [List.mapM_cons] at hrun
      obtain ⟨b, s₁, hb, hrun⟩ := run_bind_eq_ok.1 hrun
      obtain ⟨bs', s₂, hbs, hrun⟩ := run_bind_eq_ok.1 hrun
      cases hrun
      cases n with
      | zero =>
          cases ha
          have hle₁ : s₁ ≤ t := (mapM h cs s₁ bs' t hbs).1.le
          exact ⟨b, rfl, (h _ s b s₁ hb).2 u (le_trans hle₁ hle)⟩
      | succ n => exact ih hbs ha

end Settles

namespace Grows

theorem bind (hp : Grows p) (hk : ∀ a, Grows (k a)) : Grows (p >>= k) := by
  intro s b u h
  obtain ⟨a, t, ha, hb⟩ := run_bind_eq_ok.1 h
  exact (hp s a t ha).trans (hk a t b u hb)

theorem get : Grows (MonadState.get : StateT TypeStore (Except Fault) TypeStore) := by
  intro s a t h
  cases h
  exact .refl s

theorem mapM {F : α → StateT TypeStore (Except Fault) β} (h : ∀ a, Grows (F a)) (as : List α) :
    Grows (as.mapM F) := by
  induction as with
  | nil => exact (Settles.pure []).grows
  | cons a as ih =>
      rw [List.mapM_cons]
      exact (h a).bind fun b => ih.bind fun bs => (Settles.pure (b :: bs)).grows

end Grows

end TypeStore

open TypeStore

/-! ## Typing samples and slots -/

theorem Constant.typeOf_settles (ctx : Context) (c : Constant) : Settles (c.typeOf ctx) := by
  cases c with
  | global id => exact (Settles.lift (ctx.global id)).bind fun g => .pure (Ty.ptr g.space)
  | array elemTy elems => exact .modifyGet (canonical_intern (.array elemTy elems.length))
  | vector elemTy elems => exact .modifyGet (canonical_intern (.vector elemTy elems.length))
  | imm | null | undef | zero | func | struct => exact .pure _

namespace Signature

variable (ctx : Context) (fallback : Option Ty)

theorem typeSlot_settles (declared : Ty) (sample : Option Constant)
    (source : Except Fault (Option Descriptor)) :
    Settles (typeSlot ctx fallback declared sample source) := by
  unfold typeSlot
  cases declared.space? with
  | none => exact .pure none
  | some space =>
      cases sample with
      | some c =>
          exact (c.typeOf_settles ctx).bind fun ty => .pure (some (⟨ty, space⟩ : Descriptor))
      | none => exact (Settles.lift source).bind fun d => .pure (d.or _)

theorem typeSlots_settles (sig : Signature) (source : SlotSource) :
    Settles (sig.typeSlots ctx fallback source) :=
  (typeSlot_settles ctx fallback _ _ _).bind fun ret =>
    (Settles.mapM (fun _ => typeSlot_settles ctx fallback _ _ _) _).bind fun args =>
      .pure (⟨ret, args⟩ : TypedSignature)

end Signature

/-! Typing a sample or a slot looks at nothing of a context but its globals. -/

theorem Constant.typeOf_congr {ctx ctx' : Context} (h : ctx'.globals = ctx.globals)
    (c : Constant) : c.typeOf ctx' = c.typeOf ctx := by
  have hglobal : ∀ id, ctx'.global id = ctx.global id := by
    intro id
    rw [Context.global, Context.global, h]
  cases c with
  | global id => simp only [Constant.typeOf, hglobal]
  | _ => rfl

theorem Signature.typed_congr {ctx ctx' : Context} (h : ctx'.globals = ctx.globals)
    (fallback : Option Ty) (sig : Signature) (source : SlotSource) :
    sig.typed ctx' fallback source = sig.typed ctx fallback source := by
  simp only [typed, typeSlots, typeSlot, Constant.typeOf_congr h]

theorem TypedSignature.annotated_congr {ctx ctx' : Context} (h : ctx'.globals = ctx.globals)
    (hsigs : ctx'.signatures = ctx.signatures) (f : FuncId) :
    TypedSignature.annotated ctx' f = TypedSignature.annotated ctx f := by
  simp only [TypedSignature.annotated, Context.signature, hsigs, Signature.typed_congr h]

/-! ## Retyping constants -/

namespace Config

variable (config : Config)

theorem fallbackPtr_grows (space : AddrSpace) :
    Grows (modifyGet (config.fallbackPtr space) : StateT TypeStore (Except Fault) Ty) :=
  (Settles.modifyGet (canonical_intern _)).grows

theorem intern_grows (c : Compound) (hc : c.structName? = none := by rfl) :
    Grows (modifyGet (·.intern c) : StateT TypeStore (Except Fault) Ty) :=
  (Settles.modifyGet (canonical_intern c hc)).grows

theorem retypeWithin_grows (depth : Nat) (ty : Ty) : Grows (config.retypeWithin depth ty) := by
  induction depth generalizing ty with
  | zero =>
      cases ty with
      | ptr space => exact config.fallbackPtr_grows space
      | compound id => exact fun s a t h => nomatch h
      | _ => exact (Settles.pure _).grows
  | succ depth ih =>
      cases ty with
      | ptr space => exact config.fallbackPtr_grows space
      | compound id =>
          refine Grows.get.bind fun types => ((Settles.lift _).grows).bind fun c => ?_
          cases c with
          | array elem len => exact (ih elem).bind fun elem => intern_grows _
          | vector elem len => exact (ih elem).bind fun elem => intern_grows _
          | struct d => exact (Grows.mapM ih d.fields).bind fun fields => intern_grows _
          | func => exact (Settles.pure _).grows
          | typedPtr => exact (Settles.pure _).grows
      | _ => exact (Settles.pure _).grows

theorem retype_grows (ty : Ty) : Grows (config.retype ty) :=
  Grows.get.bind fun types => config.retypeWithin_grows types.size ty

theorem emptyElement_grows (elemTy : Ty) : Grows (config.emptyElement elemTy) := by
  refine Grows.get.bind fun types => ((Settles.lift _).grows).bind fun c => ?_
  split
  · split
    · refine (intern_grows _).bind fun ctor => (intern_grows _).bind fun ctor => ?_
      exact (config.fallbackPtr_grows _).bind fun data => intern_grows _
    · exact config.retype_grows elemTy
  · exact config.retype_grows elemTy

end Config

/-! ## Passes over the store -/

namespace Pass

variable {α β : Type} {R : Refusal → Prop}

/-- The pass only enters types without names, whatever its outcome. -/
def Enters (p : Pass TypeStore α) : Prop := ∀ s r t, p.exec s = .ok (r, t) → Entered s t

theorem exec_liftState (p : StateT TypeStore (Except Fault) α) (s : TypeStore) :
    (liftM p : Pass TypeStore α).exec s = p.run s >>= fun r => .ok (.ok r.1, r.2) := rfl

namespace Enters

variable {p : Pass TypeStore α} {k : α → Pass TypeStore β}

theorem pure (a : α) : Enters (Pure.pure a : Pass TypeStore α) := by
  intro s r t h
  cases h
  exact .refl s

theorem throw (e : Refusal) : Enters (MonadExcept.throw e : Pass TypeStore α) := by
  intro s r t h
  cases h
  exact .refl s

theorem bind (hp : Enters p) (hk : ∀ a, Enters (k a)) : Enters (p >>= k) := by
  intro s r u h
  rcases exec_bind_cases h with ⟨e, -, hrefused⟩ | ⟨a, t, ha, hrest⟩
  · exact hp s _ u hrefused
  · exact (hp s _ t ha).trans (hk a t r u hrest)

theorem liftState {p : StateT TypeStore (Except Fault) α} (h : Grows p) :
    Enters (liftM p : Pass TypeStore α) := by
  intro s r t hrun
  obtain ⟨⟨a, u⟩, ha, hrest⟩ := bind_eq_ok_iff.1 hrun
  cases hrest
  exact h s a _ ha

theorem lift (x : Except Fault α) : Enters (liftM x : Pass TypeStore α) := by
  intro s r t h
  cases x <;> cases h
  exact .refl s

theorem get : Enters (MonadState.get : Pass TypeStore TypeStore) := by
  intro s r t h
  cases h
  exact .refl s

theorem modifyGet {op : TypeStore → α × TypeStore} (h : Canonical op) :
    Enters (MonadState.modifyGet op : Pass TypeStore α) := by
  intro s r t hrun
  cases hrun
  exact h.entered s

end Enters

/-- The pass only enters types without names, whatever its outcome, and refuses only for a reason
that `R` allows. -/
structure Bounded (R : Refusal → Prop) (p : Pass TypeStore α) : Prop where
  enters : Enters p
  refusal : RefusesOnly R p

namespace Bounded

variable {p : Pass TypeStore α} {k : α → Pass TypeStore β}

theorem grows (h : Bounded R p) (s : TypeStore) (r : Except Refusal α) (t : TypeStore)
    (hrun : p.exec s = .ok (r, t)) : s ≤ t := (h.enters s r t hrun).le

theorem pure (a : α) : Bounded R (Pure.pure a : Pass TypeStore α) := ⟨.pure a, .pure a⟩

theorem mono {R' : Refusal → Prop} (h : Bounded R p) (hR : ∀ e, R e → R' e) : Bounded R' p :=
  ⟨h.enters, fun s e t hrun => hR e (h.refusal s e t hrun)⟩

theorem throw {e : Refusal} (h : R e) : Bounded R (MonadExcept.throw e : Pass TypeStore α) := by
  refine ⟨.throw e, fun s e' t hrun => ?_⟩
  cases hrun
  exact h

theorem bind (hp : Bounded R p) (hk : ∀ a, Bounded R (k a)) : Bounded R (p >>= k) :=
  ⟨hp.enters.bind fun a => (hk a).enters, hp.refusal.bind fun a => (hk a).refusal⟩

/-- A computation over the store refuses nothing. -/
theorem liftState {p : StateT TypeStore (Except Fault) α} (h : Grows p) :
    Bounded R (liftM p : Pass TypeStore α) := by
  refine ⟨.liftState h, fun s e t hrun => ?_⟩
  obtain ⟨⟨a, u⟩, -, hrest⟩ := bind_eq_ok_iff.1 hrun
  cases hrest

/-- A computation without a state refuses nothing. -/
theorem lift (x : Except Fault α) : Bounded R (liftM x : Pass TypeStore α) := ⟨.lift x, .lift x⟩

theorem lift_bind {x : Except Fault α} (hk : ∀ a, x = .ok a → Bounded R (k a)) :
    Bounded R (liftM x >>= k) := by
  refine ⟨fun s r t h => ?_, .lift_bind fun a ha => (hk a ha).refusal⟩
  rw [exec_liftM_bind] at h
  obtain ⟨a, ha, hrest⟩ := bind_eq_ok_iff.1 h
  exact (hk a ha).enters s r t hrest

theorem get : Bounded R (MonadState.get : Pass TypeStore TypeStore) := ⟨.get, .get⟩

theorem modifyGet {op : TypeStore → α × TypeStore} (h : Canonical op) :
    Bounded R (MonadState.modifyGet op : Pass TypeStore α) := by
  refine ⟨.modifyGet h, fun s e t hrun => ?_⟩
  cases hrun

end Bounded

end Pass

/-- The refusal is of an annotation that does not fit. -/
def Refusal.IsMisfit (e : Refusal) : Prop :=
  (∃ name position arity, e = .annotationOutOfRange name position arity) ∨
    ∃ name slot, e = .annotationNotPointer name slot

/-- The refusal is about an annotation, or about elements of a table that disagree. -/
def Refusal.OfSymbol (e : Refusal) : Prop :=
  e.IsMisfit ∨ ∃ symbol position expected found,
    e = .inconsistentAggregate symbol position expected found

theorem Refusal.isMisfit_of_annotated {a : Annotation} {sig : Signature} {e : Refusal}
    (h : a.misfit? sig = some e) : e.IsMisfit := by
  unfold Annotation.misfit? at h
  split at h
  · cases h
    exact .inr ⟨_, _, rfl⟩
  · obtain ⟨⟨i, c⟩, -, hentry⟩ := List.exists_of_findSome?_eq_some h
    dsimp only at hentry
    split at hentry
    · cases hentry
      exact .inl ⟨_, _, _, rfl⟩
    · split at hentry
      · cases hentry
      · cases hentry
        exact .inr ⟨_, _, rfl⟩

theorem Signature.isMisfit_of_misfit {sig : Signature} {e : Refusal}
    (h : sig.annotation.bind (·.misfit? sig) = some e) : e.IsMisfit := by
  obtain ⟨a, -, hmisfit⟩ := Option.bind_eq_some_iff.1 h
  exact Refusal.isMisfit_of_annotated hmisfit

/-- The refusal is of the annotation of a declared function. -/
def Context.Misfit (ctx : Context) (e : Refusal) : Prop :=
  ∃ f sig, ctx.signature f = .ok sig ∧ sig.annotation.bind (·.misfit? sig) = some e

/-- The refusal is of the annotation of a declared function, or of elements of the constructor table
that disagree. -/
def Context.Blames (ctx : Context) (config : Config) (e : Refusal) : Prop :=
  ctx.Misfit e ∨ ∃ position expected found,
    e = .inconsistentAggregate config.ctorTable position expected found

theorem Context.Misfit.isMisfit {ctx : Context} {e : Refusal} (h : ctx.Misfit e) : e.IsMisfit := by
  obtain ⟨_, sig, -, hmisfit⟩ := h
  exact sig.isMisfit_of_misfit hmisfit

theorem Context.Blames.ofSymbol {ctx : Context} {config : Config} {e : Refusal}
    (h : ctx.Blames config e) : e.OfSymbol := by
  rcases h with hmisfit | ⟨position, expected, found, rfl⟩
  · exact .inl hmisfit.isMisfit
  · exact .inr ⟨_, _, _, _, rfl⟩

open Pass

/-- Typing a signature is refused for its annotation alone. -/
theorem Signature.typed_bounded_misfit (ctx : Context) (fallback : Option Ty) (sig : Signature)
    (source : SlotSource) :
    Bounded (sig.annotation.bind (·.misfit? sig) = some ·) (sig.typed ctx fallback source) := by
  unfold Signature.typed
  split
  · next e he => exact .throw he
  · exact .liftState (sig.typeSlots_settles ctx fallback source).grows

theorem Signature.typed_bounded (ctx : Context) (fallback : Option Ty) (sig : Signature)
    (source : SlotSource) : Bounded Refusal.IsMisfit (sig.typed ctx fallback source) :=
  (sig.typed_bounded_misfit ctx fallback source).mono fun _ => sig.isMisfit_of_misfit

/-- Typing a signature that is not refused fills its slots. -/
theorem Signature.typed_eq_ok {ctx : Context} {fallback : Option Ty} {sig : Signature}
    {source : SlotSource} {typed : TypedSignature} {s t : TypeStore}
    (h : (sig.typed ctx fallback source).exec s = .ok (.ok typed, t)) :
    sig.annotation.bind (·.misfit? sig) = none ∧
      (sig.typeSlots ctx fallback source).run s = .ok (typed, t) := by
  unfold Signature.typed at h
  split at h
  · cases h
  · next hfits =>
      obtain ⟨⟨slots, t'⟩, hslots, hrest⟩ := bind_eq_ok_iff.1 h
      cases hrest
      exact ⟨hfits, hslots⟩

/-- A signature that was typed is typed in the same way in every later store. -/
theorem Signature.typed_again {ctx : Context} {fallback : Option Ty} {sig : Signature}
    {source : SlotSource} {typed : TypedSignature} {s t u : TypeStore}
    (h : (sig.typed ctx fallback source).exec s = .ok (.ok typed, t)) (hle : t ≤ u) :
    (sig.typed ctx fallback source).exec u = .ok (.ok typed, u) := by
  obtain ⟨hfits, hslots⟩ := typed_eq_ok h
  unfold Signature.typed
  rw [hfits]
  exact bind_eq_ok_iff.2 ⟨_, (sig.typeSlots_settles ctx fallback source s _ _ hslots).2 u hle, rfl⟩

/-- A typed signature has one slot for each argument. -/
theorem Signature.length_of_typed {ctx : Context} {fallback : Option Ty} {sig : Signature}
    {source : SlotSource} {typed : TypedSignature} {s t : TypeStore}
    (h : (sig.typed ctx fallback source).exec s = .ok (.ok typed, t)) :
    typed.args.length = sig.args.length := by
  obtain ⟨ret, s₁, -, hslots⟩ := run_bind_eq_ok.1 (typed_eq_ok h).2
  obtain ⟨args, s₂, hargs, hslots⟩ := run_bind_eq_ok.1 hslots
  cases Except.ok.inj hslots
  show args.length = _
  rw [length_of_mapM hargs, List.length_zipIdx]

/-- What a typed signature has for an argument. -/
theorem Signature.typed_arg {ctx : Context} {fallback : Option Ty} {sig : Signature}
    {source : SlotSource} {typed : TypedSignature} {s t u : TypeStore}
    (h : (sig.typed ctx fallback source).exec s = .ok (.ok typed, t)) (hle : t ≤ u) {i : Nat}
    {ty : Ty} (hty : sig.args[i]? = some ty) :
    (typeSlot ctx fallback ty (sig.annotation.bind (·.arg? i)) (source.arg i)).run u =
      .ok (typed.arg? i, u) := by
  obtain ⟨ret, s₁, -, hslots⟩ := run_bind_eq_ok.1 (typed_eq_ok h).2
  obtain ⟨args, s₂, hargs, hslots⟩ := run_bind_eq_ok.1 hslots
  cases Except.ok.inj hslots
  have hmem : sig.args.zipIdx[i]? = some (ty, i) := by simp [hty]
  obtain ⟨slot, hslot, hrun⟩ :=
    Settles.mapM_again (fun _ => typeSlot_settles ctx fallback _ _ _) hargs hle hmem
  have harg : (⟨ret, args⟩ : TypedSignature).arg? i = slot := by
    simp [TypedSignature.arg?, hslot]
  rw [harg]
  exact hrun

/-- What a typed signature has for the returned value. -/
theorem Signature.typed_ret {ctx : Context} {fallback : Option Ty} {sig : Signature}
    {source : SlotSource} {typed : TypedSignature} {s t u : TypeStore}
    (h : (sig.typed ctx fallback source).exec s = .ok (.ok typed, t)) (hle : t ≤ u) :
    (typeSlot ctx fallback sig.ret (sig.annotation.bind (·.ret)) source.ret).run u =
      .ok (typed.ret, u) := by
  obtain ⟨ret, s₁, hret, hslots⟩ := run_bind_eq_ok.1 (typed_eq_ok h).2
  obtain ⟨args, s₂, hargs, hslots⟩ := run_bind_eq_ok.1 hslots
  cases Except.ok.inj hslots
  have hle₁ : s₁ ≤ t :=
    (Settles.mapM (fun _ => typeSlot_settles ctx fallback _ _ _) _ s₁ args t hargs).1.le
  exact (typeSlot_settles ctx fallback _ _ _ s ret s₁ hret).2 u (le_trans hle₁ hle)

/-- With a fallback, exactly the slots of pointers are filled. -/
theorem Signature.isSome_of_typeSlot {ctx : Context} {fallback declared : Ty}
    {sample : Option Constant} {source : Except Fault (Option Descriptor)}
    {slot : Option Descriptor} {s t : TypeStore}
    (h : (typeSlot ctx (some fallback) declared sample source).run s = .ok (slot, t)) :
    slot.isSome = declared.isPointer := by
  unfold typeSlot at h
  rw [Ty.isPointer]
  cases hspace : declared.space? with
  | none =>
      rw [hspace] at h
      cases h
      rfl
  | some space =>
      rw [hspace] at h
      cases sample with
      | some c =>
          obtain ⟨ty, s₁, -, h⟩ := run_bind_eq_ok.1 h
          cases h
          rfl
      | none =>
          obtain ⟨d?, s₁, -, h⟩ := run_bind_eq_ok.1 h
          cases h
          cases d? <;> rfl

/-- A pointer argument with a sample has the type of the sample. -/
theorem Signature.typed_sample {ctx : Context} {fallback : Option Ty} {sig : Signature}
    {source : SlotSource} {typed : TypedSignature} {s t u : TypeStore}
    (h : (sig.typed ctx fallback source).exec s = .ok (.ok typed, t)) (hle : t ≤ u) {i : Nat}
    {c : Constant} {space : AddrSpace} (hty : sig.args[i]? = some (.ptr space))
    (hc : sig.annotation.bind (·.arg? i) = some c) :
    ∃ ty, (c.typeOf ctx).run u = .ok (ty, u) ∧ typed.arg? i = some ⟨ty, space⟩ := by
  have hslot := typed_arg h hle hty
  rw [hc] at hslot
  obtain ⟨ty, v, hrun, hrest⟩ := run_bind_eq_ok.1 hslot
  obtain ⟨harg, rfl⟩ := Prod.mk.inj (Except.ok.inj hrest)
  exact ⟨ty, hrun, harg.symm⟩

/-- The annotated signature of a function is the same in every later store. -/
theorem TypedSignature.annotated_again {ctx : Context} {callee : FuncId} {typed : TypedSignature}
    {s t : TypeStore} (h : (TypedSignature.annotated ctx callee).exec s = .ok (.ok typed, t)) :
    s ≤ t ∧ ∀ u, t ≤ u →
      (TypedSignature.annotated ctx callee).exec u = .ok (.ok typed, u) := by
  unfold TypedSignature.annotated at h ⊢
  rw [Pass.exec_liftM_bind] at h
  obtain ⟨sig, hsig, htyped⟩ := bind_eq_ok_iff.1 h
  refine ⟨(sig.typed_bounded ctx none .none).grows s _ t htyped, fun u hu => ?_⟩
  rw [Pass.exec_liftM_bind, hsig]
  exact Signature.typed_again htyped hu

namespace TableTyping

variable (t : TableTyping)

theorem functionType_bounded (f : FuncId) :
    Bounded (t.ctx.Blames t.config) (t.functionType f) := by
  unfold functionType
  split
  · next d => exact .modifyGet (canonical_intern _)
  · refine .lift_bind fun sig hsig => ?_
    have htyped := (sig.typed_bounded_misfit t.ctx (some t.config.fallback) .none).mono
      fun e he => (.inl ⟨f, sig, hsig, he⟩ : t.ctx.Blames t.config e)
    refine htyped.bind fun typed => ?_
    refine (Bounded.modifyGet (canonical_funcDescriptor typed sig)).bind fun d => ?_
    exact .modifyGet (canonical_intern _)

theorem elementRefusal_bounded {α : Type} (position : Nat) (expected found : Ty) :
    Bounded (t.ctx.Blames t.config)
      (t.elementRefusal position expected found >>= throw : Pass TypeStore α) := by
  simp only [elementRefusal, bind_assoc, pure_bind]
  refine Bounded.get.bind fun types => (Bounded.lift _).bind fun expected => ?_
  exact (Bounded.lift _).bind fun found => .throw (.inr ⟨_, _, _, rfl⟩)

mutual

/-- Typing a constant lets the type store grow, and refuses annotations and elements that
disagree. -/
theorem constantType_bounded (c : Constant) :
    Bounded (t.ctx.Blames t.config) (t.constantType c) := by
  cases c with
  | imm value => exact .pure _
  | null space => exact .modifyGet (canonical_intern _)
  | undef ty => exact .liftState (t.config.retype_grows ty)
  | zero ty => exact .liftState (t.config.retype_grows ty)
  | global id => exact (Bounded.lift _).bind fun g => .modifyGet (canonical_intern _)
  | func id => exact t.functionType_bounded id
  | array elemTy elems =>
      exact (elementType_bounded elemTy 0 none elems).bind fun elem =>
        .modifyGet (canonical_intern _)
  | vector elemTy elems =>
      exact (elementType_bounded elemTy 0 none elems).bind fun elem =>
        .modifyGet (canonical_intern _)
  | struct ty fields =>
      refine Bounded.get.bind fun types => (Bounded.lift _).bind fun c => ?_
      exact (fieldTypes_bounded fields).bind fun fields => .modifyGet (canonical_intern _)

theorem elementType_bounded (elemTy : Ty) (position : Nat) (found : Option Ty)
    (cs : List Constant) :
    Bounded (t.ctx.Blames t.config) (t.elementType elemTy position found cs) := by
  cases cs with
  | nil =>
      cases found with
      | none => exact .liftState (t.config.emptyElement_grows elemTy)
      | some ty => exact .pure ty
  | cons c rest =>
      rw [elementType]
      refine (constantType_bounded c).bind fun ty => ?_
      cases found with
      | none => exact elementType_bounded elemTy (position + 1) (some ty) rest
      | some expected =>
          dsimp only
          split
          · exact elementType_bounded elemTy (position + 1) (some expected) rest
          · exact t.elementRefusal_bounded position expected ty

theorem fieldTypes_bounded (cs : List Constant) :
    Bounded (t.ctx.Blames t.config) (t.fieldTypes cs) := by
  cases cs with
  | nil => exact .pure []
  | cons c rest =>
      exact (constantType_bounded c).bind fun ty => (fieldTypes_bounded rest).bind fun tys =>
        .pure _

end

end TableTyping

end Pointee
