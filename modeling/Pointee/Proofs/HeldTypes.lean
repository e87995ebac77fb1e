import Pointee.Proofs.BodyIndependence

/-!
# Types of the store

Inference and the classification of functions make types from types of the module, from samples, and
from pointees that they have recorded. If all types that a module names are of its type store, then
the store stays consistent, and every pointee that is recorded is one of its types:
`Module.classifyFunctions_held`.
-/

namespace Pointee

open TypeStore

/-! ## Slots -/

namespace TypeStore

variable {base s t : TypeStore} {α β : Type}

/-- In consistent stores behind `base` the computation keeps the store consistent, and its result is
one that `Q` allows there. -/
def Ensures (base : TypeStore) (Q : TypeStore → α → Prop) (p : StateT TypeStore (Except Fault) α) :
    Prop :=
  ∀ s a t, base ≤ s → s.Consistent → p.run s = .ok (a, t) → s ≤ t ∧ t.Consistent ∧ Q t a

namespace Ensures

variable {Q : TypeStore → α → Prop} {R : TypeStore → β → Prop}
  {p : StateT TypeStore (Except Fault) α} {k : α → StateT TypeStore (Except Fault) β}

theorem pure {a : α} (h : ∀ t, base ≤ t → Q t a) :
    Ensures base Q (Pure.pure a : StateT TypeStore (Except Fault) α) := by
  intro s b t hle hs hrun
  cases hrun
  exact ⟨le_refl s, hs, h s hle⟩

theorem behind (h : Ensures base Q p) (hle : base ≤ s) : Ensures s Q p :=
  fun u a t hu => h u a t (le_trans hle hu)

theorem bind (hp : Ensures base Q p) (hk : ∀ a u, base ≤ u → Q u a → Ensures u R (k a)) :
    Ensures base R (p >>= k) := by
  intro s b t hle hs hrun
  obtain ⟨a, u, hfirst, hrest⟩ := run_bind_eq_ok.1 hrun
  obtain ⟨hgrown, hu, hQ⟩ := hp s a u hle hs hfirst
  obtain ⟨hgrown', ht, hR⟩ := hk a u (le_trans hle hgrown) hQ u b t (le_refl u) hu hrest
  exact ⟨le_trans hgrown hgrown', ht, hR⟩

/-- What does not touch the store leaves it consistent. -/
theorem lift_bind {x : Except Fault α} (hk : ∀ a, x = .ok a → Ensures base R (k a)) :
    Ensures base R (liftM x >>= k) := by
  intro s b t hle hs hrun
  obtain ⟨a, u, hread, hrest⟩ := run_bind_eq_ok.1 hrun
  obtain ⟨hx, rfl⟩ := run_liftM_eq_ok.1 hread
  exact hk a hx s b t hle hs hrest

theorem mapM {F : α → StateT TypeStore (Except Fault) β}
    (hR : ∀ s t b, s ≤ t → R s b → R t b) {as : List α} (h : ∀ a ∈ as, Ensures base R (F a)) :
    Ensures base (fun t bs => ∀ b ∈ bs, R t b) (as.mapM F) := by
  induction as with
  | nil => exact .pure fun t _ b hb => absurd hb List.not_mem_nil
  | cons a as ih =>
      rw [List.forall_mem_cons] at h
      rw [List.mapM_cons]
      refine h.1.bind fun b u hu hb => ((ih h.2).behind hu).bind fun bs v hv hbs => .pure ?_
      intro w hw
      refine List.forall_mem_cons.2 ⟨hR u w b (le_trans hv hw) hb, fun c hc => ?_⟩
      exact hR v w c hw (hbs c hc)

end Ensures

/-- The descriptor of a slot, if there is one, points to a type of the store. -/
def HoldsSlot (s : TypeStore) (slot : Option Descriptor) : Prop :=
  ∀ d, slot = some d → d.pointee.Below s.size

theorem HoldsSlot.mono {slot : Option Descriptor} (h : s.HoldsSlot slot) (hle : s ≤ t) :
    t.HoldsSlot slot := fun d hd => (h d hd).mono (size_le_of_le hle)

/-- A compound type without a name over types of the store is a type of the store. -/
theorem Consistent.intern_below (h : s.Consistent) {c : Compound} (hname : c.structName? = none)
    (hparts : ∀ part ∈ c.parts, part.Below s.size) :
    (s.intern c).2.Consistent ∧ (s.intern c).1.Below (s.intern c).2.size := by
  obtain ⟨hconsistent, id, hid, hget⟩ :=
    h.intern hparts fun _ name hsome => nomatch hname.symm.trans hsome
  refine ⟨hconsistent, ?_⟩
  rw [hid]
  exact get_lt_size hget

theorem Consistent.slotType (h : s.Consistent) {declared : Ty} {slot : Option Descriptor}
    (hdeclared : declared.Below s.size) (hslot : s.HoldsSlot slot) :
    (TypedSignature.slotType declared slot s).2.Consistent ∧
      (TypedSignature.slotType declared slot s).1.Below
        (TypedSignature.slotType declared slot s).2.size := by
  cases slot with
  | none => exact ⟨h, hdeclared⟩
  | some d =>
      refine h.intern_below rfl fun part hpart => ?_
      rw [List.mem_singleton.1 hpart]
      exact hslot d rfl

theorem Consistent.argTypes (h : s.Consistent) {typed : TypedSignature}
    (hslots : ∀ i, s.HoldsSlot (typed.arg? i)) {args : List Ty}
    (hargs : ∀ ty ∈ args, ty.Below s.size) (i : Nat) :
    (typed.argTypes i args s).2.Consistent ∧
      ∀ ty ∈ (typed.argTypes i args s).1, ty.Below (typed.argTypes i args s).2.size := by
  induction args generalizing i s with
  | nil => exact ⟨h, fun ty hty => absurd hty List.not_mem_nil⟩
  | cons ty rest ih =>
      rw [List.forall_mem_cons] at hargs
      obtain ⟨hfirst, hty⟩ := h.slotType hargs.1 (hslots i)
      have hle := (canonical_slotType ty (typed.arg? i)).le s
      obtain ⟨hrest, htys⟩ := ih hfirst (fun j => (hslots j).mono hle)
        (fun ty hty => (hargs.2 ty hty).mono (size_le_of_le hle)) (i + 1)
      have hle' := (canonical_argTypes typed (i + 1) rest).le
        (TypedSignature.slotType ty (typed.arg? i) s).2
      exact ⟨hrest, List.forall_mem_cons.2 ⟨hty.mono (size_le_of_le hle'), htys⟩⟩

/-- The address of a function points to a type of the store if its slots do. -/
theorem Consistent.funcDescriptor (h : s.Consistent) {typed : TypedSignature} {sig : Signature}
    (hslots : ∀ i, s.HoldsSlot (typed.arg? i)) (hslot : s.HoldsSlot typed.ret)
    (hargs : ∀ ty ∈ sig.args, ty.Below s.size) (hret : sig.ret.Below s.size) :
    (typed.funcDescriptor sig s).2.Consistent ∧
      (typed.funcDescriptor sig s).1.pointee.Below (typed.funcDescriptor sig s).2.size := by
  obtain ⟨hfirst, htys⟩ := h.argTypes hslots hargs 0
  have hle := (canonical_argTypes typed 0 sig.args).le s
  obtain ⟨hlast, hty⟩ := hfirst.slotType (hret.mono (size_le_of_le hle)) (hslot.mono hle)
  have hle' := (canonical_slotType sig.ret typed.ret).le (typed.argTypes 0 sig.args s).2
  refine hlast.intern_below (c := .func _ _) rfl fun part hpart => ?_
  rcases List.mem_append.1 hpart with hpart | hpart
  · exact (htys part hpart).mono (size_le_of_le hle')
  · rw [List.mem_singleton.1 hpart]
    exact hty

end TypeStore

/-- The sample has a type of the store, wherever it is typed. -/
theorem Constant.typeOf_ensures {base : TypeStore} (hbase : base.Consistent) (ctx : Context)
    {c : Constant} (hc : c.HeldBy base) :
    Ensures base (fun t ty => ty.Below t.size) (c.typeOf ctx) := by
  obtain ⟨tree, htree⟩ := c.exists_tree hbase ctx hc
  intro s ty t hle hs hrun
  obtain ⟨ht, hunfolded⟩ := htree s ty t hle hs hrun
  exact ⟨(c.typeOf_settles ctx s ty t hrun).1.le, ht, below_of_unfolded hunfolded⟩

/-! ## Signatures -/

namespace Signature

variable {base : TypeStore} {ctx : Context} {fallback : Ty} {sig : Signature}

theorem typeSlot_ensures (hbase : base.Consistent) (hfallback : fallback.Below base.size)
    {declared : Ty} {sample : Option Constant} {source : Except Fault (Option Descriptor)}
    (hsample : ∀ c, sample = some c → c.HeldBy base)
    (hsource : ∀ slot, source = .ok slot → base.HoldsSlot slot) :
    Ensures base HoldsSlot (typeSlot ctx (some fallback) declared sample source) := by
  unfold typeSlot
  cases declared.space? with
  | none => exact .pure fun t _ d hd => nomatch hd
  | some space =>
      cases sample with
      | some c =>
          refine (c.typeOf_ensures hbase ctx (hsample c rfl)).bind fun ty u _ hty => .pure ?_
          intro t hle d hd
          cases hd
          exact hty.mono (size_le_of_le hle)
      | none =>
          refine .lift_bind fun slot hslot => .pure fun t hle d hd => ?_
          cases slot with
          | none =>
              cases hd
              exact hfallback.mono (size_le_of_le hle)
          | some d' =>
              cases hd
              exact (hsource _ hslot).mono hle _ rfl

/-- The types of all samples are made of types of the store, and so are the declared ones. -/
structure TypesHeld (s : TypeStore) (sig : Signature) : Prop where
  args : ∀ ty ∈ sig.args, ty.Below s.size
  ret : sig.ret.Below s.size
  samples : sig.HeldBy s
  returned : ∀ c, sig.annotation.bind (·.ret) = some c → c.HeldBy s

theorem TypesHeld.mono {s : TypeStore} (h : sig.TypesHeld base) (hle : base ≤ s) :
    sig.TypesHeld s where
  args ty hty := (h.args ty hty).mono (size_le_of_le hle)
  ret := h.ret.mono (size_le_of_le hle)
  samples p hp ty hty := (h.samples p hp ty hty).mono (size_le_of_le hle)
  returned c hc ty hty := (h.returned c hc ty hty).mono (size_le_of_le hle)

theorem TypesHeld.sample (h : sig.TypesHeld base) {i : Nat} {c : Constant}
    (hc : sig.annotation.bind (·.arg? i) = some c) : c.HeldBy base := by
  obtain ⟨a, ha, hc⟩ := Option.bind_eq_some_iff.1 hc
  refine h.samples (i, c) ?_
  rw [ha]
  exact Annotation.mem_of_arg hc

/-- The slots of a signature point to types of the store if the samples, the source and the fallback
do. -/
theorem typeSlots_ensures (hbase : base.Consistent) (hfallback : fallback.Below base.size)
    (hsig : sig.TypesHeld base) {source : SlotSource}
    (hret : ∀ slot, source.ret = .ok slot → base.HoldsSlot slot)
    (harg : ∀ i slot, source.arg i = .ok slot → base.HoldsSlot slot) :
    Ensures base (fun t typed => t.HoldsSlot typed.ret ∧ ∀ i, t.HoldsSlot (typed.arg? i))
      (sig.typeSlots ctx (some fallback) source) := by
  refine (typeSlot_ensures hbase hfallback hsig.returned hret).bind fun ret u hu hslot => ?_
  refine Ensures.bind (.mapM (R := HoldsSlot) (fun _ _ _ hle hslot => hslot.mono hle)
    fun arg _ => ?_) fun slots v hv hslots => .pure fun w hw => ?_
  · exact (typeSlot_ensures hbase hfallback (fun _ => hsig.sample) (harg arg.2)).behind hu
  refine ⟨hslot.mono (TypeStore.le_trans hv hw), fun i d hd => ?_⟩
  have hmem : some d ∈ slots := List.mem_of_getElem? (Option.join_eq_some_iff.1 hd)
  exact (hslots _ hmem).mono hw d rfl

end Signature

/-! ## The pointer map -/

namespace PtrMap

variable {map map' : PtrMap} {s t : TypeStore}

/-- All pointees that the map has are types of the store. -/
def HeldBy (s : TypeStore) (map : PtrMap) : Prop := ∀ key, s.HoldsSlot (map.get? key)

namespace HeldBy

theorem mono (h : map.HeldBy s) (hle : s ≤ t) : map.HeldBy t := fun key => (h key).mono hle

theorem insert (h : map.HeldBy s) {d : Descriptor} (hd : d.pointee.Below s.size) (key : PtrKey) :
    (map.insert key d).HeldBy s := by
  intro other e he
  rw [get?_insert] at he
  split at he
  · rcases Option.or_eq_some_iff.1 he with hold | ⟨-, hnew⟩
    · exact h key e hold
    · cases hnew
      exact hd
  · exact h other e he

/-- A map whose pointees are of the store is alike itself, and the other way round. -/
theorem alike (h : map.HeldBy s) (id : FuncId) :
    Alike (fun a b => a = b ∧ a.Below s.size) id map map := by
  intro key _
  cases hd : map.get? key with
  | none => exact .none
  | some d => exact .some ⟨⟨rfl, h key d hd⟩, rfl⟩

theorem of_alike {id : FuncId} {v : ValueId}
    (h : Alike (fun a b => a = b ∧ a.Below s.size) id map map) :
    s.HoldsSlot (map.get? (.value id v)) := by
  intro d hd
  have hrel := h.value v
  rw [hd, Option.rel_some_some] at hrel
  exact hrel.1.2

end HeldBy

end PtrMap

/-! What a map has for the return value and the arguments of a function points to types of the
store. -/

namespace SlotSource

variable {m : Module} {s : TypeStore} {map : PtrMap} {f : FuncId} {slot : Option Descriptor}

theorem sharedReturn_held (h : map.HeldBy s) {g : Graph} {found : Option Descriptor}
    {insts : List InstId} (hfound : s.HoldsSlot found)
    (hslot : sharedReturn map f g found insts = .ok slot) : s.HoldsSlot slot := by
  induction insts generalizing found with
  | nil =>
      cases hslot
      exact hfound
  | cons i rest ih =>
      obtain ⟨inst, -, hslot⟩ := bind_eq_ok_iff.1 hslot
      split at hslot
      · obtain ⟨d?, hd, hslot⟩ := bind_eq_ok_iff.1 hslot
        obtain ⟨key, -, hd⟩ := bind_eq_ok_iff.1 hd
        cases pure_eq_ok_iff.1 hd
        split at hslot
        · exact ih hfound hslot
        · next d hd =>
            split at hslot
            · exact ih (hd ▸ h key) hslot
            · split at hslot
              · exact ih hfound hslot
              · cases pure_eq_ok_iff.1 hslot
                exact fun d hd => nomatch hd
      · exact ih hfound hslot

theorem ofMap_ret_held (h : map.HeldBy s) (hslot : (ofMap m map f).ret = .ok slot) :
    s.HoldsSlot slot := by
  obtain ⟨func, -, hslot⟩ := bind_eq_ok_iff.1 hslot
  have hstart : s.HoldsSlot Option.none := fun d hd => nomatch hd
  exact sharedReturn_held h hstart hslot

theorem ofMap_arg_held (h : map.HeldBy s) {i : Nat} (hslot : (ofMap m map f).arg i = .ok slot) :
    s.HoldsSlot slot := by
  obtain ⟨func, -, hslot⟩ := bind_eq_ok_iff.1 hslot
  cases pure_eq_ok_iff.1 hslot
  intro d hd
  obtain ⟨v, -, hd⟩ := Option.bind_eq_some_iff.1 hd
  exact h _ d hd

end SlotSource

/-! ## Inference and classification -/

/-- All types that the module names are of its type store. They are if it was built so:
`Module.BuildingOwn.typesHeld`. -/
structure Module.TypesHeld (m : Module) : Prop where
  context : m.ctx.TypesHeld
  signatures : ∀ id sig, m.ctx.signature id = .ok sig → sig.TypesHeld m.ctx.types
  bodies : ∀ id f, m.func id = .ok f → ∀ ty, f.FixesPointee ty → ty.Below m.ctx.types.size

namespace Module

variable {m : Module} {config : Config} {map map' : PtrMap} {s t : TypeStore}

/-- The store is a consistent one behind that of the module, and has all pointees of the map. -/
structure Holds (m : Module) (s : TypeStore) (map : PtrMap) : Prop where
  behind : m.ctx.types ≤ s
  consistent : s.Consistent
  map : map.HeldBy s

theorem seedGlobals_held (hm : m.TypesHeld) :
    m.Holds m.ctx.types (m.seedGlobals config .empty) := by
  refine ⟨TypeStore.le_refl _, hm.context.consistent, fun key d hd => ?_⟩
  rw [seedGlobals_eq, PtrMap.get?_insertAll, PtrMap.get?_empty, Option.none_or] at hd
  obtain ⟨front, back, hsplit, -⟩ := List.lookup_eq_some_iff.1 hd
  have hmem : (key, d) ∈ m.globalRecords config := by simp [hsplit]
  obtain ⟨⟨id, g⟩, hglobal, heq⟩ := List.mem_map.1 hmem
  cases heq
  exact hm.context.globals id g (Context.mem_globalList.1 (List.mem_filter.1 hglobal).1)

/-- A body records pointees of the store. It runs in lockstep with itself over the types of the
store. -/
theorem inferBody_held (hm : m.TypesHeld) {id : FuncId} {f : Function} (hf : m.func id = .ok f)
    (h : m.Holds s map) (hrun : (m.inferBody map (id, f)).run s = .ok (map', t)) :
    m.Holds t map' := by
  obtain ⟨hbehind, hconsistent⟩ :=
    inferBody_consistent hm.context.consistent hm.context.samples ⟨h.behind, h.consistent⟩ hrun
  have hle := size_le_of_le hbehind
  refine ⟨hbehind, hconsistent, ?_⟩
  cases hdeclaration : f.isDeclaration with
  | true =>
      rw [inferBody, if_pos hdeclaration] at hrun
      cases hrun
      exact h.map
  | false =>
      have hrun := inferBody_eq_ok hdeclaration hrun
      obtain ⟨seeded, _, hseeded, -⟩ := Function.infer_eq_ok hrun
      have hmap : map.HeldBy t := h.map.mono (Function.seedAnnotated_le hseeded)
      have halike : PtrMap.Alike (fun a b => a = b ∧ a.Below t.size) id map' map' := by
        refine Function.infer_alike ⟨?_, ?_⟩ (fun ty hty => ⟨rfl, ?_⟩) ?_ (hmap.alike id) hrun hrun
        · rintro a b c ⟨rfl, -⟩ ⟨rfl, -⟩
          rfl
        · rintro a b c ⟨rfl, -⟩ ⟨rfl, -⟩
          rfl
        · exact (hm.bodies id f hf ty hty).mono hle
        · intro sig ps qs hsig hps hqs
          cases hps.symm.trans hqs
          obtain ⟨trees, htrees⟩ := Signature.exists_trees hm.context.consistent m.ctx
            (hm.context.samples id sig hsig)
          obtain ⟨-, htyped⟩ := htrees s ps t h.behind h.consistent hps
          refine List.forall₂_same.2 fun p hp => ⟨rfl, rfl, ?_⟩
          exact ((List.forall₂_and_left (p := fun p => p.2.Below t.size) _ _).1
            (htyped.imp fun p q hpq => ⟨below_of_unfolded hpq.2, hpq⟩)).1 p hp
      -- Of other functions nothing is recorded.
      intro key
      by_cases hkey : ∃ v, key = .value id v
      · obtain ⟨v, rfl⟩ := hkey
        exact PtrMap.HeldBy.of_alike halike
      · rw [(Function.infer_addsValues hrun).frame key fun id' hid v heq =>
          hkey ⟨v, List.mem_singleton.1 hid ▸ heq⟩]
        exact hmap key

theorem inferBodies_held (hm : m.TypesHeld) {fs : List (FuncId × Function)}
    (hfs : ∀ func ∈ fs, m.func func.1 = .ok func.2) (h : m.Holds s map)
    (hrun : (fs.foldlM m.inferBody map).run s = .ok (map', t)) : m.Holds t map' := by
  induction fs generalizing map s with
  | nil =>
      cases hrun
      exact h
  | cons func fs ih =>
      rw [List.forall_mem_cons] at hfs
      rw [List.foldlM_cons] at hrun
      obtain ⟨mid, u, hturn, hrest⟩ := run_bind_eq_ok.1 hrun
      exact ih hfs.2 (inferBody_held hm hfs.1 h hturn) hrest

/-- The address of a function is recorded with a pointee of the store. -/
theorem classifyFunction_held (hm : m.TypesHeld)
    (hfallback : config.fallback.Below m.ctx.types.size) {f : FuncId} (h : m.Holds s map)
    (hrun : (m.classifyFunction config map f).exec s = .ok (.ok map', t)) : m.Holds t map' := by
  obtain ⟨sig, typed, d, u, hsig, htyped, hd, rfl⟩ := classifyFunction_run hrun
  have hheld : sig.TypesHeld s := (hm.signatures f sig hsig).mono h.behind
  have hslots : Ensures s (fun t typed => t.HoldsSlot typed.ret ∧ ∀ i, t.HoldsSlot (typed.arg? i))
      (sig.typeSlots m.ctx (some config.fallback) (.ofMap m map f)) :=
    Signature.typeSlots_ensures h.consistent (hfallback.mono (size_le_of_le h.behind)) hheld
      (fun _ => SlotSource.ofMap_ret_held h.map) (fun _ _ => SlotSource.ofMap_arg_held h.map)
  obtain ⟨hle, hu, hret, hargs⟩ := hslots s typed u (TypeStore.le_refl s) h.consistent
    (Signature.typed_eq_ok htyped).2
  obtain ⟨ht, hpointee⟩ := hu.funcDescriptor hargs hret (hheld.mono hle).args (hheld.mono hle).ret
  have hle' := (canonical_funcDescriptor typed sig).le u
  rw [hd] at ht hpointee hle'
  have hgrown : s ≤ t := TypeStore.le_trans hle hle'
  exact ⟨TypeStore.le_trans h.behind hgrown, ht, (h.map.mono hgrown).insert hpointee (.func f)⟩

/-- After all functions are classified, the store is consistent, and has the pointees that were
recorded. The address of every function is known. -/
theorem classifyFunctions_held (hm : m.TypesHeld)
    (hfallback : config.fallback.Below m.ctx.types.size) {bodies : PtrMap}
    (hbodies : (m.inferBodies (m.seedGlobals config .empty)).run m.ctx.types = .ok (bodies, s))
    (hrun : (m.classifyFunctions config bodies).exec s = .ok (.ok map, t)) :
    m.Holds t map ∧ ∀ id f, m.func id = .ok f →
      ∃ ty, map.get? (.func id) = some ⟨ty, .generic⟩ := by
  have hstart : m.Holds s bodies := inferBodies_held hm
    (fun func hmem => mem_funcList.1 hmem) (seedGlobals_held hm) hbodies
  refine ⟨Pass.foldlM_invariant (P := fun _ map s => m.Holds s map) ?_ hstart hrun, ?_⟩
  · intro _ f _ map s map' t _ hholds hround
    exact classifyFunction_held hm hfallback hholds hround
  · intro id f hf
    obtain ⟨-, hclassified⟩ := foldlM_classifyFunction m.nodup_funcIds hrun
    obtain ⟨-, hall⟩ := hclassified (TypeStore.le_refl t)
    obtain ⟨sig, typed, hid⟩ := hall id (mem_funcIds hf)
    have hunknown : bodies.get? (.func id) = none := by
      rw [get?_inferBodies_symbol (fun _ _ heq => by cases heq) hbodies,
        get?_seedGlobals fun _ _ heq => by cases heq]
      rfl
    refine ⟨(typed.funcDescriptor sig t).1.pointee, ?_⟩
    rw [hid.address, hunknown]
    rfl

end Module

end Pointee
