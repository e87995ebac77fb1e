import Mathlib.Logic.Relator
import Pointee.Proofs.InferredSymbols
import Pointee.Proofs.TypeHandles

/-!
# Inference of one body does not depend on the others

Two runs of inference over modules that differ in other bodies enter other types into the type
store, so the same type may have two handles. `TypeStore.SameType` relates types of two stores that
unfold to the same tree. Where both stores are consistent, related types are told apart in the same
way on both sides, which is all that inference asks of types. So the two runs go in lockstep over a
body that they share, and `Module.inference_ignores_other_bodies` says that they record the same.
-/

namespace Pointee

open TypeStore

/-! ## Computations in lockstep -/

/-- If both computations end well, their results are related. -/
def Lockstep {α β : Type} (R : α → β → Prop) (x : Except Fault α) (y : Except Fault β) : Prop :=
  ∀ a b, x = .ok a → y = .ok b → R a b

namespace Lockstep

variable {α β γ δ σ τ : Type} {R : α → β → Prop} {S : σ → τ → Prop} {x : Except Fault α}
  {y : Except Fault β} {k : α → Except Fault σ} {l : β → Except Fault τ}

theorem pure {a : α} {b : β} (h : R a b) : Lockstep R (Pure.pure a) (Pure.pure b) := by
  intro a' b' ha hb
  rw [pure_eq_ok_iff] at ha hb
  exact ha ▸ hb ▸ h

theorem error {e e' : Fault} : Lockstep R (.error e) (.error e') := fun _ _ h => nomatch h

theorem bind (h : Lockstep R x y) (hk : ∀ a b, R a b → Lockstep S (k a) (l b)) :
    Lockstep S (x >>= k) (y >>= l) := by
  intro s t hs ht
  obtain ⟨a, ha, hs⟩ := bind_eq_ok_iff.1 hs
  obtain ⟨b, hb, ht⟩ := bind_eq_ok_iff.1 ht
  exact hk a b (h a b ha hb) s t hs ht

/-- Both computations begin with the same one. -/
theorem bind_same {l : α → Except Fault τ} (hk : ∀ a, x = .ok a → Lockstep S (k a) (l a)) :
    Lockstep S (x >>= k) (x >>= l) := by
  intro s t hs ht
  obtain ⟨a, ha, hs⟩ := bind_eq_ok_iff.1 hs
  obtain ⟨b, hb, ht⟩ := bind_eq_ok_iff.1 ht
  cases ha.symm.trans hb
  exact hk a ha s t hs ht

/-- Loops over related members go in lockstep if their rounds do. -/
theorem foldlM {step : σ → α → Except Fault σ} {step' : τ → β → Except Fault τ} {as : List α}
    {bs : List β} (hstep : ∀ s t a b, S s t → R a b → Lockstep S (step s a) (step' t b))
    (h : List.Forall₂ R as bs) {s : σ} {t : τ} (hs : S s t) :
    Lockstep S (as.foldlM step s) (bs.foldlM step' t) := by
  induction h generalizing s t with
  | nil => exact .pure hs
  | cons hab _ ih =>
      rw [List.foldlM_cons, List.foldlM_cons]
      exact (hstep _ _ _ _ hs hab).bind fun _ _ => ih

/-- Loops over the same list go in lockstep if their rounds do. -/
theorem foldlM_same {step : σ → α → Except Fault σ} {step' : τ → α → Except Fault τ}
    (hstep : ∀ s t a, S s t → Lockstep S (step s a) (step' t a)) (as : List α) {s : σ} {t : τ}
    (hs : S s t) : Lockstep S (as.foldlM step s) (as.foldlM step' t) := by
  refine foldlM (R := Eq) (fun s t a b hs hab => ?_) (List.forall₂_eq_eq_eq ▸ rfl) hs
  exact hab ▸ hstep s t a hs

end Lockstep

/-! ## Maps that say the same of one function -/

/-- The descriptors have related pointees, and are in the same address space. -/
def Descriptor.Alike (T : Ty → Ty → Prop) (d e : Descriptor) : Prop :=
  T d.pointee e.pointee ∧ d.space = e.space

/-- The maps know the same of symbols and of the values of function `id`, up to related types. -/
def PtrMap.Alike (T : Ty → Ty → Prop) (id : FuncId) (map map' : PtrMap) : Prop :=
  ∀ key, (∀ id' v, key = .value id' v → id' = id) →
    Option.Rel (Descriptor.Alike T) (map.get? key) (map'.get? key)

namespace PtrMap.Alike

variable {T : Ty → Ty → Prop} {id : FuncId} {map map' : PtrMap} {v : ValueId}

theorem value (h : Alike T id map map') (v : ValueId) :
    Option.Rel (Descriptor.Alike T) (map.get? (.value id v)) (map'.get? (.value id v)) := by
  refine h _ fun id' w heq => ?_
  cases heq
  rfl

theorem contains (h : Alike T id map map') (v : ValueId) :
    map.contains (.value id v) = map'.contains (.value id v) := by
  have hrel := h.value v
  unfold PtrMap.contains
  generalize map.get? (.value id v) = d at hrel
  generalize map'.get? (.value id v) = e at hrel
  cases hrel <;> rfl

theorem insert (h : Alike T id map map') {ty ty' : Ty} (hty : T ty ty') (space : AddrSpace) :
    Alike T id (map.insert (.value id v) ⟨ty, space⟩) (map'.insert (.value id v) ⟨ty', space⟩) := by
  intro key hkey
  rw [get?_insert, get?_insert]
  split
  · have hrel := h.value v
    generalize map.get? (.value id v) = d at hrel
    generalize map'.get? (.value id v) = e at hrel
    cases hrel with
    | some hd => exact .some hd
    | none => exact .some ⟨hty, rfl⟩
  · exact h key hkey

theorem mono {T' : Ty → Ty → Prop} (h : Alike T id map map') (hT : ∀ a b, T a b → T' a b) :
    Alike T' id map map' := by
  intro key hkey
  have hrel := h key hkey
  generalize map.get? key = d at hrel
  generalize map'.get? key = e at hrel
  cases hrel with
  | some hd => exact .some ⟨hT _ _ hd.1, hd.2⟩
  | none => exact .none

theorem ofValue? (h : Alike T id map map') (g : Graph) (v : ValueId) :
    Lockstep (Option.Rel (Descriptor.Alike T)) (map.ofValue? id g v) (map'.ofValue? id g v) := by
  refine .bind_same fun key hkey => .pure (h key fun id' w heq => ?_)
  rcases PtrKey.ofValue_eq_ok hkey with ⟨g, ty, -, rfl⟩ | ⟨g, -, rfl⟩ | rfl
  · cases heq
  · cases heq
  · cases heq
    rfl

end PtrMap.Alike

namespace Function

variable {f : Function} {id : FuncId} {T : Ty → Ty → Prop} {map map' : PtrMap}

/-- An instruction of the function says that something points to a `ty`. -/
def FixesPointee (f : Function) (ty : Ty) : Prop :=
  ∃ i site, f.graph.site i = .ok site ∧
    (seedPointee? site = some ty ∨ ∃ ptr, site.binding f.graph = .ok (some (ptr, ty)))

/-- The same queue, and maps that are alike. -/
def StateAlike (T : Ty → Ty → Prop) (id : FuncId) (s t : List ValueId × PtrMap) : Prop :=
  s.1 = t.1 ∧ PtrMap.Alike T id s.2 t.2

theorem seedArgument_lockstep (h : PtrMap.Alike T id map map') {p q : Nat × Ty}
    (hpos : p.1 = q.1) (hty : T p.2 q.2) :
    Lockstep (PtrMap.Alike T id) (f.seedArgument id map p) (f.seedArgument id map' q) := by
  unfold seedArgument
  rw [hpos]
  cases f.args[q.1]? with
  | none => exact .pure h
  | some v =>
      refine .bind_same fun space? _ => ?_
      cases space? with
      | none => exact .pure h
      | some space => exact .pure (h.insert hty space)

section Body

variable (hbody : ∀ ty, f.FixesPointee ty → T ty ty)

include hbody

theorem seedInst_lockstep {s t : List ValueId × PtrMap} (h : StateAlike T id s t) (i : InstId) :
    Lockstep (StateAlike T id) (f.seedInst id s i) (f.seedInst id t i) := by
  obtain ⟨queue, map⟩ := s
  obtain ⟨_, map'⟩ := t
  obtain ⟨rfl, hmap⟩ := h
  unfold seedInst
  cases f.graph.result? i with
  | none => exact .pure ⟨rfl, hmap⟩
  | some v =>
      refine .bind_same fun space? _ => ?_
      cases space? with
      | none => exact .pure ⟨rfl, hmap⟩
      | some space =>
          refine .bind_same fun site hsite => ?_
          cases hseed : seedPointee? site with
          | none => exact .pure ⟨rfl, hmap⟩
          | some pointee =>
              have hty : T pointee pointee := hbody pointee ⟨i, site, hsite, .inl hseed⟩
              dsimp only
              rw [hmap.contains v]
              split
              · exact .pure ⟨rfl, hmap⟩
              · exact .pure ⟨rfl, hmap.insert hty space⟩

end Body

/-! The forward phase asks of two types only whether they are equal. -/

section Forward

variable (hT : Relator.BiUnique T)

include hT

theorem agreed_lockstep (h : PtrMap.Alike T id map map') {found found' : Option Descriptor}
    (hfound : Option.Rel (Descriptor.Alike T) found found') (operands : List ValueId) :
    Lockstep (Option.Rel (Descriptor.Alike T)) (f.agreed id map found operands)
      (f.agreed id map' found' operands) := by
  induction operands generalizing found found' with
  | nil => exact .pure hfound
  | cons v rest ih =>
      refine (h.ofValue? f.graph v).bind fun d? e? hrel => ?_
      cases hrel with
      | none => exact ih hfound
      | @some d e hd =>
          cases hfound with
          | none => exact ih (.some hd)
          | @some first first' hfirst =>
              have hiff : first.pointee = d.pointee ↔ first'.pointee = e.pointee :=
                ⟨fun heq => hT.2 hfirst.1 (heq ▸ hd.1), fun heq => hT.1 hfirst.1 (heq ▸ hd.1)⟩
              dsimp only
              simp only [hiff]
              split
              · exact ih (.some hfirst)
              · exact .pure .none

theorem flowing_lockstep (h : PtrMap.Alike T id map map') (user : InstId) (v : ValueId) :
    Lockstep (Option.Rel (Descriptor.Alike T)) (f.flowing id map user v)
      (f.flowing id map' user v) := by
  refine .bind_same fun site _ => ?_
  dsimp only
  split
  · exact agreed_lockstep hT h .none _
  · exact .pure .none

theorem spreadTo_lockstep (v : ValueId) {s t : List ValueId × PtrMap} (h : StateAlike T id s t)
    (user : InstId) :
    Lockstep (StateAlike T id) (f.spreadTo id v s user) (f.spreadTo id v t user) := by
  obtain ⟨queue, map⟩ := s
  obtain ⟨_, map'⟩ := t
  obtain ⟨rfl, hmap⟩ := h
  unfold spreadTo
  cases f.graph.result? user with
  | none => exact .pure ⟨rfl, hmap⟩
  | some result =>
      refine .bind_same fun space? _ => ?_
      cases space? with
      | none => exact .pure ⟨rfl, hmap⟩
      | some space =>
          dsimp only
          rw [hmap.contains result]
          split
          · exact .pure ⟨rfl, hmap⟩
          · refine (flowing_lockstep hT hmap user v).bind fun d? e? hrel => ?_
            cases hrel with
            | none => exact .pure ⟨rfl, hmap⟩
            | some hd => exact .pure ⟨rfl, hmap.insert hd.1 space⟩

theorem spread_lockstep (steps : Nat) (queue : List ValueId) (h : PtrMap.Alike T id map map') :
    Lockstep (PtrMap.Alike T id) (f.spread id steps queue map) (f.spread id steps queue map') := by
  induction steps generalizing queue map map' with
  | zero =>
      cases queue with
      | nil => exact .pure h
      | cons v queue => exact .error
  | succ steps ih =>
      cases queue with
      | nil => exact .pure h
      | cons v queue =>
          have hround : Lockstep (StateAlike T id)
              ((f.graph.usersOf v).foldlM (f.spreadTo id v) (queue, map))
              ((f.graph.usersOf v).foldlM (f.spreadTo id v) (queue, map')) :=
            .foldlM_same (fun _ _ user hst => spreadTo_lockstep hT v hst user) _ ⟨rfl, h⟩
          refine hround.bind fun s t hst => ?_
          obtain ⟨queue', mid⟩ := s
          obtain ⟨_, mid'⟩ := t
          obtain ⟨rfl, hmid⟩ := hst
          exact ih queue' hmid

theorem forward_lockstep (hbody : ∀ ty, f.FixesPointee ty → T ty ty)
    (h : PtrMap.Alike T id map map') :
    Lockstep (PtrMap.Alike T id) (f.forward id map) (f.forward id map') := by
  have hknown : f.knownArgs id map = f.knownArgs id map' :=
    List.filter_congr fun v _ => h.contains v
  have hseeds : ∀ queue, Lockstep (StateAlike T id) (f.insts.foldlM (f.seedInst id) (queue, map))
      (f.insts.foldlM (f.seedInst id) (queue, map')) := fun _ =>
    .foldlM_same (fun _ _ i hst => seedInst_lockstep hbody hst i) _ ⟨rfl, h⟩
  unfold forward
  rw [hknown]
  refine (hseeds _).bind fun s t hst => ?_
  obtain ⟨queue, mid⟩ := s
  obtain ⟨_, mid'⟩ := t
  obtain ⟨rfl, hmid⟩ := hst
  exact spread_lockstep hT _ queue hmid

end Forward

theorem walkStep_lockstep {elem : Ty} (helem : T elem elem) (v : ValueId) (stack : List ValueId)
    (visited : Table Bool) (h : PtrMap.Alike T id map map') :
    Lockstep (fun s t => s.1 = t.1 ∧ s.2.1 = t.2.1 ∧ PtrMap.Alike T id s.2.2 t.2.2)
      (f.walkStep id elem v stack visited map) (f.walkStep id elem v stack visited map') := by
  refine .bind_same fun value _ => ?_
  dsimp only
  split
  · exact .pure ⟨rfl, rfl, h⟩
  · refine .bind_same fun sources _ => .pure ⟨rfl, rfl, ?_⟩
    cases value.ty.space? with
    | none => exact h
    | some space => exact h.insert helem space

theorem walkBack_lockstep {elem : Ty} (helem : T elem elem) (steps : Nat) (stack : List ValueId)
    (visited : Table Bool) (h : PtrMap.Alike T id map map') :
    Lockstep (PtrMap.Alike T id) (f.walkBack id elem steps stack visited map)
      (f.walkBack id elem steps stack visited map') := by
  induction steps generalizing stack visited map map' with
  | zero =>
      cases stack with
      | nil => exact .pure h
      | cons v stack => exact .error
  | succ steps ih =>
      cases stack with
      | nil => exact .pure h
      | cons v stack =>
          refine (walkStep_lockstep helem v stack visited h).bind fun s t hst => ?_
          obtain ⟨stack', visited', mid⟩ := s
          obtain ⟨_, _, mid'⟩ := t
          obtain ⟨rfl, rfl, hmid⟩ := hst
          exact ih stack' visited' hmid

theorem walkFrom_lockstep (hbody : ∀ ty, f.FixesPointee ty → T ty ty)
    (h : PtrMap.Alike T id map map') (i : InstId) :
    Lockstep (PtrMap.Alike T id) (f.walkFrom id map i) (f.walkFrom id map' i) := by
  refine .bind_same fun start hstart => ?_
  cases start with
  | none => exact .pure h
  | some start =>
      obtain ⟨ptr, elem⟩ := start
      obtain ⟨site, _, hsite, hbinding, -⟩ := walkStart_eq_some.1 hstart
      exact walkBack_lockstep (hbody elem ⟨i, site, hsite, .inr ⟨ptr, hbinding⟩⟩) _ _ _ h

/-- A body is inferred in the same way from maps that are alike. -/
theorem infer_alike {ctx : Context} {start start' : PtrMap} {s s' t t' : TypeStore}
    (hT : Relator.BiUnique T) (hbody : ∀ ty, f.FixesPointee ty → T ty ty)
    (hsamples : ∀ sig ps qs, ctx.signature id = .ok sig →
      (sig.samplePointees ctx).run s = .ok (ps, t) →
      (sig.samplePointees ctx).run s' = .ok (qs, t') →
      List.Forall₂ (fun p q => p.1 = q.1 ∧ T p.2 q.2) ps qs)
    (h : PtrMap.Alike T id start start')
    (hrun : (f.infer id ctx start).run s = .ok (map, t))
    (hrun' : (f.infer id ctx start').run s' = .ok (map', t')) : PtrMap.Alike T id map map' := by
  obtain ⟨seeded, mid, hseeded, hforward, hbackward⟩ := infer_eq_ok hrun
  obtain ⟨seeded', mid', hseeded', hforward', hbackward'⟩ := infer_eq_ok hrun'
  obtain ⟨sig, ps, hsig, hps, hloop⟩ := seedAnnotated_eq_ok hseeded
  obtain ⟨_, qs, hsig', hqs, hloop'⟩ := seedAnnotated_eq_ok hseeded'
  cases hsig.symm.trans hsig'
  have hstart : PtrMap.Alike T id seeded seeded' :=
    Lockstep.foldlM (fun _ _ _ _ hmaps hpq => seedArgument_lockstep hmaps hpq.1 hpq.2)
      (hsamples sig ps qs hsig hps hqs) h _ _ hloop hloop'
  have hmid : PtrMap.Alike T id mid mid' := forward_lockstep hT hbody hstart _ _ hforward hforward'
  exact Lockstep.foldlM_same (fun _ _ i hmaps => walkFrom_lockstep hbody hmaps i) f.insts hmid _ _
    hbackward hbackward'

/-- Inference looks at nothing of a context but its globals and signatures. -/
theorem infer_congr {ctx ctx' : Context} (hglobals : ctx'.globals = ctx.globals)
    (hsignatures : ctx'.signatures = ctx.signatures) :
    f.infer id ctx' map = f.infer id ctx map := by
  simp only [infer, seedAnnotated, Signature.samplePointees, Context.signature, hsignatures,
    Constant.typeOf_congr hglobals]

end Function

/-! ## Types of two stores -/

namespace TypeStore

variable {base s s' t t' : TypeStore} {a b : Ty} {c : Compound}

/-- Both types unfold to the same tree, each in its store. -/
def SameType (s t : TypeStore) (a b : Ty) : Prop :=
  ∃ tree, s.unfolded a = .ok tree ∧ t.unfolded b = .ok tree

theorem SameType.mono (h : SameType s t a b) (hs : s ≤ s') (ht : t ≤ t') : SameType s' t' a b := by
  obtain ⟨tree, ha, hb⟩ := h
  exact ⟨tree, unfolded_of_le hs ha, unfolded_of_le ht hb⟩

/-- In consistent stores a type has at most one counterpart on the other side. -/
theorem biUnique_sameType (hs : s.Consistent) (ht : t.Consistent) :
    Relator.BiUnique (SameType s t) := by
  refine ⟨fun a a' b h h' => ?_, fun a b b' h h' => ?_⟩
  · obtain ⟨tree, ha, hb⟩ := h
    obtain ⟨tree', ha', hb'⟩ := h'
    cases hb.symm.trans hb'
    exact hs.unfoldedWithin_inj ha ha'
  · obtain ⟨tree, ha, hb⟩ := h
    obtain ⟨tree', ha', hb'⟩ := h'
    cases ha.symm.trans ha'
    exact ht.unfoldedWithin_inj hb hb'

theorem Consistent.exists_unfolded (hbase : base.Consistent) (ha : a.Below base.size) :
    ∃ tree, base.unfolded a = .ok tree := hbase.unfoldedWithin_total ha ha

/-- A type that both stores started with is its own counterpart. -/
theorem sameType_of_below (hbase : base.Consistent) (ha : a.Below base.size) (hs : base ≤ s)
    (ht : base ≤ t) : SameType s t a a := by
  obtain ⟨tree, htree⟩ := hbase.exists_unfolded ha
  exact ⟨tree, unfolded_of_le hs htree, unfolded_of_le ht htree⟩

/-- In consistent stores behind `base` the computation gives types that unfold to `tree`, and the
store stays consistent. -/
def GivesTree (base : TypeStore) (tree : TypeTree) (p : StateT TypeStore (Except Fault) Ty) :
    Prop :=
  ∀ s ty t, base ≤ s → s.Consistent → p.run s = .ok (ty, t) →
    t.Consistent ∧ t.unfolded ty = .ok tree

theorem givesTree_pure {tree : TypeTree} (h : base.unfolded a = .ok tree) :
    GivesTree base tree (pure a) := by
  intro s ty t hle hs hrun
  cases hrun
  exact ⟨hs, unfolded_of_le hle h⟩

/-- A compound type without a name over a type of `base` unfolds to the same tree wherever it is
entered. -/
theorem givesTree_intern {elem : Ty} {tree : TypeTree} (htree : base.unfolded elem = .ok tree)
    (hparts : c.parts = [elem]) (hname : c.structName? = none) :
    GivesTree base (.node c.label [tree]) (modifyGet (·.intern c)) := by
  intro s ty t hle hs hrun
  obtain ⟨rfl, rfl⟩ : (s.intern c).1 = ty ∧ (s.intern c).2 = t := Prod.mk.inj (Except.ok.inj hrun)
  refine hs.unfolded_intern hname ?_
  rw [hparts, mapM_eq_ok_iff]
  exact .cons (unfolded_of_le hle htree) .nil

end TypeStore

/-! ## Samples -/

namespace Constant

variable {base : TypeStore}

/-- The type that a constant names at its head. -/
def statedType? : Constant → Option Ty
  | undef ty | zero ty | array ty _ | vector ty _ | struct ty _ => some ty
  | _ => none

/-- The type of the constant is made of types of the store. -/
def HeldBy (s : TypeStore) (c : Constant) : Prop := ∀ ty, c.statedType? = some ty → ty.Below s.size

/-- The type of a sample unfolds to the same tree wherever it is typed. -/
theorem exists_tree (hbase : base.Consistent) (ctx : Context) {c : Constant} (hc : c.HeldBy base) :
    ∃ tree, GivesTree base tree (c.typeOf ctx) := by
  have hstated : ∀ ty, c.statedType? = some ty → ∃ tree, base.unfolded ty = .ok tree :=
    fun ty hty => hbase.exists_unfolded (hc ty hty)
  cases c with
  | imm | null | func => exact ⟨_, givesTree_pure (unfoldedWithin_leaf rfl)⟩
  | undef ty | zero ty | struct ty =>
      obtain ⟨tree, htree⟩ := hstated ty rfl
      exact ⟨tree, givesTree_pure htree⟩
  | array elemTy | vector elemTy =>
      obtain ⟨tree, htree⟩ := hstated elemTy rfl
      exact ⟨_, givesTree_intern htree rfl rfl⟩
  | global id =>
      show ∃ tree, GivesTree base tree (liftM (ctx.global id) >>= fun g => pure (.ptr g.space))
      cases ctx.global id with
      | error fault => exact ⟨.leaf .unit, fun _ _ _ _ _ hrun => nomatch hrun⟩
      | ok global => exact ⟨.leaf (.ptr global.space), givesTree_pure (unfoldedWithin_leaf rfl)⟩

end Constant

namespace Signature

variable {base s t : TypeStore} {sig : Signature} {ctx : Context}

/-- The types of all samples for arguments are made of types of the store. -/
def HeldBy (s : TypeStore) (sig : Signature) : Prop :=
  ∀ p ∈ (sig.annotation.map (·.args)).getD [], p.2.HeldBy s

/-- The types of the samples unfold to the same trees wherever they are typed. -/
theorem exists_trees (hbase : base.Consistent) (ctx : Context) (hsig : sig.HeldBy base) :
    ∃ trees : List (Nat × TypeTree), ∀ s ps t, base ≤ s → s.Consistent →
      (sig.samplePointees ctx).run s = .ok (ps, t) → t.Consistent ∧
        List.Forall₂ (fun p q => p.1 = q.1 ∧ t.unfolded p.2 = .ok q.2) ps trees := by
  unfold samplePointees
  unfold HeldBy at hsig
  generalize (sig.annotation.map (·.args)).getD [] = samples at hsig
  induction samples with
  | nil =>
      refine ⟨[], fun s ps t _ hs hrun => ?_⟩
      cases hrun
      exact ⟨hs, .nil⟩
  | cons p samples ih =>
      rw [List.forall_mem_cons] at hsig
      obtain ⟨tree, htree⟩ := Constant.exists_tree hbase ctx hsig.1
      obtain ⟨trees, htrees⟩ := ih hsig.2
      refine ⟨(p.1, tree) :: trees, fun s ps t hle hs hrun => ?_⟩
      rw [List.mapM_cons] at hrun
      obtain ⟨first, u, hfirst, hrun⟩ := run_bind_eq_ok.1 hrun
      obtain ⟨rest, u', hrest, hrun⟩ := run_bind_eq_ok.1 hrun
      cases hrun
      obtain ⟨ty, u'', hty, hfirst⟩ := run_bind_eq_ok.1 hfirst
      cases hfirst
      obtain ⟨hu, hunfolded⟩ := htree s ty u hle hs hty
      have hle' : base ≤ u := le_trans hle (p.2.typeOf_settles ctx s ty u hty).1.le
      obtain ⟨ht, hrest'⟩ := htrees u rest t hle' hu hrest
      refine ⟨ht, .cons ⟨rfl, unfolded_of_le (Grows.mapM (fun p => ?_) samples u rest t hrest).le
        hunfolded⟩ hrest'⟩
      exact ((p.2.typeOf_settles ctx).bind fun ty => .pure (p.1, ty)).grows

end Signature

/-! ## Two modules -/

theorem forall₂_of_common {α β γ : Type} {R : α → γ → Prop} {S : β → γ → Prop} {Q : α → β → Prop}
    (hQ : ∀ a b c, R a c → S b c → Q a b) {as : List α} {bs : List β} {cs : List γ}
    (h : List.Forall₂ R as cs) (h' : List.Forall₂ S bs cs) : List.Forall₂ Q as bs := by
  induction h generalizing bs with
  | nil =>
      cases h'
      exact .nil
  | cons hac _ ih =>
      cases h' with
      | cons hbc hrest => exact .cons (hQ _ _ _ hac hbc) (ih hrest)

/-- The types that a context names are in its type store, which is consistent. So it is if all of
them were made by the store: `Module.BuildingOwn.typesHeld`. -/
structure Context.TypesHeld (ctx : Context) : Prop where
  consistent : ctx.types.Consistent
  globals : ∀ g global, ctx.global g = .ok global → global.ty.Below ctx.types.size
  samples : ∀ id sig, ctx.signature id = .ok sig → sig.HeldBy ctx.types

namespace Module

variable {m : Module} {config : Config} {id : FuncId} {f : Function} {map map' start : PtrMap}
  {base s t : TypeStore}

/-- A body keeps the type store consistent. -/
theorem inferBody_consistent (hbase : base.Consistent)
    (hsamples : ∀ id sig, m.ctx.signature id = .ok sig → sig.HeldBy base)
    {func : FuncId × Function} (hs : base ≤ s ∧ s.Consistent)
    (h : (m.inferBody map func).run s = .ok (map', t)) : base ≤ t ∧ t.Consistent := by
  unfold inferBody at h
  split at h
  · cases h
    exact hs
  · obtain ⟨seeded, _, hseeded, -⟩ := Function.infer_eq_ok h
    obtain ⟨sig, ps, hsig, hps, -⟩ := Function.seedAnnotated_eq_ok hseeded
    obtain ⟨trees, htrees⟩ := Signature.exists_trees hbase m.ctx (hsamples _ sig hsig)
    exact ⟨le_trans hs.1 (Function.seedAnnotated_le hseeded), (htrees s ps t hs.1 hs.2 hps).1⟩

theorem inferBodies_consistent (hbase : base.Consistent)
    (hsamples : ∀ id sig, m.ctx.signature id = .ok sig → sig.HeldBy base)
    {fs : List (FuncId × Function)} (hs : base ≤ s ∧ s.Consistent)
    (h : (fs.foldlM m.inferBody map).run s = .ok (map', t)) : base ≤ t ∧ t.Consistent := by
  induction fs generalizing map s with
  | nil =>
      cases h
      exact hs
  | cons func fs ih =>
      rw [List.foldlM_cons] at h
      obtain ⟨mid, u, hturn, hrest⟩ := run_bind_eq_ok.1 h
      exact ih (inferBody_consistent hbase hsamples hs hturn) hrest

/-- When a function has its turn, nothing of its values is known, and of symbols what the globals
say. -/
theorem alike_of_bodies_before {m₁ m₂ : Module} {T : Ty → Ty → Prop} {start₁ start₂ : PtrMap}
    {s₁ s₂ t₁ t₂ : TypeStore} (hglobals : m₂.ctx.globals = m₁.ctx.globals)
    (hT : ∀ g global, m₁.ctx.global g = .ok global → T global.ty global.ty)
    (h₁ : ((m₁.funcList.take id.index).foldlM m₁.inferBody
      (m₁.seedGlobals config .empty)).run s₁ = .ok (start₁, t₁))
    (h₂ : ((m₂.funcList.take id.index).foldlM m₂.inferBody
      (m₂.seedGlobals config .empty)).run s₂ = .ok (start₂, t₂)) :
    PtrMap.Alike T id start₁ start₂ := by
  obtain ⟨hvalue₁, hfunc₁, hglobal₁⟩ := get?_of_bodies_before h₁
  obtain ⟨hvalue₂, hfunc₂, -⟩ := get?_of_bodies_before h₂
  have hseeds : m₂.seedGlobals config .empty = m₁.seedGlobals config .empty := by
    simp only [seedGlobals, Context.globalList, hglobals]
  intro key hkey
  cases key with
  | value id' v =>
      obtain rfl := hkey id' v rfl
      rw [hvalue₁ v, hvalue₂ v]
      exact .none
  | func g =>
      rw [hfunc₁ g, hfunc₂ g]
      exact .none
  | global g =>
      have hsame : start₂.get? (.global g) = start₁.get? (.global g) := by
        rw [(inferBodies_addsValues h₂).2.frame _ (fun _ _ _ heq => by cases heq),
          (inferBodies_addsValues h₁).2.frame _ (fun _ _ _ heq => by cases heq), hseeds]
      rw [hsame]
      cases hd : start₁.get? (.global g) with
      | none => exact .none
      | some d =>
          obtain ⟨global, hread, -, hpointee⟩ := hglobal₁ g d hd
          exact .some ⟨hpointee ▸ hT g global hread, rfl⟩

/-- What inference records for the values of a function does not depend on the bodies of others. If
it succeeds on two modules that share their type store, globals, signatures and configuration, and
the function `id`, then it records the same values of that function, in the same address spaces and
with pointees that unfold to the same trees. All types must be of the type store. -/
theorem inference_ignores_other_bodies {m₁ m₂ : Module} {map₁ map₂ : PtrMap}
    {types₁ types₂ : TypeStore} (htypes : m₂.ctx.types = m₁.ctx.types)
    (hglobals : m₂.ctx.globals = m₁.ctx.globals)
    (hsignatures : m₂.ctx.signatures = m₁.ctx.signatures)
    (hf₁ : m₁.func id = .ok f) (hf₂ : m₂.func id = .ok f) (hheld : m₁.ctx.TypesHeld)
    (hbody : ∀ ty, f.FixesPointee ty → ty.Below m₁.ctx.types.size)
    (h₁ : (m₁.infer config).exec m₁.ctx.types = .ok (.ok map₁, types₁))
    (h₂ : (m₂.infer config).exec m₂.ctx.types = .ok (.ok map₂, types₂)) (v : ValueId) :
    Option.Rel (Descriptor.Alike (SameType types₁ types₂)) (map₁.get? (.value id v))
      (map₂.get? (.value id v)) := by
  obtain ⟨bodies₁, u₁, hbodies₁, hle₁, hsymbols₁⟩ := infer_eq_ok h₁
  obtain ⟨bodies₂, u₂, hbodies₂, hle₂, hsymbols₂⟩ := infer_eq_ok h₂
  obtain ⟨start₁, s₁, mid₁, t₁, hbefore₁, hturn₁, hafter₁, -, hlast₁⟩ :=
    inferBodies_split hf₁ hbodies₁
  obtain ⟨start₂, s₂, mid₂, t₂, hbefore₂, hturn₂, hafter₂, -, hlast₂⟩ :=
    inferBodies_split hf₂ hbodies₂
  rw [hsymbols₁.value, hsymbols₂.value, hlast₁, hlast₂]
  have hsamples : ∀ id sig, m₂.ctx.signature id = .ok sig → sig.HeldBy m₁.ctx.types := by
    intro id sig hsig
    rw [Context.signature, hsignatures] at hsig
    exact hheld.samples id sig hsig
  have hstore : m₁.ctx.types ≤ m₁.ctx.types ∧ m₁.ctx.types.Consistent :=
    ⟨TypeStore.le_refl _, hheld.consistent⟩
  have hs₁ := inferBodies_consistent hheld.consistent hheld.samples hstore hbefore₁
  have hs₂ := inferBodies_consistent hheld.consistent hsamples (htypes.symm ▸ hstore) hbefore₂
  have ht₁ := inferBody_consistent hheld.consistent hheld.samples hs₁ hturn₁
  have ht₂ := inferBody_consistent hheld.consistent hsamples hs₂ hturn₂
  have hsame : ∀ ty, ty.Below m₁.ctx.types.size → SameType t₁ t₂ ty ty := fun ty hty =>
    sameType_of_below hheld.consistent hty ht₁.1 ht₂.1
  have hstart : PtrMap.Alike (SameType t₁ t₂) id start₁ start₂ := alike_of_bodies_before hglobals
    (fun g global hread => hsame _ (hheld.globals g global hread)) hbefore₁ hbefore₂
  have hmid : PtrMap.Alike (SameType t₁ t₂) id mid₁ mid₂ := by
    cases hdeclaration : f.isDeclaration with
    | true =>
        rw [inferBody, if_pos hdeclaration] at hturn₁ hturn₂
        cases hturn₁
        cases hturn₂
        exact hstart
    | false =>
        have hrun₁ := inferBody_eq_ok hdeclaration hturn₁
        have hrun₂ := inferBody_eq_ok hdeclaration hturn₂
        rw [Function.infer_congr hglobals hsignatures] at hrun₂
        refine Function.infer_alike (biUnique_sameType ht₁.2 ht₂.2)
          (fun ty hty => hsame ty (hbody ty hty)) (fun sig ps qs hsig hps hqs => ?_) hstart hrun₁
          hrun₂
        obtain ⟨trees, htrees⟩ :=
          Signature.exists_trees hheld.consistent m₁.ctx (hheld.samples id sig hsig)
        exact forall₂_of_common (fun p q r hp hq => ⟨hp.1.trans hq.1.symm, r.2, hp.2, hq.2⟩)
          (htrees s₁ ps t₁ hs₁.1 hs₁.2 hps).2 (htrees s₂ qs t₂ hs₂.1 hs₂.2 hqs).2
  exact (hmid.mono fun a b hab => hab.mono (le_trans hafter₁ hle₁) (le_trans hafter₂ hle₂)).value v

/-- Whether the type store is empty and the context names no compound type. -/
def checkNoHandles (ctx : Context) : Bool :=
  ctx.types = .empty && ctx.globals.toList.all (!·.ty.isCompound) &&
    ctx.signatures.toList.all fun sig => ((sig.annotation.map (·.args)).getD []).all fun p =>
      p.2.statedType?.all (!·.isCompound)

theorem typesHeld_of_checkNoHandles {ctx : Context} (h : checkNoHandles ctx = true) :
    ctx.TypesHeld := by
  simp only [checkNoHandles, Bool.and_eq_true, decide_eq_true_eq] at h
  obtain ⟨⟨htypes, hglobals⟩, hsamples⟩ := h
  have hbelow : ∀ {ty : Ty} {n : Nat}, (!ty.isCompound) = true → ty.Below n := by
    intro ty n hty
    cases ty with
    | compound id => cases hty
    | _ => trivial
  refine ⟨htypes ▸ consistent_empty, fun g global hread => ?_, fun id sig hread p hp ty hty => ?_⟩
  · have hmem := Array.mem_toList_iff.2 (Array.mem_of_getElem? (require_eq_ok_iff.1 hread))
    exact hbelow (List.all_eq_true.1 hglobals global hmem)
  · have hmem := Array.mem_toList_iff.2 (Array.mem_of_getElem? (require_eq_ok_iff.1 hread))
    have hsample := List.all_eq_true.1 (List.all_eq_true.1 hsamples sig hmem) p hp
    rw [hty] at hsample
    exact hbelow hsample

/-- A function passes its first argument on and reads through its second. It is there twice, with
samples of two array types. -/
def arrayReaders : Except Fault Module := do
  let m ← ofItems ⟨.air64, .bitcode, .v7⟩ []
    [⟨"first", .exported, [.genericPtr, .genericPtr], .unit,
        some ⟨none, [(0, .array .i8 [.zero .i8])]⟩⟩,
      ⟨"second", .exported, [.genericPtr, .genericPtr], .unit,
        some ⟨none, [(0, .array .i32 [.zero .i32, .zero .i32])]⟩⟩]
    [.inst (.phi .genericPtr [(⟨0⟩, ⟨0⟩)]), .inst (.load ⟨1⟩ .i64), .inst (.ret none)]
  return m.setFunc ⟨1⟩ (← m.func ⟨0⟩)

theorem inference_ignores_other_bodies_arrayReaders : ∃ m sig map₁ map₂ types₁ types₂,
    arrayReaders = .ok m ∧ m.ctx.signature ⟨0⟩ = .ok sig ∧
    (m.infer (.ofStrategy .analytical)).exec m.ctx.types = .ok (.ok map₁, types₁) ∧
    ((m.setFunc ⟨0⟩ (.ofSignature sig)).infer (.ofStrategy .analytical)).exec m.ctx.types =
      .ok (.ok map₂, types₂) ∧
    map₁.get? (.value ⟨1⟩ ⟨2⟩) = some ⟨.compound ⟨1⟩, .generic⟩ ∧
    map₂.get? (.value ⟨1⟩ ⟨2⟩) = some ⟨.compound ⟨0⟩, .generic⟩ ∧
    SameType types₁ types₂ (.compound ⟨1⟩) (.compound ⟨0⟩) := by
  have hrun : succeeds arrayReaders (fun m => succeeds (m.func ⟨1⟩) fun f =>
      succeeds (m.ctx.signature ⟨0⟩) fun sig =>
      succeeds ((m.infer (.ofStrategy .analytical)).exec m.ctx.types) fun run₁ =>
      succeeds (((m.setFunc ⟨0⟩ (.ofSignature sig)).infer (.ofStrategy .analytical)).exec
        m.ctx.types) fun run₂ =>
      checkNoHandles m.ctx && f.graph.insts.toList =
          [.phi .genericPtr [(⟨0⟩, ⟨0⟩)], .load ⟨1⟩ .i64, .ret none] &&
        run₁.1.toOption.any (·.get? (.value ⟨1⟩ ⟨2⟩) = some ⟨.compound ⟨1⟩, .generic⟩) &&
        run₂.1.toOption.any (·.get? (.value ⟨1⟩ ⟨2⟩) = some ⟨.compound ⟨0⟩, .generic⟩)) = true := by
    decide +kernel
  obtain ⟨m, hm, hrun⟩ := exists_of_succeeds hrun
  obtain ⟨f, hf, hrun⟩ := exists_of_succeeds hrun
  obtain ⟨sig, hsig, hrun⟩ := exists_of_succeeds hrun
  obtain ⟨⟨r₁, types₁⟩, hrun₁, hrun⟩ := exists_of_succeeds hrun
  obtain ⟨⟨r₂, types₂⟩, hrun₂, hrun⟩ := exists_of_succeeds hrun
  simp only [Bool.and_eq_true, decide_eq_true_eq, Option.any_eq_true] at hrun
  obtain ⟨⟨⟨hheld, hinsts⟩, map₁, hmap₁, hget₁⟩, map₂, hmap₂, hget₂⟩ := hrun
  obtain rfl : r₁ = .ok map₁ := by cases r₁ <;> cases hmap₁; rfl
  obtain rfl : r₂ = .ok map₂ := by cases r₂ <;> cases hmap₂; rfl
  have hf' : (m.setFunc ⟨0⟩ (.ofSignature sig)).func ⟨1⟩ = .ok f := by
    have hlt := (Array.getElem?_eq_some_iff.1 (func_eq_ok.1 hf)).1
    rw [func_setFunc (Nat.zero_lt_of_lt hlt), if_neg (by decide), hf]
  have hbody : ∀ ty, f.FixesPointee ty → ty.Below m.ctx.types.size := by
    rintro ty ⟨i, site, hsite, hfixes⟩
    obtain ⟨inst, hinst, hofInst⟩ := Graph.site_eq_ok.1 hsite
    have hmem : inst ∈ f.graph.insts.toList :=
      Array.mem_toList_iff.2 (Array.mem_of_getElem? (Graph.inst_eq_ok.1 hinst))
    rw [hinsts] at hmem
    simp only [List.mem_cons, List.not_mem_nil, or_false] at hmem
    rcases hmem with rfl | rfl | rfl <;> cases hofInst <;> rcases hfixes with h | ⟨ptr, h⟩ <;>
      cases h
    trivial
  have hrel : Option.Rel (Descriptor.Alike (SameType types₁ types₂)) (map₁.get? (.value ⟨1⟩ ⟨2⟩))
      (map₂.get? (.value ⟨1⟩ ⟨2⟩)) := by
    refine inference_ignores_other_bodies ?_ ?_ ?_ hf hf' (typesHeld_of_checkNoHandles hheld) hbody
      hrun₁ hrun₂ ⟨2⟩ <;> rfl
  rw [hget₁, hget₂, Option.rel_some_some] at hrel
  exact ⟨m, sig, map₁, map₂, types₁, types₂, hm, hsig, hrun₁, hrun₂, hget₁, hget₂, hrel.1⟩

end Module

end Pointee
