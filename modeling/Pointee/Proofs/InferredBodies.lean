import Pointee.Proofs.AnnotatedSlots
import Pointee.Proofs.Classification
import Pointee.Proofs.Declarations
import Pointee.Proofs.ForwardSpread

/-!
# Inference over bodies

Inference goes from body to body, and each body adds descriptors for values of its own function
only. So when the forward phase of a function starts, the map knows of it the annotated arguments
and the globals, and no address of a function. `Function.Seed` lists where descriptors may come
from, and `Module.forward_traced_and_closed` says what the phase makes of them.
-/

namespace Pointee

open TypeStore

/-! ## Samples -/

namespace Signature

variable {ctx : Context} {sig : Signature} {s t u : TypeStore}

theorem samplePointees_settles (ctx : Context) (sig : Signature) :
    Settles (sig.samplePointees ctx) :=
  .mapM (fun p => (p.2.typeOf_settles ctx).bind fun ty => .pure (p.1, ty)) _

/-- What is found for an argument is the type of its first sample. -/
theorem lookup_samplePointees {pointees : List (Nat × Ty)}
    (h : (sig.samplePointees ctx).run s = .ok (pointees, t)) (hle : t ≤ u) (n : Nat) (ty : Ty) :
    pointees.lookup n = some ty ↔
      ∃ c, sig.sample? n = some c ∧ (c.typeOf ctx).run u = .ok (ty, u) := by
  have hsample : sig.sample? n =
      (((sig.annotation.map (·.args)).getD []).find? (·.1 = n)).map (·.2) := by
    unfold Signature.sample?
    cases sig.annotation <;> rfl
  rw [hsample]
  unfold samplePointees at h
  generalize (sig.annotation.map (·.args)).getD [] = samples at h
  induction samples generalizing s pointees with
  | nil =>
      cases h
      simp
  | cons p samples ih =>
      obtain ⟨k, c⟩ := p
      rw [List.mapM_cons] at h
      obtain ⟨b, s₁, hb, h⟩ := run_bind_eq_ok.1 h
      obtain ⟨pointees', s₂, hrest, h⟩ := run_bind_eq_ok.1 h
      obtain ⟨rfl, rfl⟩ := Prod.mk.inj (Except.ok.inj h)
      obtain ⟨ty₀, s₃, hty₀, hb⟩ := run_bind_eq_ok.1 hb
      obtain ⟨rfl, rfl⟩ := Prod.mk.inj (Except.ok.inj hb)
      have hle₁ : s₃ ≤ s₂ := (Settles.mapM
        (fun p => (p.2.typeOf_settles ctx).bind fun ty => .pure (p.1, ty)) samples _ _ _ hrest).1.le
      have hagain := (c.typeOf_settles ctx s ty₀ s₃ hty₀).2 u (le_trans hle₁ hle)
      by_cases hk : n = k
      · subst hk
        rw [List.lookup_cons_self, List.find?_cons_of_pos (by simp)]
        simp [hagain]
      · have hne : (n == k) = false := by simpa using hk
        rw [List.lookup_cons, hne, List.find?_cons_of_neg (by simpa using Ne.symm hk)]
        exact ih hrest

end Signature

namespace Function

variable {f : Function} {id : FuncId} {ctx : Context} {map map' : PtrMap} {s t u : TypeStore}
  {v : ValueId} {ty : Ty}

/-! ## Annotated arguments -/

/-- The argument `v` has a sample, and the first one that it has is of type `ty`. -/
def AnnotatedAs (f : Function) (id : FuncId) (ctx : Context) (types : TypeStore) (v : ValueId)
    (ty : Ty) : Prop :=
  ∃ sig n c, ctx.signature id = .ok sig ∧ sig.sample? n = some c ∧ f.args[n]? = some v ∧
    (c.typeOf ctx).run types = .ok (ty, types)

theorem seedArgument_records {n : Nat} (h : f.seedArgument id map (n, ty) = .ok map') :
    f.Records id (fun v e => f.args[n]? = some v ∧ e = ty) map map' := by
  unfold seedArgument at h
  dsimp only at h
  cases hv : f.args[n]? with
  | none =>
      rw [hv] at h
      cases pure_eq_ok_iff.1 h
      exact .refl fun v e hv => nomatch hv.1
  | some v =>
      rw [hv] at h
      obtain ⟨space?, hspace, h⟩ := bind_eq_ok_iff.1 h
      cases space? with
      | none =>
          cases pure_eq_ok_iff.1 h
          refine .idle fun w e space hw hspace' => ?_
          cases hw.1
          cases hspace.symm.trans hspace'
      | some space =>
          cases pure_eq_ok_iff.1 h
          refine (Records.insert hspace).congr fun w e => ?_
          rw [Option.some.injEq, eq_comm]

/-- Of several samples for one argument the first counts. -/
theorem foldlM_seedArgument_records (hargs : f.args.Nodup) {samples : List (Nat × Ty)}
    (h : samples.foldlM (f.seedArgument id) map = .ok map') :
    f.Records id (fun v e => ∃ n, f.args[n]? = some v ∧ samples.lookup n = some e) map map' := by
  induction samples generalizing map with
  | nil =>
      cases pure_eq_ok_iff.1 h
      exact .refl fun v e ⟨n, _, hn⟩ => nomatch hn
  | cons p samples ih =>
      obtain ⟨k, ty⟩ := p
      rw [List.foldlM_cons] at h
      obtain ⟨mid, hfirst, hrest⟩ := bind_eq_ok_iff.1 h
      refine ((seedArgument_records hfirst).trans (ih hrest)).congr fun v e => ?_
      -- Arguments are told apart by position.
      have hinj : ∀ n, f.args[n]? = some v → f.args[k]? = some v → n = k := by
        intro n hn hk
        exact (List.getElem?_inj (List.getElem?_eq_some_iff.1 hn).1 hargs).1 (hn.trans hk.symm)
      constructor
      · rintro ⟨n, hn, hlookup⟩
        by_cases hnk : n = k
        · subst hnk
          rw [List.lookup_cons_self, Option.some.injEq] at hlookup
          exact .inl ⟨hn, hlookup.symm⟩
        · have hne : (n == k) = false := by simpa using hnk
          rw [List.lookup_cons, hne] at hlookup
          exact .inr ⟨fun e' hk => hnk (hinj n hn hk.1), n, hn, hlookup⟩
      · rintro (⟨hk, rfl⟩ | ⟨hno, n, hn, hlookup⟩)
        · exact ⟨k, hk, List.lookup_cons_self⟩
        · refine ⟨n, hn, ?_⟩
          have hne : (n == k) = false := by
            rw [beq_eq_false_iff_ne]
            rintro rfl
            exact hno ty ⟨hn, rfl⟩
          rw [List.lookup_cons, hne]
          exact hlookup

/-- Seeding types all samples first, and then records them in order. -/
theorem seedAnnotated_eq_ok (h : (f.seedAnnotated id ctx map).run s = .ok (map', t)) :
    ∃ sig pointees, ctx.signature id = .ok sig ∧
      (sig.samplePointees ctx).run s = .ok (pointees, t) ∧
      pointees.foldlM (f.seedArgument id) map = .ok map' := by
  obtain ⟨sig, s₁, hread, h⟩ := run_bind_eq_ok.1 h
  obtain ⟨hsig, rfl⟩ := run_liftM_eq_ok.1 hread
  obtain ⟨pointees, s₂, hpointees, h⟩ := run_bind_eq_ok.1 h
  obtain ⟨hloop, rfl⟩ := run_liftM_eq_ok.1 h
  exact ⟨sig, pointees, hsig, hpointees, hloop⟩

theorem seedAnnotated_le (h : (f.seedAnnotated id ctx map).run s = .ok (map', t)) : s ≤ t := by
  obtain ⟨sig, pointees, -, hpointees, -⟩ := seedAnnotated_eq_ok h
  exact (sig.samplePointees_settles ctx s pointees t hpointees).1.le

theorem seedAnnotated_addsValues (h : (f.seedAnnotated id ctx map).run s = .ok (map', t)) :
    PtrMap.AddsValues [id] map map' := by
  obtain ⟨sig, pointees, -, -, hloop⟩ := seedAnnotated_eq_ok h
  refine PtrMap.AddsValues.foldlM (p := fun map => map) (fun mid mid' p _ hstep => ?_) hloop
  exact (seedArgument_records hstep).addsValues

/-- Seeding records the arguments that have a sample, if they are pointers. -/
theorem seedAnnotated_records (hargs : f.args.Nodup)
    (h : (f.seedAnnotated id ctx map).run s = .ok (map', t)) (hle : t ≤ u) :
    f.Records id (f.AnnotatedAs id ctx u) map map' := by
  obtain ⟨sig, pointees, hsig, hpointees, hloop⟩ := seedAnnotated_eq_ok h
  refine (foldlM_seedArgument_records hargs hloop).congr fun v e => ?_
  constructor
  · rintro ⟨sig', n, c, hsig', hc, hv, hrun⟩
    cases hsig.symm.trans hsig'
    exact ⟨n, hv, (sig.lookup_samplePointees hpointees hle n e).2 ⟨c, hc, hrun⟩⟩
  · rintro ⟨n, hv, hlookup⟩
    obtain ⟨c, hc, hrun⟩ := (sig.lookup_samplePointees hpointees hle n e).1 hlookup
    exact ⟨sig, n, c, hsig, hc, hv, hrun⟩

/-! ## One body -/

/-- The phases of a body that was inferred. -/
theorem infer_eq_ok (h : (f.infer id ctx map).run s = .ok (map', t)) :
    ∃ seeded mid, (f.seedAnnotated id ctx map).run s = .ok (seeded, t) ∧
      f.forward id seeded = .ok mid ∧ f.backward id mid = .ok map' := by
  obtain ⟨seeded, s₁, hseeded, h⟩ := run_bind_eq_ok.1 h
  obtain ⟨mid, s₂, hphase, h⟩ := run_bind_eq_ok.1 h
  obtain ⟨hforward, rfl⟩ := run_liftM_eq_ok.1 hphase
  obtain ⟨hbackward, rfl⟩ := run_liftM_eq_ok.1 h
  exact ⟨seeded, mid, hseeded, hforward, hbackward⟩

theorem infer_addsValues (h : (f.infer id ctx map).run s = .ok (map', t)) :
    PtrMap.AddsValues [id] map map' := by
  obtain ⟨seeded, mid, hseeded, hforward, hbackward⟩ := infer_eq_ok h
  exact ((seedAnnotated_addsValues hseeded).trans (forward_addsValues hforward)).trans
    (backward_records hbackward).addsValues

end Function

/-! ## All bodies -/

namespace Module

variable {m : Module} {config : Config} {id : FuncId} {f : Function} {map map' : PtrMap}
  {s t types : TypeStore}

/-- Each body adds descriptors for its own values. -/
theorem inferBodies_addsValues {fs : List (FuncId × Function)}
    (h : (fs.foldlM m.inferBody map).run s = .ok (map', t)) :
    s ≤ t ∧ PtrMap.AddsValues (fs.map (·.1)) map map' := by
  induction fs generalizing map s with
  | nil =>
      cases h
      exact ⟨TypeStore.le_refl _, .refl _ _⟩
  | cons func fs ih =>
      rw [List.foldlM_cons] at h
      obtain ⟨mid, u, hbody, hrest⟩ := run_bind_eq_ok.1 h
      have hmid : s ≤ u ∧ PtrMap.AddsValues [func.1] map mid := by
        unfold inferBody at hbody
        split at hbody
        · cases hbody
          exact ⟨TypeStore.le_refl _, .refl _ _⟩
        · obtain ⟨seeded, mid', hseeded, -⟩ := Function.infer_eq_ok hbody
          exact ⟨Function.seedAnnotated_le hseeded, Function.infer_addsValues hbody⟩
      obtain ⟨hle, hadds⟩ := ih hrest
      refine ⟨le_trans hmid.1 hle, (hmid.2.mono ?_).trans (hadds.mono ?_)⟩
      · intro id hid
        rw [List.mem_singleton.1 hid]
        exact List.mem_cons_self
      · exact fun id hid => List.mem_cons_of_mem _ hid

/-- Where descriptors may come from: annotated arguments, allocations, address computations that do
not land on a pointer, and globals other than the constructor table. -/
inductive Seed (m : Module) (config : Config) (types : TypeStore) (id : FuncId) (f : Function) :
    ValueId → Ty → Prop
  | argument {v : ValueId} {ty : Ty} : f.AnnotatedAs id m.ctx types v ty →
      Seed m config types id f v ty
  | alloc {i : InstId} {v : ValueId} {ty : Ty} {space : AddrSpace} :
      f.graph.result? i = some v → f.graph.inst i = .ok (.alloca ty space) →
      Seed m config types id f v ty
  | address {i : InstId} {v : ValueId} {source ty : Ty} {args : List ValueId} :
      f.graph.result? i = some v → f.graph.inst i = .ok (.gep source ty args) →
      ty.isPointer = false → Seed m config types id f v ty
  | global {v : ValueId} {g : GlobalId} {ptrTy : Ty} {global : Global} :
      f.graph.value v = .ok (.global g ptrTy) → m.ctx.global g = .ok global →
      global.symbol ≠ config.ctorTable → Seed m config types id f v global.ty

/-- The forward phase of the body of `f` starts with `map`: the globals are recorded, the bodies
before this one are inferred, and the annotated arguments of `f` are seeded. -/
structure ForwardStart (m : Module) (config : Config) (types : TypeStore) (id : FuncId)
    (f : Function) (map : PtrMap) : Prop where
  func : m.func id = .ok f
  body : f.isDeclaration = false
  seeded : ∃ s t start, ((m.funcList.take id.index).foldlM m.inferBody
      (m.seedGlobals config .empty)).run s = .ok (start, t) ∧
    (f.seedAnnotated id m.ctx start).run t = .ok (map, types)

theorem index_lt_of_mem_take {n : Nat} {id' : FuncId}
    (h : id' ∈ (m.funcList.take n).map (·.1)) : id'.index < n := by
  obtain ⟨⟨id'', f'⟩, hmem, rfl⟩ := List.mem_map.1 h
  obtain ⟨k, hk⟩ := List.mem_iff_getElem?.1 hmem
  rw [List.getElem?_take] at hk
  split at hk
  · next hlt => exact (getElem?_funcList.1 hk).1 ▸ hlt
  · cases hk

/-- What the map knows before the arguments of a function are seeded: nothing of its values and of
functions, and of globals what they are declared with. -/
theorem get?_of_bodies_before {start : PtrMap}
    (h : ((m.funcList.take id.index).foldlM m.inferBody (m.seedGlobals config .empty)).run s =
      .ok (start, t)) :
    (∀ v, start.get? (.value id v) = none) ∧ (∀ g, start.get? (.func g) = none) ∧
      ∀ g d, start.get? (.global g) = some d → ∃ global, m.ctx.global g = .ok global ∧
        global.symbol ≠ config.ctorTable ∧ d.pointee = global.ty := by
  have hadds := (inferBodies_addsValues h).2
  have hunknown : ∀ key, (∀ id' ∈ (m.funcList.take id.index).map (·.1), ∀ v, key ≠ .value id' v) →
      (∀ g, key ≠ .global g) → start.get? key = none := by
    intro key hkey hglobal
    rw [hadds.frame key hkey, get?_seedGlobals fun g _ heq => absurd heq (hglobal g)]
    rfl
  refine ⟨fun v => ?_, fun g => ?_, fun g d hd => ?_⟩
  · refine hunknown _ (fun id' hid' w heq => ?_) fun g heq => by cases heq
    cases heq
    exact Nat.lt_irrefl _ (index_lt_of_mem_take hid')
  · exact hunknown _ (fun id' _ w heq => by cases heq) fun g heq => by cases heq
  · rw [hadds.frame _ fun id' _ w heq => by cases heq] at hd
    by_cases hdeclared : ∃ global, m.ctx.global g = .ok global ∧ global.symbol ≠ config.ctorTable
    · obtain ⟨global, hglobal, hsymbol⟩ := hdeclared
      rw [get?_seedGlobals_global hglobal hsymbol, PtrMap.get?_empty, Option.none_or] at hd
      cases hd
      exact ⟨global, hglobal, hsymbol, rfl⟩
    · rw [get?_seedGlobals] at hd
      · cases hd
      · intro g' global heq hglobal
        cases heq
        by_contra hsymbol
        exact hdeclared ⟨global, hglobal, hsymbol⟩

/-- The phase starts with seeds, and all of them are queued. -/
theorem ForwardStart.primed (hm : m.Built) (h : m.ForwardStart config types id f map) :
    f.Primed id (m.Seed config types id f) map := by
  obtain ⟨s, t, start, hbodies, hseeded⟩ := h.seeded
  obtain ⟨hvalue, hfunc, hglobal⟩ := get?_of_bodies_before hbodies
  obtain ⟨sig, hsig, himplements⟩ := hm.implemented id f h.func
  have hrecords : f.Records id (f.AnnotatedAs id m.ctx types) start map :=
    f.seedAnnotated_records himplements.nodup_args hseeded (TypeStore.le_refl types)
  have hframe : ∀ key, (∀ v, key ≠ .value id v) → map.get? key = start.get? key := by
    intro key hkey
    exact hrecords.addsValues.frame key fun id' hid' v => List.mem_singleton.1 hid' ▸ hkey v
  have hown : ∀ v d, map.get? (.value id v) = some d →
      f.AnnotatedAs id m.ctx types v d.pointee ∧ f.graph.spaceOf v = .ok (some d.space) := by
    intro v d hd
    obtain ⟨w, hw, hannotated, hspace⟩ := (hrecords.new _ d (hvalue v)).1 hd
    cases hw
    exact ⟨hannotated, hspace⟩
  -- An entry that describes a value is that of a global or that of an annotated argument.
  have hcases : ∀ v ty, f.Describes id map v ty → (∃ g ptrTy, f.graph.value v =
        .ok (.global g ptrTy) ∧ m.Seed config types id f v ty) ∨
      f.AnnotatedAs id m.ctx types v ty ∧ map.contains (.value id v) = true := by
    rintro v ty ⟨space, hdescribed⟩
    obtain ⟨key, hkey, hget⟩ := Function.ofValue?_eq_ok.1 hdescribed
    rcases PtrKey.ofValue_eq_ok hkey with ⟨g, ptrTy, hval, rfl⟩ | ⟨g, -, rfl⟩ | rfl
    · rw [hframe _ (fun v heq => by cases heq)] at hget
      obtain ⟨global, hdeclared, hsymbol, rfl⟩ := hglobal g _ hget
      exact .inl ⟨g, ptrTy, hval, .global hval hdeclared hsymbol⟩
    · rw [hframe _ (fun v heq => by cases heq), hfunc g] at hget
      cases hget
    · refine .inr ⟨(hown v _ hget).1, ?_⟩
      rw [PtrMap.contains, hget]
      rfl
  refine ⟨fun v ty hdescribed => ?_, fun v d hd => ?_, fun v ty hdescribed => ?_⟩
  · rcases hcases v ty hdescribed with ⟨_, _, _, hseed⟩ | ⟨hannotated, -⟩
    · exact hseed
    · exact .argument hannotated
  · obtain ⟨⟨sig', n, c, hsig', -, hn, -⟩, hspace⟩ := hown v d hd
    -- The value of an argument is no symbol, so the entry describes it.
    have hlt : n < sig.args.length := by
      have hlt := (List.getElem?_eq_some_iff.1 hn).1
      rwa [himplements.args, List.length_map, List.length_range] at hlt
    have hty : sig.args[n]? = some sig.args[n] := List.getElem?_eq_getElem hlt
    cases hn.symm.trans (himplements.exists_arg hty)
    exact ⟨Function.describes_of_get? (himplements.value n _ hty) rfl hd, hspace⟩
  · rcases hcases v ty hdescribed with ⟨g, ptrTy, hval, -⟩ | ⟨⟨_, n, _, _, _, hn, _⟩, hknown⟩
    · exact .inl ⟨g, ptrTy, hval⟩
    · exact .inr (List.mem_filter.2 ⟨List.mem_of_getElem? hn, hknown⟩)

/-- An instruction that fixes the pointee of its result is a seed. -/
theorem seed_of_site {i : InstId} {r : ValueId} {site : Site} {ty : Ty}
    (hresult : f.graph.result? i = some r) (hsite : f.graph.site i = .ok site)
    (hseed : Function.seedPointee? site = some ty) : m.Seed config types id f r ty := by
  obtain ⟨inst, hinst, hofInst⟩ := Graph.site_eq_ok.1 hsite
  cases inst with
  | alloca allocTy space =>
      cases hofInst
      cases hseed
      exact .alloc hresult hinst
  | gep source result args =>
      cases args with
      | nil => cases hofInst
      | cons base rest =>
          cases hofInst
          unfold Function.seedPointee? at hseed
          dsimp only at hseed
          split at hseed
          · cases hseed
          · next hptr =>
              cases hseed
              exact .address hresult hinst (by simpa using hptr)
  | cast op arg castTy => cases op <;> cases hofInst <;> cases hseed
  | _ => cases hofInst; cases hseed

/-- The forward phase ends on every graph. In a built module it ends well where operands exist,
unless an address computation has no base. Then every value that has a descriptor is traced to a
seed with the same pointee, by values that all point to it, and has its own address space. And a
site whose result has no descriptor got none that could flow on, or two that differ. -/
theorem forward_traced_and_closed :
    (∀ (f : Function) (id : FuncId) (map : PtrMap), f.Forwards id map (f.forward id map)) ∧
    ∀ (m : Module) (config : Config) (types : TypeStore) (id : FuncId) (f : Function)
      (map : PtrMap), m.Built → m.ForwardStart config types id f map → f.graph.Closed →
      ((∃ i, f.InstIs i (·.lacksBase = true)) ∨ ∃ map', f.forward id map = .ok map') ∧
      ∀ map', f.forward id map = .ok map' →
        (∀ v d, map'.get? (.value id v) = some d →
          f.Traced id (m.Seed config types id f) map' v d.pointee ∧
          f.graph.spaceOf v = .ok (some d.space)) ∧
        ∀ i ∈ f.insts, ∀ site r space, f.graph.site i = .ok site → f.graph.result? i = some r →
          f.graph.spaceOf r = .ok (some space) →
          (∃ d, map'.get? (.value id r) = some d) ∨
          (∀ w ∈ site.passThrough, ∀ ty, ¬ f.Describes id map' w ty) ∨
          ∃ w ∈ site.passThrough, ∃ w' ∈ site.passThrough, ∃ ty ty', ty ≠ ty' ∧
            f.Describes id map' w ty ∧ f.Describes id map' w' ty' := by
  refine ⟨Function.forwards_forward, fun m config types id f map hm hstart hclosed => ⟨?_, ?_⟩⟩
  · rw [or_iff_not_imp_left]
    intro hbased
    exact Function.forward_total (hm.sound hstart.func) hclosed fun i hi => hbased ⟨i, hi⟩
  · intro map' hforward
    have hseeds : ∀ i r site ty, f.graph.result? i = some r → f.graph.site i = .ok site →
        Function.seedPointee? site = some ty → m.Seed config types id f r ty :=
      fun i r site ty => seed_of_site
    obtain ⟨hflows, hclosure⟩ :=
      Function.forward_flows (hm.sound hstart.func) (hstart.primed hm) hseeds hforward
    refine ⟨fun v d hd => ?_, fun i _ site r space hsite hresult hspace => ?_⟩
    · obtain ⟨hdescribed, hspace⟩ := hflows.own v d hd
      exact ⟨hflows.traced v _ hdescribed, hspace⟩
    · rw [or_iff_not_imp_left]
      intro hnone
      refine hclosure i r site.passThrough ⟨site, space, hresult, hspace, hsite, rfl⟩ ?_
      exact Option.eq_none_iff_forall_ne_some.2 fun d hd => hnone ⟨d, hd⟩

/-- A loop passes an annotated argument through a phi and a cast of the address space. A second phi
takes it together with the address of a global that points to something else, and a third one takes
an argument about which nothing is known. -/
def annotatedLoop : Except Fault Module :=
  ofItems ⟨.air64, .bitcode, .v7⟩ [⟨"data", .i64, .generic, .exported, false, none⟩]
    [⟨"f", .exported, [.genericPtr, .genericPtr], .unit, some ⟨none, [(0, .zero .i32)]⟩⟩]
    [.globalAddr ⟨0⟩, .inst (.phi .genericPtr [(⟨0⟩, ⟨0⟩), (⟨4⟩, ⟨0⟩)]),
      .inst (.cast .spaceCast ⟨3⟩ (.ptr ⟨1⟩)), .inst (.phi .genericPtr [(⟨0⟩, ⟨0⟩), (⟨2⟩, ⟨0⟩)]),
      .inst (.phi .genericPtr [(⟨1⟩, ⟨0⟩)]), .inst (.jump ⟨0⟩)]

theorem forward_traced_and_closed_annotatedLoop : ∃ m types f map map', annotatedLoop = .ok m ∧
    m.ForwardStart (.ofStrategy .analytical) types ⟨0⟩ f map ∧ f.graph.Closed ∧
    f.forward ⟨0⟩ map = .ok map' ∧
    f.Traced ⟨0⟩ (m.Seed (.ofStrategy .analytical) types ⟨0⟩ f) map' ⟨4⟩ .i32 ∧
    map'.get? (.value ⟨0⟩ ⟨5⟩) = none ∧
    ∃ w ∈ [ValueId.mk 0, ⟨2⟩], ∃ w' ∈ [ValueId.mk 0, ⟨2⟩], ∃ ty ty', ty ≠ ty' ∧
      f.Describes ⟨0⟩ map' w ty ∧ f.Describes ⟨0⟩ map' w' ty' := by
  have hrun : succeeds annotatedLoop (fun m => succeeds (m.func ⟨0⟩) fun f =>
      succeeds ((f.seedAnnotated ⟨0⟩ m.ctx (m.seedGlobals (.ofStrategy .analytical) .empty)).run
        m.ctx.types) fun seeded => succeeds (f.forward ⟨0⟩ seeded.1) fun map' =>
          succeeds (f.graph.site ⟨2⟩) (· = .merge [⟨0⟩, ⟨2⟩]) &&
          succeeds (f.graph.spaceOf ⟨5⟩) (· = some .generic) &&
          (!f.isDeclaration && f.graph.checkClosed && decide (⟨2⟩ ∈ f.insts) &&
            f.graph.result? ⟨2⟩ = some ⟨5⟩ &&
            map'.get? (.value ⟨0⟩ ⟨0⟩) = some ⟨.i32, .generic⟩ &&
            map'.get? (.value ⟨0⟩ ⟨4⟩) = some ⟨.i32, ⟨1⟩⟩ &&
            map'.get? (.value ⟨0⟩ ⟨5⟩) = none)) = true := by
    decide +kernel
  obtain ⟨m, hm, hrun⟩ := exists_of_succeeds hrun
  obtain ⟨f, hf, hrun⟩ := exists_of_succeeds hrun
  obtain ⟨⟨map, types⟩, hseeded, hrun⟩ := exists_of_succeeds hrun
  obtain ⟨map', hforward, hrun⟩ := exists_of_succeeds hrun
  simp only [Bool.and_eq_true, decide_eq_true_eq, Bool.not_eq_true'] at hrun
  obtain ⟨⟨hsite, hspace⟩, ⟨⟨⟨⟨⟨hbody, hclosed⟩, hi⟩, hresult⟩, harg⟩, hcast⟩, hnone⟩ := hrun
  obtain ⟨site, hsite, hmerge⟩ := exists_of_succeeds hsite
  obtain rfl := of_decide_eq_true hmerge
  obtain ⟨space, hspace, hgeneric⟩ := exists_of_succeeds hspace
  obtain rfl := of_decide_eq_true hgeneric
  have hclosed := Graph.closed_of_checkClosed hclosed
  have hstart : m.ForwardStart (.ofStrategy .analytical) types ⟨0⟩ f map :=
    ⟨hf, hbody, m.ctx.types, m.ctx.types, _, rfl, hseeded⟩
  obtain ⟨htraced, hclosure⟩ := (forward_traced_and_closed.2 m _ types ⟨0⟩ f map
    (built_of_ofItems hm) hstart hclosed).2 map' hforward
  refine ⟨m, types, f, map, map', hm, hstart, hclosed, hforward, (htraced _ _ hcast).1, hnone, ?_⟩
  rcases hclosure ⟨2⟩ hi _ _ _ hsite hresult hspace with ⟨d, hd⟩ | hundescribed | hdiffer
  · cases hnone.symm.trans hd
  · exact absurd (htraced _ _ harg).1.describes (hundescribed ⟨0⟩ (by simp [Site.passThrough]) _)
  · exact hdiffer

end Module

end Pointee
