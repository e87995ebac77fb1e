import Pointee.Proofs.Classification
import Pointee.Proofs.Declarations
import Pointee.Proofs.MarkedExtraction

/-!
# The eager strategy is exact

A run of the eager strategy stops at an annotation that does not fit or a constructor table that
disagrees with itself, and at nothing in the body of a function: extraction can read what marking
has wrapped. If it succeeds, the map has exact descriptors for all sites. `extraction_is_exact` says
so of modules whose functions are `Extractable` and whose constant expressions compute addresses
from pointers. The last condition cannot be left out, by `not_forall_refusal_ofSymbol`.
-/

namespace Pointee

open PtrMap TypeStore

/-! ## Typing signatures comes to its end -/

namespace Signature

variable {ctx : Context} {fallback : Option Ty} {sig : Signature} {source : SlotSource}

theorem typeSlot_of_declared {declared : Ty} {sample : Option Constant}
    {source : Except Fault (Option Descriptor)} (h : ∀ c, sample = some c → c.Declared ctx)
    (hsource : ∃ d, source = .ok d) (types : TypeStore) :
    ∃ slot types', (typeSlot ctx fallback declared sample source).run types =
      .ok (slot, types') := by
  unfold typeSlot
  cases declared.space? with
  | none => exact ⟨none, types, rfl⟩
  | some space =>
      cases sample with
      | none =>
          obtain ⟨d, rfl⟩ := hsource
          exact ⟨_, types, rfl⟩
      | some c =>
          obtain ⟨ty, types', hty⟩ := Constant.typeOf_total (h c rfl) types
          refine ⟨some ⟨ty, space⟩, types', ?_⟩
          show (c.typeOf ctx).run types >>= _ = _
          exact bind_eq_ok_iff.2 ⟨_, hty, rfl⟩

/-- A signature whose annotation fits is typed if its source can be read. -/
theorem typed_total (h : sig.WellAnnotated ctx) (hret : ∃ d, source.ret = .ok d)
    (harg : ∀ i, ∃ d, source.arg i = .ok d) (types : TypeStore) :
    ∃ typed types', (sig.typed ctx fallback source).exec types = .ok (.ok typed, types') := by
  have hretSample : ∀ c, sig.annotation.bind (·.ret) = some c → c.Declared ctx := by
    intro c hc
    obtain ⟨a, ha, hret⟩ := Option.bind_eq_some_iff.1 hc
    exact (h.ret a c ha hret).2
  obtain ⟨ret, types₁, hrun₁⟩ := typeSlot_of_declared hretSample hret types
  have hslot : ∀ p ∈ sig.args.zipIdx, ∀ types, ∃ slot types',
      (typeSlot ctx fallback p.1 (sig.sample? p.2) (source.arg p.2)).run types =
        .ok (slot, types') ∧ True := by
    intro p _ types
    obtain ⟨slot, types', hrun⟩ := typeSlot_of_declared (h.declared p.2) (harg p.2) types
    exact ⟨slot, types', hrun, trivial⟩
  obtain ⟨args, types₂, hrun₂, -⟩ := mapM_run_total (Q := fun _ _ => True) hslot types₁
  refine ⟨⟨ret, args⟩, types₂, ?_⟩
  unfold typed
  rw [h.misfit]
  show (sig.typeSlots ctx fallback source).run types >>= _ = _
  refine bind_eq_ok_iff.2 ⟨(⟨ret, args⟩, types₂), ?_, rfl⟩
  exact run_bind_eq_ok.2 ⟨ret, types₁, hrun₁, run_bind_eq_ok.2 ⟨args, types₂, hrun₂, rfl⟩⟩

/-- Typing a signature meets no fault if its samples and its source can be read. -/
theorem typed_returns (h : sig.SamplesDeclared ctx) (hret : ∃ d, source.ret = .ok d)
    (harg : ∀ i, ∃ d, source.arg i = .ok d) (types : TypeStore) :
    (sig.typed ctx fallback source).Returns types := by
  cases hmisfit : sig.annotation.bind (·.misfit? sig) with
  | none =>
      obtain ⟨typed, types', hrun⟩ := typed_total (wellAnnotated_iff.2 ⟨hmisfit, h⟩) hret harg types
      exact ⟨_, _, hrun⟩
  | some e =>
      refine ⟨.error e, types, ?_⟩
      unfold typed
      rw [hmisfit]
      rfl

end Signature

theorem SlotSource.sharedReturn_total {map : PtrMap} {f : FuncId} {g : Graph} {is : List InstId}
    (his : ∀ i ∈ is, ∃ inst, g.inst i = .ok inst ∧ ∀ v, inst = .ret (some v) → g.Has v)
    (found : Option Descriptor) : ∃ d, sharedReturn map f g found is = .ok d := by
  induction is generalizing found with
  | nil => exact ⟨found, rfl⟩
  | cons i is ih =>
      rw [List.forall_mem_cons] at his
      obtain ⟨inst, hinst, hreturned⟩ := his.1
      have hrest := ih his.2
      unfold sharedReturn
      rw [hinst]
      cases inst with
      | ret returned =>
          cases returned with
          | none => exact hrest found
          | some v =>
              obtain ⟨key, hkey⟩ := PtrKey.ofValue_total (hreturned v rfl) f
              have hread : map.ofValue? f g v = .ok (map.get? key) :=
                bind_eq_ok_iff.2 ⟨key, hkey, rfl⟩
              show ∃ d, (map.ofValue? f g v >>= _) = .ok d
              rw [hread]
              cases hd : map.get? key with
              | none => exact hrest found
              | some d =>
                  cases found with
                  | none => exact hrest (some d)
                  | some shared =>
                      show ∃ d', (if shared = d then _ else _) = Except.ok d'
                      split
                      · exact hrest (some shared)
                      · exact ⟨.none, rfl⟩
      | _ => exact hrest found

namespace Function

variable {ctx : Context} {f : Function} {id id' : FuncId} {i : InstId} {v : ValueId}
  {types : TypeStore} {d : Descriptor}

theorem insts_of_isDeclaration (h : f.isDeclaration = true) : f.insts = [] := by
  have hentry : f.layout.entry = none := Option.isNone_iff_eq_none.1 h
  have horder : f.layout.blockOrder = [] := by
    rw [Layout.blockOrder, hentry]
    cases f.layout.blocks.size <;> rfl
  rw [insts, Layout.allInsts, horder]
  rfl

/-- The values that a function says something about are its own. -/
theorem Fixes.func_eq (h : f.Fixes ctx types id i (.value id' v) d) : id' = id := by
  generalize hkey : PtrKey.value id' v = key at h
  cases h with
  | wrapped _ hofValue =>
      subst hkey
      obtain ⟨val, -, hrest⟩ := bind_eq_ok_iff.1 hofValue
      cases val <;> cases hrest <;> rfl
  | _ =>
      cases hkey
      rfl

end Function

namespace Module

variable {m m' : Module} {config : Config} {s t types : TypeStore} {map map' : PtrMap}
  {id : FuncId} {f : Function}

/-! ## Bodies -/

/-- Extraction can read every function. -/
def Readable (m : Module) : Prop := ∀ id f, m.func id = .ok f → ∃ start, f.Readable m.ctx start

theorem Readable.setTypes (h : m.Readable) (types : TypeStore) : (m.setTypes types).Readable := by
  intro id f hf
  obtain ⟨start, hread⟩ := h id f hf
  exact ⟨start, hread.withTypes types⟩

theorem extractBodies_total (h : m.Readable) (map : PtrMap) (s : TypeStore) :
    ∃ map' t, (m.funcList.foldlM m.extractBody map).exec s = .ok (.ok map', t) := by
  refine Pass.foldlM_of_rounds ?_ map s
  intro ⟨id, f⟩ hmem map s
  obtain ⟨start, hread⟩ := h id f (mem_funcList.1 hmem)
  unfold extractBody
  split
  · exact ⟨map, s, rfl⟩
  · exact hread.extract_total map s

/-- Reading a body keeps what was recorded, and leaves the values of other functions alone. -/
theorem extractBody_eq_ok (h : (m.extractBody map (id, f)).exec s = .ok (.ok map', t)) :
    s ≤ t ∧ (∀ key d, map.get? key = some d → map'.get? key = some d) ∧
      ∀ id' v, id' ≠ id → map'.get? (.value id' v) = map.get? (.value id' v) := by
  unfold extractBody at h
  split at h
  · cases h
    exact ⟨le_refl _, fun _ _ hd => hd, fun _ _ _ => rfl⟩
  · obtain ⟨hle, hrecorded⟩ := Function.extract_recorded h
    obtain ⟨mid, hfirst, hsecond⟩ := hrecorded (le_refl t)
    refine ⟨hle, fun key d hd => hsecond.kept (hfirst.kept hd), fun id' v hne => ?_⟩
    rw [hsecond.get?_other, hfirst.get?_other]
    · exact fun i _ d hfix => hne hfix.func_eq
    · rintro i - d ⟨_, _, _, _, -, -, -, -, -, hkey⟩
      cases hkey
      exact hne rfl

/-- Reading the bodies comes to each function once. Nothing is recorded for its values before, and
what is recorded then stays. -/
theorem extractBodies_at (hf : m.func id = .ok f)
    (hrun : (m.funcList.foldlM m.extractBody map).exec s = .ok (.ok map', t)) :
    ∃ before after u u', (∀ v, before.get? (.value id v) = map.get? (.value id v)) ∧
      (m.extractBody before (id, f)).exec u = .ok (.ok after, u') ∧ u' ≤ t ∧
      ∀ key d, after.get? key = some d → map'.get? key = some d := by
  have hnodup : (m.funcList.map Prod.fst).Nodup := m.map_fst_funcList ▸ m.nodup_funcIds
  obtain ⟨front, back, hsplit⟩ := List.append_of_mem (mem_funcList.2 hf)
  rw [hsplit, List.foldlM_append] at hrun
  obtain ⟨before, u, hfront, hrun⟩ := Pass.exec_bind_eq_ok.1 hrun
  rw [List.foldlM_cons] at hrun
  obtain ⟨after, u', hbody, hback⟩ := Pass.exec_bind_eq_ok.1 hrun
  refine ⟨before, after, u, u', ?_, hbody, ?_⟩
  · refine Pass.foldlM_invariant (P := fun _ map₁ _ => ∀ v,
      map₁.get? (.value id v) = map.get? (.value id v)) ?_ (fun _ => rfl) hfront
    intro done func rest map₁ s₁ map₂ s₂ hfunc hsame hround v
    -- Functions have distinct ids, so those in front record nothing for the values of this one.
    have hne : id ≠ func.1 := by
      rw [hsplit, List.map_append, List.map_cons] at hnodup
      have hmem : func.1 ∈ front.map Prod.fst := List.mem_map_of_mem (by simp [hfunc])
      exact ((List.nodup_append.1 hnodup).2.2 func.1 hmem id List.mem_cons_self).symm
    obtain ⟨-, -, hothers⟩ := extractBody_eq_ok hround
    exact (hothers id v hne).trans (hsame v)
  · refine Pass.foldlM_invariant (P := fun _ map₁ s₁ => u' ≤ s₁ ∧
      ∀ key d, after.get? key = some d → map₁.get? key = some d) ?_
      ⟨le_refl _, fun _ _ hd => hd⟩ hback
    intro done func rest map₁ s₁ map₂ s₂ _ hstate hround
    obtain ⟨hgrows, hkept, -⟩ := extractBody_eq_ok hround
    exact ⟨le_trans hstate.1 hgrows, fun key d hd => hkept key d (hstate.2 key d hd)⟩

/-- After the bodies are read, the map has exact descriptors for the sites of all functions. -/
theorem extractBodies_mapped (h : m.Readable) (hmap : ∀ id v, map.get? (.value id v) = none)
    (hrun : (m.funcList.foldlM m.extractBody map).exec s = .ok (.ok map', t)) (ht : t ≤ types) :
    ∀ id f, m.func id = .ok f → f.Mapped m.ctx types id map' := by
  intro id f hf
  obtain ⟨before, after, u, u', hfree, hbody, hle, hkept⟩ := extractBodies_at hf hrun
  refine Function.Mapped.mono ?_ hkept
  unfold extractBody at hbody
  split at hbody
  · next hdeclaration =>
      have hinsts := Function.insts_of_isDeclaration hdeclaration
      constructor <;> simp [hinsts]
  · obtain ⟨start, hread⟩ := h id f hf
    exact hread.mapped (fun v => (hfree v).trans (hmap id v)) hbody (le_trans hle ht)

theorem get?_seedGlobals_value (id : FuncId) (v : ValueId) :
    (m.seedGlobals config .empty).get? (.value id v) = none := by
  rw [get?_seedGlobals fun _ _ heq => by cases heq]
  rfl

/-- Extraction leaves exact descriptors for the sites of all functions. -/
theorem extract_mapped (h : m.Readable) (hrun : (m.extract config).exec s = .ok (.ok map, t)) :
    ∀ id f, m.func id = .ok f → f.Mapped m.ctx t id map := by
  obtain ⟨bodies, u, hbodies, hle, hextracted⟩ := extract_classified hrun
  intro id f hf
  exact (extractBodies_mapped h get?_seedGlobals_value hbodies hle id f hf).mono hextracted.kept

/-! ## Symbols -/

theorem classifyFunctions_misfit (map : PtrMap) :
    Pass.RefusesOnly m.ctx.Misfit (m.classifyFunctions config map) := by
  refine .foldlM (fun map f => .lift_bind fun sig hsig => ?_) _ map
  have htyped := (sig.typed_bounded_misfit m.ctx (some config.fallback) (.ofMap m map f)).mono
    fun e he => (⟨f, sig, hsig, he⟩ : m.ctx.Misfit e)
  refine htyped.refusal.bind fun typed => ?_
  exact (Pass.Bounded.modifyGet (canonical_funcDescriptor typed sig)).refusal.bind fun d => .pure _

theorem classifyFunctions_refusal (map : PtrMap) :
    Pass.RefusesOnly Refusal.IsMisfit (m.classifyFunctions config map) :=
  (classifyFunctions_misfit map).mono fun _ he => he.isMisfit

theorem classifyTable_blames (map : PtrMap) :
    Pass.RefusesOnly (m.ctx.Blames config) (m.classifyTable config map) := by
  unfold classifyTable
  split
  · exact .pure map
  · refine (Pass.RefusesOnly.lift _).bind fun g => ?_
    split
    · exact .pure map
    · exact (TableTyping.constantType_bounded ⟨m.ctx, config, map⟩ _).refusal.bind
        fun ty => .pure _

theorem classifyTable_refusal (map : PtrMap) :
    Pass.RefusesOnly Refusal.OfSymbol (m.classifyTable config map) :=
  (classifyTable_blames map).mono fun _ he => he.ofSymbol

/-- Extraction is refused only for a symbol, if the bodies can be read. -/
theorem extract_refusal (h : m.Readable) {e : Refusal}
    (hrun : (m.extract config).exec s = .ok (.error e, t)) : e.OfSymbol := by
  obtain ⟨bodies, u, hbodies⟩ := extractBodies_total h (m.seedGlobals config .empty) s
  have hrest := (Pass.exec_bind_of_ok hbodies).symm.trans hrun
  rcases Pass.exec_bind_cases hrest with ⟨e', he, hrefused⟩ | ⟨classified, v, -, htable⟩
  · cases he
    exact .inl (classifyFunctions_refusal bodies u e t hrefused)
  · exact classifyTable_refusal classified v e t htable

/-- The samples of annotations exist, and no constructor table is to be typed. -/
structure Typeable (m : Module) (config : Config) : Prop where
  samples : ∀ f sig, m.ctx.signature f = .ok sig → sig.SamplesDeclared m.ctx
  table : ∀ id global, m.ctx.globalNamed? config.ctorTable = some id →
    m.ctx.global id = .ok global → global.init = none

theorem Typeable.congr (h : m.Typeable config) (hctx : m'.ctx = { m.ctx with types }) :
    m'.Typeable config := by
  refine ⟨fun f sig hsig => ?_, fun id global hid hglobal => ?_⟩
  · rw [hctx] at hsig ⊢
    obtain ⟨hret, harg⟩ := h.samples f sig hsig
    exact ⟨hret, harg⟩
  · rw [hctx] at hid hglobal
    exact h.table id global hid hglobal

theorem Typeable.classifyTable_eq (h : m.Typeable config) (map : PtrMap) (s : TypeStore) :
    (m.classifyTable config map).exec s = .ok (.ok map, s) := by
  unfold classifyTable
  split
  · rfl
  · next id hid =>
      obtain ⟨n, hn, rfl⟩ := Option.map_eq_some_iff.1 hid
      obtain ⟨hlt, -⟩ := List.findIdx?_eq_some_iff_getElem.1 hn
      have hglobal : m.ctx.global ⟨n⟩ = .ok m.ctx.globals[n] :=
        Context.global_eq_ok.2 (Array.getElem?_eq_getElem (by simpa using hlt))
      rw [Pass.exec_liftM_of_ok hglobal, h.table ⟨n⟩ _ hid hglobal]
      rfl

section Functions

variable {start : Nat} {sig : Signature}

theorem source_total (hf : m.func id = .ok f) (hread : f.Readable m.ctx start) (map : PtrMap) :
    (∃ d, (SlotSource.ofMap m map id).ret = .ok d) ∧
      ∀ i, ∃ d, (SlotSource.ofMap m map id).arg i = .ok d := by
  have hinst : ∀ i ∈ f.insts, ∃ inst, f.graph.inst i = .ok inst ∧
      ∀ v, inst = .ret (some v) → f.graph.Has v := by
    intro i hi
    obtain ⟨inst, hinst⟩ := Graph.exists_inst (hread.markable.sound.lt_of_mem_insts hi)
    refine ⟨inst, hinst, ?_⟩
    rintro v rfl
    exact hread.markable.closed.has_operand hinst v (by simp [Inst.operands])
  constructor
  · obtain ⟨d, hd⟩ := SlotSource.sharedReturn_total hinst none
    exact ⟨d, bind_eq_ok_iff.2 ⟨f, hf, hd⟩⟩
  · exact fun i => ⟨_, bind_eq_ok_iff.2 ⟨f, hf, rfl⟩⟩

variable (hf : m.func id = .ok f) (hread : f.Readable m.ctx start)
  (hsig : m.ctx.signature id = .ok sig) (map : PtrMap) (s : TypeStore)
include hf hread hsig

theorem classifyFunction_total (hwell : sig.WellAnnotated m.ctx) :
    ∃ map' t, (m.classifyFunction config map id).exec s = .ok (.ok map', t) := by
  obtain ⟨hret, harg⟩ := source_total hf hread map
  obtain ⟨typed, t, htyped⟩ := Signature.typed_total hwell hret harg s
  exact ⟨_, _, (Pass.exec_liftM_of_ok hsig _ s).trans ((Pass.exec_bind_of_ok htyped).trans rfl)⟩

theorem classifyFunction_returns (hsamples : sig.SamplesDeclared m.ctx) :
    (m.classifyFunction config map id).Returns s := by
  obtain ⟨hret, harg⟩ := source_total hf hread map
  unfold Pass.Returns classifyFunction
  rw [Pass.exec_liftM_of_ok hsig]
  exact (Signature.typed_returns hsamples hret harg s).bind fun typed t _ => ⟨_, _, rfl⟩

end Functions

/-- Every annotation fits the signature that it is of. -/
def Fitting (m : Module) : Prop := ∀ f sig, m.ctx.signature f = .ok sig → sig.fits = true

theorem Fitting.congr (h : m.Fitting) (hctx : m'.ctx = { m.ctx with types }) : m'.Fitting := by
  intro f sig hsig
  rw [hctx] at hsig
  exact h f sig hsig

theorem Typeable.wellAnnotated (h : m.Typeable config) {sig : Signature}
    (hsig : m.ctx.signature id = .ok sig) (hfits : sig.fits = true) : sig.WellAnnotated m.ctx :=
  Signature.wellAnnotated_iff.2 ⟨Option.isNone_iff_eq_none.1 hfits, h.samples id sig hsig⟩

/-- Extraction meets no fault, and succeeds if all annotations fit. -/
theorem extract_returns (h : m.Readable) (himplemented : m.Implemented) (htype : m.Typeable config)
    (s : TypeStore) : ∃ r t, (m.extract config).exec s = .ok (r, t) ∧
      (m.Fitting → ∃ map, r = .ok map) := by
  obtain ⟨bodies, u, hbodies⟩ := extractBodies_total h (m.seedGlobals config .empty) s
  have hexec : (m.extract config).exec s =
      (m.classifyFunctions config bodies >>= m.classifyTable config).exec u :=
    Pass.exec_bind_of_ok hbodies
  have hfunc : ∀ id ∈ m.funcIds, ∃ f start sig, m.func id = .ok f ∧ f.Readable m.ctx start ∧
      m.ctx.signature id = .ok sig := by
    intro id hid
    obtain ⟨f, hf⟩ := exists_func_of_mem hid
    obtain ⟨start, hread⟩ := h id f hf
    obtain ⟨sig, hsig, -⟩ := himplemented id f hf
    exact ⟨f, start, sig, hf, hread, hsig⟩
  by_cases hfits : m.Fitting
  · have hround : ∀ id ∈ m.funcIds, ∀ map s, ∃ map' t,
        (m.classifyFunction config map id).exec s = .ok (.ok map', t) := by
      intro id hid map s
      obtain ⟨f, start, sig, hf, hread, hsig⟩ := hfunc id hid
      have hwell := htype.wellAnnotated hsig (hfits id sig hsig)
      exact classifyFunction_total hf hread hsig map s hwell
    obtain ⟨classified, v, hclassified⟩ : ∃ classified v,
        (m.classifyFunctions config bodies).exec u = .ok (.ok classified, v) :=
      Pass.foldlM_of_rounds hround bodies u
    refine ⟨.ok classified, v, ?_, fun _ => ⟨classified, rfl⟩⟩
    rw [hexec, Pass.exec_bind_of_ok hclassified, htype.classifyTable_eq]
  · have hreturns : (m.classifyFunctions config bodies).Returns u := by
      refine Pass.Returns.foldlM (P := fun _ _ _ => True) ?_ trivial
      intro done id rest map s hsplit _
      obtain ⟨f, start, sig, hf, hread, hsig⟩ := hfunc id (by simp [hsplit])
      exact ⟨classifyFunction_returns hf hread hsig map s (htype.samples id sig hsig),
        fun _ _ _ => trivial⟩
    obtain ⟨r, t, hrun⟩ := hreturns.bind
      fun classified v _ => ⟨_, _, htype.classifyTable_eq classified v⟩
    exact ⟨r, t, hexec.trans hrun, fun hall => absurd hall hfits⟩

/-! ## Runs of the eager strategy -/

section Runs

variable {flat wrapped : Module} {demoted marked : Bool} {ctx : Context}

theorem retypeEagerly_of_demote (hdemote : m.demote = .ok (demoted, flat)) :
    (retypeEagerly config).exec m = (do
      let marked ← mark
      if config.shouldCheckMarkers then checkPass
      let map ← extractPass config
      return ⟨map, demoted || marked⟩ : Pass Module Retyped).exec flat := by
  have hpass : demotePass.exec m = .ok (.ok demoted, flat) :=
    (Pass.exec_liftM_of_ok hdemote _ m).trans rfl
  exact Pass.exec_bind_of_ok hpass

/-- Once the functions can be read, the outcome is that of extraction. -/
theorem retypeEagerly_of_readable (hdemote : m.demote = .ok (demoted, flat))
    (hmark : mark.exec flat = .ok (.ok marked, wrapped)) (h : wrapped.Readable) :
    ∃ checked, (retypeEagerly config).exec m = (do
      let (r, types) ← ((wrapped.setTypes checked).extract config).exec checked
      return (r.map fun map => ⟨map, demoted || marked⟩, wrapped.setTypes types)) := by
  rw [retypeEagerly_of_demote hdemote, Pass.exec_bind_of_ok hmark]
  have hextract : ∀ checked, (do
        let map ← extractPass config
        return (⟨map, demoted || marked⟩ : Retyped)).exec (wrapped.setTypes checked) = (do
      let (r, types) ← ((wrapped.setTypes checked).extract config).exec checked
      return (r.map fun map => ⟨map, demoted || marked⟩, wrapped.setTypes types)) := by
    intro checked
    have hread : (extractPass config).exec (wrapped.setTypes checked) = (do
        let (r, types) ← ((wrapped.setTypes checked).extract config).exec checked
        return (r, wrapped.setTypes types)) := rfl
    rw [Pass.exec_bind, hread]
    cases ((wrapped.setTypes checked).extract config).exec checked with
    | error fault => rfl
    | ok result =>
        obtain ⟨r, types⟩ := result
        cases r <;> rfl
  split
  · have hcovered : ∀ id f, wrapped.func id = .ok f → ∃ start, f.Covered wrapped.ctx start := by
      intro id f hf
      obtain ⟨start, hread⟩ := h id f hf
      exact ⟨start, hread.toCovered⟩
    obtain ⟨checked, hcheck⟩ := checkCoverage_of_covered hcovered wrapped.ctx.types
    have hpass : checkPass.exec wrapped = .ok (.ok (), wrapped.setTypes checked) :=
      bind_eq_ok_iff.2 ⟨_, hcheck, rfl⟩
    exact ⟨checked, (Pass.exec_bind_of_ok hpass).trans (hextract checked)⟩
  · exact ⟨wrapped.ctx.types, hextract wrapped.ctx.types⟩

/-- A function of the marked module is the outcome of marking what it was. -/
theorem exists_markFunction (hmark : mark.exec m = .ok (.ok marked, m')) {f' : Function}
    (hf' : m'.func id = .ok f') : ∃ f types n t, m.func id = .ok f ∧
      (Marking.markFunction m.ctx).exec ⟨types, f⟩ = .ok (.ok n, t) ∧ t.func = f' := by
  have hruns := mark_ok hmark
  have hlt : id.index < m.funcs.size := by
    rw [← hruns.size]
    exact (Array.getElem?_eq_some_iff.1 (func_eq_ok.1 hf')).1
  have hf : m.func id = .ok m.funcs[id.index] := func_eq_ok.2 (Array.getElem?_eq_getElem hlt)
  obtain ⟨types, n, t, hrun, ht⟩ := hruns.marked id (mem_funcIds hf) _ hf
  exact ⟨_, types, n, t, hf, hrun, Except.ok.inj (ht.symm.trans hf')⟩

/-- After marking, extraction can read every function. -/
theorem mark_readable (h : ∀ id f, m.func id = .ok f → f.Markable ctx ∧ f.PointersTyped)
    (hmark : mark.exec m = .ok (.ok marked, m')) : m'.Readable := by
  obtain ⟨types, hctx⟩ := (mark_ok hmark).types
  intro id f' hf'
  obtain ⟨f, types', n, t, hf, hrun, rfl⟩ := exists_markFunction hmark hf'
  obtain ⟨hmarkable, hpointers⟩ := h id f hf
  rw [hctx]
  exact ⟨_, (Marking.markFunction_readable hmarkable hpointers hrun).withTypes types⟩

/-- Marking meets no fault if the samples of annotations exist, and succeeds if all annotations
fit. -/
theorem Typeable.mark_returns (htype : m.Typeable config)
    (h : ∀ id f, m.func id = .ok f → f.Markable (m.ctx.keepSamples fun _ => false)) :
    ∃ r m', mark.exec m = .ok (r, m') ∧ (m.Fitting → ∃ marked, r = .ok marked) := by
  have hcallee : ∀ id f, m.func id = .ok f → ∀ i ∈ f.insts, ∀ callee,
      f.InstIs i (·.callee? = some callee) → ∃ sig, m.ctx.signature callee = .ok sig := by
    intro id f hf i hi callee his
    obtain ⟨sig', hsig', -⟩ := (h id f hf).callees i hi callee his
    rw [Context.signature_keepSamples] at hsig'
    obtain ⟨sig, hsig, -⟩ := map_eq_ok_iff.1 hsig'
    exact ⟨sig, hsig⟩
  by_cases hfits : m.Fitting
  · have hmarkable : m.Markable := fun id f hf =>
      (h id f hf).withCallees fun i hi callee his => by
        obtain ⟨sig, hsig⟩ := hcallee id f hf i hi callee his
        exact ⟨sig, hsig, htype.wellAnnotated hsig (hfits callee sig hsig)⟩
    obtain ⟨m', hok, -⟩ := mark_total hmarkable
    exact ⟨_, m', hok, fun _ => ⟨_, rfl⟩⟩
  · -- An annotation that does not fit is refused where it is met, and does no harm elsewhere.
    obtain ⟨r, m', hrun⟩ := Module.mark_returns fun id f hf =>
      (h id f hf).withCallees fun i hi callee his => by
        obtain ⟨sig, hsig⟩ := hcallee id f hf i hi callee his
        exact Context.exists_wellAnnotated hsig (htype.wellAnnotated hsig)
    exact ⟨r, m', hrun, fun hall => absurd hall hfits⟩

end Runs

/-! ## Checks -/

theorem mem_funcs (h : m.func id = .ok f) : f ∈ m.funcs.toList := by
  rw [Array.mem_toList_iff]
  exact Array.mem_of_getElem? (func_eq_ok.1 h)

/-- Whether the samples of all annotations exist and fit, and there is no constructor table. -/
def checkTypeable (m : Module) (config : Config) : Bool :=
  m.ctx.signatures.toList.all (·.checkSamples m.ctx) &&
    (m.ctx.globalNamed? config.ctorTable).isNone

theorem typeable_of_check (h : m.checkTypeable config = true) :
    m.Typeable config ∧ m.Fitting := by
  obtain ⟨hsigs, htable⟩ := Bool.and_eq_true_iff.1 h
  have hwell : ∀ f sig, m.ctx.signature f = .ok sig → sig.WellAnnotated m.ctx := by
    intro f sig hsig
    have hmem : sig ∈ m.ctx.signatures.toList := by
      rw [Array.mem_toList_iff]
      exact Array.mem_of_getElem? (Context.signature_eq_ok.1 hsig)
    exact Signature.wellAnnotated_of_checkSamples (List.all_eq_true.1 hsigs sig hmem)
  refine ⟨⟨fun f sig hsig => ?_, fun id global hid => ?_⟩, fun f sig hsig => ?_⟩
  · exact (Signature.wellAnnotated_iff.1 (hwell f sig hsig)).2
  · rw [Option.isNone_iff_eq_none.1 htable] at hid
    cases hid
  · exact Option.isNone_iff_eq_none.2 (hwell f sig hsig).misfit

/-! ## Exactness -/

/-- Let the functions of a module that is built be extractable, and let constant expressions compute
addresses from pointers. Then the eager strategy is refused only for an annotation that does not
fit, or for a constructor table whose elements disagree. If it succeeds, the map has exact
descriptors for the sites of all functions. It meets no fault if the samples of annotations exist
and no constructor table is to be typed, and then succeeds if all annotations fit. -/
theorem extraction_is_exact (config : Config) (hm : m.Built)
    (hready : ∀ id f, m.func id = .ok f → f.Extractable m.ctx)
    (hbases : ∀ id f, m.func id = .ok f → f.graph.PartsTyped) :
    (∀ e m', (retypeEagerly config).exec m = .ok (.error e, m') → e.OfSymbol) ∧
    (∀ out m', (retypeEagerly config).exec m = .ok (.ok out, m') →
      ∀ id f, m'.func id = .ok f → f.Mapped m'.ctx m'.ctx.types id out.map) ∧
    (m.Typeable config → ∃ r m', (retypeEagerly config).exec m = .ok (r, m') ∧
      (m.Fitting → ∃ out, r = .ok out)) := by
  obtain ⟨demoted, flat, hdemote, hctx, hflat⟩ := demote_of_functions fun id f hf =>
    (hready id f hf).demote (hbases id f hf) (hm.written hf)
  refine ⟨fun e m' h => ?_, fun out m' h => ?_, fun htype => ?_⟩
  · -- A refusal comes from marking, or else from extraction: the check refuses nothing.
    have hphases := (retypeEagerly_of_demote hdemote).symm.trans h
    rcases Pass.exec_bind_cases hphases with ⟨_, heq, hrefused⟩ | ⟨marked, wrapped, hmark, -⟩
    · cases heq
      exact .inl (mark_refusal hrefused)
    · have hread := mark_readable hflat hmark
      obtain ⟨checked, hexec⟩ := retypeEagerly_of_readable hdemote hmark hread
      obtain ⟨⟨r, types⟩, hextract, hrest⟩ := bind_eq_ok_iff.1 (hexec.symm.trans h)
      cases r with
      | ok map => cases hrest
      | error e' =>
          cases hrest
          exact extract_refusal (hread.setTypes checked) hextract
  · obtain ⟨_, _, marked, wrapped, checked, types, hdemote', hmark, hextract, rfl⟩ :=
      retypeEagerly_eq_ok h
    cases hdemote.symm.trans hdemote'
    have hread := mark_readable hflat hmark
    intro id f hf
    exact (extract_mapped (hread.setTypes checked) hextract id f hf).withTypes types
  · have hflatCtx : flat.ctx = { m.ctx with types := m.ctx.types } := hctx
    obtain ⟨r, wrapped, hmark, hok⟩ := (htype.congr hflatCtx).mark_returns
      fun id f hf => hctx ▸ (hflat id f hf).1
    cases r with
    | error e =>
        refine ⟨.error e, wrapped, ?_, fun hfits => ?_⟩
        · rw [retypeEagerly_of_demote hdemote, Pass.exec_bind, hmark]
        · obtain ⟨marked, heq⟩ := hok (hfits.congr hflatCtx)
          cases heq
    | ok marked =>
        have hread := mark_readable hflat hmark
        obtain ⟨checked, hexec⟩ := retypeEagerly_of_readable hdemote hmark hread
        obtain ⟨types, hwrapped⟩ := mark_ctx hmark
        have hwrappedCtx : (wrapped.setTypes checked).ctx = { m.ctx with types := checked } := by
          rw [setTypes, hwrapped, hctx]
        obtain ⟨himplemented, -⟩ := hm.marked_implemented hdemote hmark
        obtain ⟨r, t, hrun, hok⟩ := extract_returns (hread.setTypes checked) himplemented
          (htype.congr hwrappedCtx) checked
        refine ⟨_, _, hexec.trans (bind_eq_ok_iff.2 ⟨_, hrun, rfl⟩), fun hfits => ?_⟩
        obtain ⟨map, rfl⟩ := hok (hfits.congr hwrappedCtx)
        exact ⟨_, rfl⟩

theorem extraction_is_exact_readsGlobal : ∃ m m' out, m.Built ∧
    (∀ id f, m.func id = .ok f → f.Extractable m.ctx ∧ f.graph.PartsTyped) ∧
    m.Typeable (.ofStrategy .eager) ∧ m.Fitting ∧
    (retypeEagerly (.ofStrategy .eager)).exec m = .ok (.ok out, m') ∧
    out.map.get? (.value ⟨0⟩ ⟨13⟩) = some ⟨.i32, .generic⟩ ∧
    out.map.get? (.value ⟨0⟩ ⟨17⟩) = some ⟨.i32, .generic⟩ := by
  have hrun : succeeds readsGlobal (fun m =>
      m.funcs.toList.all (fun f => f.checkExtractable m.ctx && f.checkBases) &&
      m.checkTypeable (.ofStrategy .eager) &&
      succeeds ((retypeEagerly (.ofStrategy .eager)).exec m) fun run =>
        succeeds (run.2.func ⟨0⟩) fun f => succeeds (run.2.ctx.signature ⟨1⟩) fun sig =>
          (⟨3⟩ : InstId) ∈ f.insts && f.graph.site ⟨3⟩ = .ok (.read ⟨13⟩ .i32) &&
          f.graph.spaceOf ⟨13⟩ = .ok (some .generic) && (⟨5⟩ : InstId) ∈ f.insts &&
          f.graph.site ⟨5⟩ = .ok (.call ⟨1⟩ [⟨17⟩, ⟨16⟩]) &&
          sig.args[0]? = some .genericPtr &&
          (sig.sample? 0).any (fun c => succeeds ((c.typeOf run.2.ctx).run run.2.ctx.types)
            (·.1 = .i32))) = true := by
    decide +kernel
  obtain ⟨m, hm, hrun⟩ := exists_of_succeeds hrun
  simp only [Bool.and_eq_true] at hrun
  obtain ⟨⟨hfuncs, hcheck⟩, hrun⟩ := hrun
  obtain ⟨⟨outcome, m'⟩, hexec, hrun⟩ := exists_of_succeeds hrun
  obtain ⟨f, hf, hrun⟩ := exists_of_succeeds hrun
  obtain ⟨sig, hsig, hrun⟩ := exists_of_succeeds hrun
  simp only [Bool.and_eq_true, decide_eq_true_eq] at hrun
  obtain ⟨⟨⟨⟨⟨⟨hread, hreadSite⟩, hspace⟩, hcall⟩, hcallSite⟩, hdeclared⟩, hsample⟩ := hrun
  obtain ⟨c, hc, htypeOf⟩ := (Option.any_eq_true _ _).1 hsample
  obtain ⟨_, htypeOf, hword⟩ := exists_of_succeeds htypeOf
  have hready : ∀ id f, m.func id = .ok f → f.Extractable m.ctx ∧ f.graph.PartsTyped := by
    intro id f hf
    obtain ⟨hready, hbases⟩ := Bool.and_eq_true_iff.1 (List.all_eq_true.1 hfuncs f (mem_funcs hf))
    exact ⟨Function.extractable_of_check hready, Function.partsTyped_of_checkBases hbases⟩
  have hbuilt := built_of_ofItems hm
  obtain ⟨htype, hfits⟩ := typeable_of_check hcheck
  obtain ⟨-, hexact, htotal⟩ := extraction_is_exact (.ofStrategy .eager) hbuilt
    (fun id f hf => (hready id f hf).1) fun id f hf => (hready id f hf).2
  obtain ⟨_, _, hexec', hok⟩ := htotal htype
  cases hexec.symm.trans hexec'
  obtain ⟨out, rfl⟩ := hok hfits
  have hmapped := hexact out m' hexec ⟨0⟩ f hf
  obtain ⟨space, hspace', hpointer⟩ := hmapped.pointer ⟨3⟩ hread _ ⟨13⟩ .i32 hreadSite rfl
  cases hspace.symm.trans hspace'
  obtain ⟨ty, space, hty, hdeclared', hargument⟩ :=
    hmapped.argument ⟨5⟩ hcall ⟨1⟩ _ sig hcallSite hsig 0 ⟨17⟩ c rfl hc
  cases hdeclared.symm.trans hdeclared'
  cases htypeOf.symm.trans hty
  cases of_decide_eq_true hword
  exact ⟨m, m', out, hbuilt, hready, htype, hfits, hexec, hpointer, hargument⟩

/-- A constant address that is computed from an integer. -/
def stepsOverInteger : Except Fault Module :=
  ofItems ⟨.air64, .bitcode, .v7⟩ [] [⟨"f", .exported, [], .i32, none⟩]
    [.null .generic, .constCast .ptrToInt ⟨0⟩ .i32, .constGep .i32 [⟨1⟩], .inst (.ret (some ⟨2⟩))]

/-- Demotion makes an instruction of a constant expression, so a run may be refused although all
instructions of the module access memory through pointers. -/
theorem not_forall_refusal_ofSymbol : ¬ ∀ (config : Config) (m : Module), m.Built →
    (∀ id f, m.func id = .ok f → f.Extractable m.ctx) →
    ∀ e m', (retypeEagerly config).exec m = .ok (.error e, m') → e.OfSymbol := by
  intro hall
  have hrun : succeeds stepsOverInteger (fun m =>
      m.funcs.toList.all (fun f => f.checkExtractable m.ctx) &&
      succeeds ((retypeEagerly (.ofStrategy .eager)).exec m) fun (r, _) =>
        r matches .error (.notPointer ..)) = true := by
    decide +kernel
  obtain ⟨m, hm, hrun⟩ := exists_of_succeeds hrun
  obtain ⟨hcheck, hrun⟩ := Bool.and_eq_true_iff.1 hrun
  obtain ⟨⟨outcome, m'⟩, hexec, hrefused⟩ := exists_of_succeeds hrun
  obtain ⟨func, inst, ty, rfl⟩ :
      ∃ func inst ty, outcome = .error (.notPointer func inst ty) := by
    dsimp only at hrefused
    split at hrefused
    · exact ⟨_, _, _, rfl⟩
    · cases hrefused
  have hsymbol := hall _ m (built_of_ofItems hm)
    (fun id f hf => Function.extractable_of_check (List.all_eq_true.1 hcheck f (mem_funcs hf)))
    _ m' hexec
  rcases hsymbol with (⟨_, _, _, heq⟩ | ⟨_, _, heq⟩) | ⟨_, _, _, _, heq⟩ <;> cases heq

end Module

end Pointee
