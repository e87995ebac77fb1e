import Pointee.Proofs.ExactPatching
import Pointee.Proofs.InferredSymbols
import Pointee.Proofs.MarkedExtraction
import Pointee.Proofs.Misfits

/-!
# Descriptors are in the address spaces of their pointers

`Module.Spaced` says that a map describes pointers only, each in its own address space, and symbols
only by name. Inference makes such a map of every module that there is, however it came about, since
it looks up the space of each value that it records. Extraction also copies descriptors from one
value to another, over markers and from annotated parameters to arguments. There the types have to
agree: `Graph.ResultsTyped` and `Function.ArgumentsTyped` say what the spaces depend on. Patching
keeps the property of a map. `Module.descriptors_in_own_spaces` puts this together.
-/

namespace Pointee

open PtrMap TypeStore

theorem Graph.ty_of_spaceOf {g : Graph} {v : ValueId} {val : Value} {space : AddrSpace}
    (hval : g.value v = .ok val) (hspace : g.spaceOf v = .ok (some space)) :
    val.ty = .ptr space := by
  obtain ⟨val', hval', hspace⟩ := spaceOf_eq_ok.1 hspace
  cases hval.symm.trans hval'
  exact Ty.space?_eq_some_iff.1 hspace

/-- Each value that an instruction defines has the type that the instruction computes. -/
def Graph.ResultsTyped (g : Graph) : Prop :=
  ∀ i v inst ty, g.result? i = some v → g.inst i = .ok inst →
    g.resultType inst = .ok (some ty) → g.typeOf v = .ok ty

/-- Whether each value that an instruction defines has the type that the instruction computes. -/
def Graph.checkResults (g : Graph) : Bool :=
  g.insts.toList.zipIdx.all fun (inst, n) => (g.result? ⟨n⟩).all fun v =>
    succeeds (g.resultType inst) (·.all fun ty => succeeds (g.typeOf v) (· = ty))

theorem Graph.resultsTyped_of_check {g : Graph} (h : g.checkResults = true) :
    g.ResultsTyped := by
  intro i v inst ty hresult hinst hty
  have hmem : (inst, i.index) ∈ g.insts.toList.zipIdx := by
    rw [List.mem_zipIdx_iff_getElem?, Array.getElem?_toList]
    exact inst_eq_ok.1 hinst
  have hcheck := List.all_eq_true.1 h _ hmem
  rw [Option.all_eq_true] at hcheck
  obtain ⟨_, hty', hcheck⟩ := exists_of_succeeds (hcheck v hresult)
  cases hty.symm.trans hty'
  obtain ⟨ty', hv, heq⟩ := exists_of_succeeds hcheck
  rw [hv, of_decide_eq_true heq]

/-- Each argument that a placed call passes for a parameter with a sample has the type of the
parameter. -/
def Function.ArgumentsTyped (ctx : Context) (f : Function) : Prop :=
  ∀ i ∈ f.insts, ∀ callee args ret sig slot v ty, f.graph.inst i = .ok (.call callee args ret) →
    ctx.signature callee = .ok sig → (sig.sample? slot).isSome = true → args[slot]? = some v →
    sig.args[slot]? = some ty → f.graph.typeOf v = .ok ty

/-- Whether each argument for a parameter with a sample has the type of the parameter. -/
def Function.checkArguments (ctx : Context) (f : Function) : Bool :=
  f.graph.insts.toList.all fun
    | .call callee args _ => succeeds (ctx.signature callee) fun sig =>
        args.zipIdx.all fun (v, slot) => (sig.sample? slot).isNone ||
          sig.args[slot]?.all fun ty => succeeds (f.graph.typeOf v) (· = ty)
    | _ => true

theorem Function.argumentsTyped_of_check {ctx : Context} {f : Function}
    (h : f.checkArguments ctx = true) : f.ArgumentsTyped ctx := by
  intro i _ callee args ret sig slot v ty hinst hsig hsample hv hty
  have hmem : Inst.call callee args ret ∈ f.graph.insts.toList := by
    rw [Array.mem_toList_iff]
    exact Array.mem_of_getElem? (Graph.inst_eq_ok.1 hinst)
  obtain ⟨sig', hsig', hcheck⟩ := exists_of_succeeds (List.all_eq_true.1 h _ hmem)
  cases hsig.symm.trans hsig'
  have hcheck := List.all_eq_true.1 hcheck (v, slot) (List.mem_zipIdx_iff_getElem?.2 hv)
  rw [Bool.or_eq_true, Option.isNone_iff_eq_none] at hcheck
  rcases hcheck with hnone | hcheck
  · rw [hnone] at hsample
    cases hsample
  · rw [Option.all_eq_true] at hcheck
    obtain ⟨ty', hv, heq⟩ := exists_of_succeeds (hcheck ty hty)
    rw [hv, of_decide_eq_true heq]

/-- A slot that an annotation types is in the space of the parameter. -/
theorem TypedSignature.slot_of_annotated {ctx : Context} {callee : FuncId} {typed : TypedSignature}
    {s t : TypeStore} {slot : Nat} {d : Descriptor}
    (h : (TypedSignature.annotated ctx callee).exec s = .ok (.ok typed, t))
    (hd : typed.arg? slot = some d) :
    ∃ sig, ctx.signature callee = .ok sig ∧ (sig.sample? slot).isSome = true ∧
      sig.args[slot]? = some (.ptr d.space) := by
  obtain ⟨sig, hsig, hwell⟩ := fits_of_annotated h
  obtain ⟨sig', hsig', hslots⟩ := isSome_annotated h
  cases hsig.symm.trans hsig'
  have hsome : (sig.sample? slot).isSome = true := by rw [← hslots slot, hd]; rfl
  refine ⟨sig, hsig, hsome, ?_⟩
  obtain ⟨c, hc⟩ := Option.isSome_iff_exists.1 hsome
  obtain ⟨⟨ty, hty, hptr⟩, -⟩ := hwell.sample hc
  obtain ⟨space, hspace⟩ := Option.isSome_iff_exists.1 hptr
  rw [Ty.space?_eq_some_iff.1 hspace] at hty
  unfold TypedSignature.annotated at h
  rw [Pass.exec_liftM_bind, hsig] at h
  obtain ⟨ty, -, hd'⟩ := Signature.typed_sample h (le_refl t) hty hc
  cases hd.symm.trans hd'
  exact hty

/-- Whether the value is the address of a symbol. -/
def Value.isSymbol : Value → Bool
  | .global .. | .func _ => true
  | _ => false

theorem Value.isSymbol_of_isLocal {val : Value} (h : val.isLocal = true) :
    val.isSymbol = false := by
  cases val with
  | inst | arg => rfl
  | _ => cases h

namespace Module

variable {m m' : Module} {config : Config} {map map' bodies mid : PtrMap} {key : PtrKey}
  {d : Descriptor} {id : FuncId} {f : Function} {v w : ValueId} {i : InstId} {s t u : TypeStore}

/-- The descriptor is in the address space of the pointer: of a value of pointer type that is not
the address of a symbol, of a global, or of a function. -/
inductive InOwnSpace (m : Module) : PtrKey → Descriptor → Prop
  | value {id : FuncId} {f : Function} {v : ValueId} {val : Value} {d : Descriptor} :
      m.func id = .ok f → f.graph.value v = .ok val → val.isSymbol = false →
      val.ty = .ptr d.space → InOwnSpace m (.value id v) d
  | global {g : GlobalId} {global : Global} {d : Descriptor} :
      m.ctx.global g = .ok global → d.space = global.space → InOwnSpace m (.global g) d
  | func {f : FuncId} {d : Descriptor} : d.space = .generic → InOwnSpace m (.func f) d

/-- All descriptors of the map are in the address spaces of their pointers. -/
def Spaced (m : Module) (map : PtrMap) : Prop :=
  ∀ key d, map.get? key = some d → m.InOwnSpace key d

theorem InOwnSpace.of_spaceOf (hf : m.func id = .ok f) {val : Value}
    (hval : f.graph.value v = .ok val) (hsymbol : val.isSymbol = false)
    (hspace : f.graph.spaceOf v = .ok (some d.space)) : m.InOwnSpace (.value id v) d :=
  .value hf hval hsymbol (Graph.ty_of_spaceOf hval hspace)

theorem InOwnSpace.of_result (hf : m.func id = .ok f) (hattached : f.graph.Attached)
    (hresult : f.graph.result? i = some v) (hspace : f.graph.spaceOf v = .ok (some d.space)) :
    m.InOwnSpace (.value id v) d := by
  obtain ⟨ty, hval⟩ := (hattached.result_iff i v).1 hresult
  exact .of_spaceOf hf hval rfl hspace

/-- A value is described in its own space under the name that it goes by. -/
theorem InOwnSpace.of_key (hf : m.func id = .ok f) (hglobals : f.graph.GlobalsTyped m.ctx)
    (hkey : PtrKey.ofValue id f.graph v = .ok key)
    (hspace : f.graph.spaceOf v = .ok (some d.space)) : m.InOwnSpace key d := by
  obtain ⟨val, hval, hrest⟩ := bind_eq_ok_iff.1 hkey
  have hty := Graph.ty_of_spaceOf hval hspace
  cases val with
  | global g ty =>
      cases hrest
      obtain ⟨global, hglobal, rfl⟩ := hglobals v g ty hval
      exact .global hglobal (Ty.ptr.inj hty).symm
  | func g =>
      cases hrest
      exact .func (Ty.ptr.inj hty).symm
  | _ =>
      cases hrest
      exact .value hf hval rfl hty

namespace Spaced

theorem empty (m : Module) : m.Spaced .empty := fun _ _ h => nomatch h

theorem insert (h : m.Spaced map) (hd : m.InOwnSpace key d) : m.Spaced (map.insert key d) := by
  intro k e he
  rw [get?_insert] at he
  split at he
  · next heq =>
      subst heq
      rcases Option.or_eq_some_iff.1 he with he | ⟨-, he⟩
      · exact h k e he
      · cases he
        exact hd
  · exact h k e he

theorem insertAll (h : m.Spaced map) {rs : List (PtrKey × Descriptor)}
    (hrs : ∀ r ∈ rs, m.InOwnSpace r.1 r.2) : m.Spaced (map.insertAll rs) := by
  induction rs generalizing map with
  | nil => exact h
  | cons r rs ih =>
      rw [List.forall_mem_cons] at hrs
      exact ih (h.insert hrs.1) hrs.2

theorem recorded {α : Type} {Fix : α → PtrKey → Descriptor → Prop} {xs : List α}
    (h : m.Spaced map) (hrecorded : Recorded Fix xs map map')
    (hfix : ∀ x ∈ xs, ∀ key d, Fix x key d → m.InOwnSpace key d) : m.Spaced map' := by
  obtain ⟨rs, rfl, hrs⟩ := hrecorded.records
  refine h.insertAll fun ⟨key, d⟩ hmem => ?_
  obtain ⟨x, hx, hfix'⟩ := (hrs key d).1 hmem
  exact hfix x hx key d hfix'

theorem records {R : ValueId → Ty → Prop} (h : m.Spaced map) (hf : m.func id = .ok f)
    (hrecords : f.Records id R map map')
    (hR : ∀ v e, R v e → ∃ val, f.graph.value v = .ok val ∧ val.isSymbol = false) :
    m.Spaced map' := by
  intro key d hd
  cases hold : map.get? key with
  | some d' =>
      cases (hrecords.kept key d' hold).symm.trans hd
      exact h key d hold
  | none =>
      obtain ⟨v, rfl, hv, hspace⟩ := (hrecords.new key d hold).1 hd
      obtain ⟨val, hval, hsymbol⟩ := hR v _ hv
      exact .of_spaceOf hf hval hsymbol hspace

/-- Only values that exist are described. -/
theorem has (h : m.Spaced map) (hf : m.func id = .ok f) (hd : map.get? (.value id v) = some d) :
    f.graph.Has v := by
  cases h _ d hd with
  | value hf' hval _ _ =>
      cases hf.symm.trans hf'
      exact Graph.has_of_value hval

end Spaced

/-- Pointers stay where they are while functions keep their values. -/
theorem InOwnSpace.keeps (h : m.InOwnSpace key d) (hctx : m'.ctx.globals = m.ctx.globals)
    (hfuncs : ∀ id f, m.func id = .ok f → ∃ f', m'.func id = .ok f' ∧ f.graph.Keeps f'.graph) :
    m'.InOwnSpace key d := by
  cases h with
  | value hf hval hsymbol hty =>
      obtain ⟨f', hf', hkeeps⟩ := hfuncs _ _ hf
      exact .value hf' (hkeeps _ _ hval) hsymbol hty
  | global hglobal hspace =>
      refine .global ?_ hspace
      rw [Context.global, hctx]
      exact hglobal
  | func hspace => exact .func hspace

theorem Spaced.setTypes (h : m.Spaced map) (types : TypeStore) : (m.setTypes types).Spaced map :=
  fun key d hd => (h key d hd).keeps rfl fun _ f hf => ⟨f, hf, .refl _⟩

/-! ## Symbols -/

theorem spaced_seedGlobals (m : Module) (config : Config) :
    m.Spaced (m.seedGlobals config .empty) := by
  rw [seedGlobals_eq]
  refine (Spaced.empty m).insertAll fun r hr => ?_
  obtain ⟨⟨g, global⟩, hmem, rfl⟩ := List.mem_map.1 hr
  exact .global (Context.mem_globalList.1 (List.mem_filter.1 hmem).1) rfl

/-- The address of a function is a generic pointer, and the constructor table stays in its space. -/
theorem Spaced.classify (h : m.Spaced bodies)
    (hfunctions : (m.classifyFunctions config bodies).exec s = .ok (.ok mid, u))
    (htable : (m.classifyTable config mid).exec u = .ok (.ok map, t)) : m.Spaced map := by
  have hmid : m.Spaced mid := by
    refine Pass.foldlM_invariant (P := fun _ map _ => m.Spaced map) ?_ h hfunctions
    intro done g rest map₁ s₁ map₂ s₂ _ hmap₁ hround
    obtain ⟨sig, typed, d, u, -, -, -, hd, rfl⟩ := classifyFunction_typed hround
    have hgeneric : d.space = .generic := by
      have hd := hd s₂ (le_refl s₂)
      exact (congrArg (·.1.space) hd).symm
    exact hmap₁.insert (.func hgeneric)
  obtain ⟨-, ⟨rfl, -⟩ | ⟨g, global, ty, -, hglobal, -, rfl⟩⟩ := classifyTable_eq_ok htable
  · exact hmid
  · have hcontent : m.Spaced (mid.setContent g ty) := hmid
    exact hcontent.insert (.global hglobal rfl)

/-! ## Inference -/

theorem Spaced.gains {r : ValueId} {st st' : List ValueId × PtrMap} (h : m.Spaced st.2)
    (hf : m.func id = .ok f) (hattached : f.graph.Attached)
    (hresult : f.graph.result? i = some r) (hgains : f.Gains id r d st st') : m.Spaced st'.2 := by
  rw [hgains.map]
  exact h.insert (.of_result hf hattached hresult hgains.space)

/-- Arguments are arguments, and no symbols. -/
theorem exists_arg_value (hf : f.Coherent m.ctx id) {n : Nat} (hv : f.args[n]? = some v) :
    ∃ val, f.graph.value v = .ok val ∧ val.isSymbol = false := by
  obtain ⟨sig, -, himplements⟩ := hf.declared
  rw [himplements.args, List.getElem?_map] at hv
  obtain ⟨k, hk, rfl⟩ := Option.map_eq_some_iff.1 hv
  have hkn : k < sig.args.length := List.mem_range.1 (List.mem_of_getElem? hk)
  exact ⟨_, himplements.value k _ (List.getElem?_eq_getElem hkn), rfl⟩

theorem Spaced.seedAnnotated (h : m.Spaced map) (hf : m.func id = .ok f)
    (hcoherent : f.Coherent m.ctx id)
    (hrun : (f.seedAnnotated id m.ctx map).run s = .ok (map', t)) : m.Spaced map' := by
  obtain ⟨sig, pointees, -, -, hloop⟩ := Function.seedAnnotated_eq_ok hrun
  refine foldlM_invariant (P := m.Spaced) (fun map₁ map₂ p _ hmap₁ hround => ?_) h hloop
  exact hmap₁.records hf (Function.seedArgument_records hround)
    fun v e hv => exists_arg_value hcoherent hv.1

/-- What spreads forward is moved to the space of the value that it reaches. -/
theorem Spaced.forward (h : m.Spaced map) (hf : m.func id = .ok f)
    (hcoherent : f.Coherent m.ctx id) (hrun : f.forward id map = .ok map') : m.Spaced map' := by
  have hforwards := f.forwards_forward id map
  rw [hrun] at hforwards
  cases hforwards with
  | spread hseed hspread =>
      refine hspread.invariant (P := fun _ map => m.Spaced map) ?_ ?_
      · intro v queue map₁ queue' map₂ hmap₁ hvisit
        refine foldlM_invariant (P := fun st : List ValueId × PtrMap => m.Spaced st.2) ?_
          (s := (queue, map₁)) hmap₁ hvisit
        intro st st' user _ hst hround
        rcases Function.spreadTo_eq_ok hround with ⟨rfl, -⟩ |
          ⟨r, operands, w, d, ⟨site, space, hresult, -⟩, -, -, hgains⟩
        · exact hst
        · exact hst.gains hf hcoherent.attached hresult hgains
      · refine foldlM_invariant (P := fun st : List ValueId × PtrMap => m.Spaced st.2) ?_
          (s := (f.usedGlobals ++ f.knownArgs id map, map)) h hseed
        intro st st' j _ hst hround
        rcases Function.seedInst_eq_ok hround with rfl | ⟨r, d, site, hresult, -, -, hgains⟩
        · exact hst
        · exact hst.gains hf hcoherent.attached hresult hgains

theorem Spaced.infer (h : m.Spaced map) (hf : m.func id = .ok f) (hcoherent : f.Coherent m.ctx id)
    (hrun : (f.infer id m.ctx map).run s = .ok (map', t)) : m.Spaced map' := by
  obtain ⟨seeded, flowed, hseeds, hforward, hbackward⟩ := Function.infer_eq_ok hrun
  have hflowed : m.Spaced flowed :=
    (h.seedAnnotated hf hcoherent hseeds).forward hf hcoherent hforward
  -- The backward walks record values that are computed at run time.
  refine hflowed.records hf (Function.backward_records hbackward) fun v e hv => ?_
  obtain ⟨val, hval, hlocal, -⟩ := Function.FirstSite.localPointer hv
  exact ⟨val, hval, Value.isSymbol_of_isLocal hlocal⟩

theorem Spaced.inferBodies (hm : m.Coherent) {fs : List (FuncId × Function)}
    (hfs : ∀ x ∈ fs, m.func x.1 = .ok x.2) (h : m.Spaced map)
    (hrun : (fs.foldlM m.inferBody map).run s = .ok (map', t)) : m.Spaced map' := by
  induction fs generalizing map s with
  | nil =>
      cases hrun
      exact h
  | cons x fs ih =>
      rw [List.forall_mem_cons] at hfs
      rw [List.foldlM_cons] at hrun
      obtain ⟨mid, u, hbody, hrest⟩ := run_bind_eq_ok.1 hrun
      refine ih hfs.2 ?_ hrest
      unfold inferBody at hbody
      split at hbody
      · cases hbody
        exact h
      · exact h.infer hfs.1 (hm _ _ hfs.1) hbody

/-- Inference describes pointers in their own address spaces. -/
theorem infer_spaced (hm : m.Coherent) (h : (m.infer config).exec s = .ok (.ok map, t)) :
    m.Spaced map := by
  obtain ⟨bodies, u, mid, v, hrun, hfunctions, htable⟩ := infer_phases h
  have hbodies : m.Spaced bodies :=
    (spaced_seedGlobals m config).inferBodies hm (fun _ hmem => mem_funcList.1 hmem) hrun
  exact hbodies.classify hfunctions htable

/-! ## Extraction -/

/-- A marker has the type of what it wraps. -/
theorem typeOf_marker {g : Graph} {k : InstId} (htyped : g.ResultsTyped)
    (hmarker : g.isMarker k = .ok true) (hresult : g.result? k = some v)
    (hw : g.operand k 0 = .ok w) : g.typeOf v = g.typeOf w := by
  obtain ⟨arg, ty, hinst⟩ := Graph.inst_of_isMarker hmarker
  have hv : g.typeOf v = .ok ty := htyped k v _ ty hresult hinst rfl
  obtain rfl : arg = w := by
    obtain ⟨inst, hinst', hop⟩ := Graph.operand_eq_ok.1 hw
    cases hinst.symm.trans hinst'
    simpa [Inst.marker, Inst.operands] using hop
  rw [hv]
  obtain ⟨inst, hinst', hrest⟩ := bind_eq_ok_iff.1 hmarker
  cases hinst.symm.trans hinst'
  obtain ⟨ty', hty', heq⟩ := bind_eq_ok_iff.1 hrest
  rw [hty', of_decide_eq_true (pure_eq_ok_iff.1 heq)]

theorem spaceOf_marker {g : Graph} {k : InstId} (htyped : g.ResultsTyped)
    (hmarker : g.isMarker k = .ok true) (hresult : g.result? k = some v)
    (hw : g.operand k 0 = .ok w) : g.spaceOf v = g.spaceOf w := by
  rw [Graph.spaceOf, typeOf_marker htyped hmarker hresult hw, Graph.spaceOf]

/-- What an instruction says about pointers is said in their own spaces. -/
theorem InOwnSpace.of_fixes (hf : m.func id = .ok f) (hcoherent : f.Coherent m.ctx id)
    (hresults : f.graph.ResultsTyped) (harguments : f.ArgumentsTyped m.ctx) (hi : i ∈ f.insts)
    (h : f.Fixes m.ctx t id i key d) : m.InOwnSpace key d := by
  cases h with
  | pointer haccess =>
      obtain ⟨k, ty, hval, -⟩ := Function.exists_inst_of_markedOperand haccess.marked
      exact .of_spaceOf hf hval rfl haccess.space
  | wrapped haccess hkey =>
      obtain ⟨k, ty, hval, hmarker, hop⟩ := Function.exists_inst_of_markedOperand haccess.marked
      have hresult := (hcoherent.attached.result_iff k _).2 ⟨ty, hval⟩
      refine .of_key hf hcoherent.globals hkey ?_
      rw [← spaceOf_marker hresults hmarker hresult hop]
      exact haccess.space
  | result hmakes => exact .of_result hf hcoherent.attached hmakes.result hmakes.space
  | @marker v _ _ hmakes =>
      obtain ⟨v', k, hv, husers, hmarker, hresult⟩ :=
        Function.exists_result_of_soleMarker hmakes.marked
      cases hmakes.result.symm.trans hv
      have hop : f.graph.operand k 0 = .ok v := by
        obtain ⟨inst, hinst, hmem⟩ := hcoherent.users v k (by simp [husers])
        obtain ⟨arg, ty, hinst'⟩ := Graph.inst_of_isMarker hmarker
        cases hinst.symm.trans hinst'
        rw [List.mem_singleton.1 hmem]
        exact Graph.operand_eq_ok.2 ⟨_, hinst, rfl⟩
      refine .of_result hf hcoherent.attached hresult ?_
      rw [spaceOf_marker hresults hmarker hresult hop]
      exact hmakes.space
  | argument hpasses =>
      obtain ⟨callee, args, typed, slot, hsite, htyped, harg, hd, wrapped, hmarked⟩ := hpasses
      obtain ⟨k, ty, hval, -⟩ := Function.exists_inst_of_markedOperand hmarked
      obtain ⟨ret, hinst⟩ := Graph.inst_of_call hsite
      obtain ⟨sig, hsig, hsample, hty⟩ := TypedSignature.slot_of_annotated htyped hd
      have hspace := harguments i hi callee args ret sig slot _ _ hinst hsig hsample harg hty
      refine .of_spaceOf hf hval rfl ?_
      rw [Graph.spaceOf, hspace]
      rfl

/-- What is known of a global holds of its markers. -/
theorem InOwnSpace.of_passesOn (hf : m.func id = .ok f) (hcoherent : f.Coherent m.ctx id)
    (hresults : f.graph.ResultsTyped) (hmap : m.Spaced map) (h : f.PassesOn id map i key d) :
    m.InOwnSpace key d := by
  obtain ⟨w, g, ty, v, hmarker, hop, hval, hresult, hd, rfl⟩ := h
  obtain ⟨global, hglobal, rfl⟩ := hcoherent.globals w g ty hval
  have hspace : d.space = global.space := by
    cases hmap _ d hd with
    | global hglobal' hspace =>
        cases hglobal.symm.trans hglobal'
        exact hspace
  refine .of_result hf hcoherent.attached hresult ?_
  rw [spaceOf_marker hresults hmarker hresult hop, hspace]
  exact Graph.spaceOf_eq_ok.2 ⟨_, hval, rfl⟩

/-- Results and annotated arguments have their types in all functions. -/
def WellTyped (m : Module) : Prop :=
  ∀ id f, m.func id = .ok f → f.graph.ResultsTyped ∧ f.ArgumentsTyped m.ctx

/-- Whether results and annotated arguments have their types. -/
def checkTypes (m : Module) : Bool :=
  m.funcList.all fun (_, f) => f.graph.checkResults && f.checkArguments m.ctx

theorem wellTyped_of_checkTypes (h : m.checkTypes = true) : m.WellTyped := by
  intro id f hf
  have hcheck := List.all_eq_true.1 h (id, f) (mem_funcList.2 hf)
  obtain ⟨hresults, harguments⟩ := Bool.and_eq_true_iff.1 hcheck
  exact ⟨Graph.resultsTyped_of_check hresults, Function.argumentsTyped_of_check harguments⟩

/-- Extraction describes pointers in their own address spaces if the types agree. -/
theorem extract_spaced (hm : m.Coherent) (htyped : m.WellTyped)
    (h : (m.extract config).exec s = .ok (.ok map, t)) : m.Spaced map := by
  obtain ⟨bodies, u, hbodies, h⟩ := Pass.exec_bind_eq_ok.1 h
  obtain ⟨mid, _, hfunctions, htable⟩ := Pass.exec_bind_eq_ok.1 h
  refine Spaced.classify ?_ hfunctions htable
  refine Pass.foldlM_invariant (P := fun _ map _ => m.Spaced map) ?_
    (spaced_seedGlobals m config) hbodies
  rintro done ⟨id, f⟩ rest map₁ s₁ map₂ s₂ hsplit hmap₁ hround
  have hf : m.func id = .ok f := mem_funcList.1 (by simp [hsplit])
  obtain ⟨hresults, harguments⟩ := htyped id f hf
  unfold extractBody at hround
  split at hround
  · cases hround
    exact hmap₁
  · obtain ⟨known, hfirst, hsecond⟩ := (Function.extract_recorded hround).2 (le_refl s₂)
    have hknown : m.Spaced known := hmap₁.recorded hfirst fun i hi key d hfix =>
      .of_fixes hf (hm id f hf) hresults harguments hi hfix
    exact hknown.recorded hsecond fun i _ key d hpass =>
      .of_passesOn hf (hm id f hf) hresults hknown hpass

/-! ## Patching -/

/-- Patching describes the casts that it makes, which are in the spaces of the pointers that they
take. -/
theorem Spaced.patch (hm : m.Coherent) (h : m.Spaced map) {changed : Bool}
    (hpatch : m.patch config map = .ok (changed, map', m')) : m'.Spaced map' := by
  obtain ⟨cast, n, hrun, -⟩ := patch_run (fun id f hf => (hm id f hf).layout.sound)
    (fun id f hf v d hd => h.has hf hd) hpatch
  intro key d hd
  rcases hrun.new key d hd with hold | ⟨id, i, c, v, hc, rfl⟩
  · refine (h key d hold).keeps (by rw [hrun.ctx]) fun id f hf => ?_
    obtain ⟨f', hf', hsettles⟩ := hrun.settles id f hf (mem_funcIds hf)
    exact ⟨f', hf', hsettles.values⟩
  · obtain ⟨f, hf⟩ := exists_func_of_mem (hrun.turns id i _ hc)
    obtain ⟨f', hf', hsettles⟩ := hrun.settles id f hf (mem_funcIds hf)
    obtain ⟨inst, slot, ptr, space, -, -, -, -, hval, hd'⟩ := (hsettles.casts i c v hc).site
    cases hd.symm.trans hd'
    exact .value hf' hval rfl rfl

/-- Inference describes pointers only, each in its own address space, and so does extraction where
results and annotated arguments have their types. Patching leaves it so. -/
theorem descriptors_in_own_spaces (hm : m.Arises) :
    (∀ config map m₁, (inferPass config).exec m = .ok (.ok map, m₁) → m₁.Spaced map ∧
      ∀ config' changed map' m₂, m₁.patch config' map = .ok (changed, map', m₂) →
        m₂.Spaced map') ∧
    (m.WellTyped →
      ∀ config map m₁, (extractPass config).exec m = .ok (.ok map, m₁) → m₁.Spaced map ∧
        ∀ config' changed map' m₂, m₁.patch config' map = .ok (changed, map', m₂) →
          m₂.Spaced map') := by
  constructor
  · intro config map m₁ h
    obtain ⟨types, hrun, rfl⟩ := exec_reading_eq_ok h
    have hspaced := (infer_spaced hm.coherent hrun).setTypes types
    exact ⟨hspaced, fun _ _ _ _ hpatch => hspaced.patch (hm.typed types).coherent hpatch⟩
  · intro htyped config map m₁ h
    obtain ⟨types, hrun, rfl⟩ := exec_reading_eq_ok h
    have hspaced := (extract_spaced hm.coherent htyped hrun).setTypes types
    exact ⟨hspaced, fun _ _ _ _ hpatch => hspaced.patch (hm.typed types).coherent hpatch⟩

/-- A function that reads a global in one address space, moves its annotated argument from another
one to the generic space, reads two types through it there, and passes the argument to itself. The
pointers are marked. -/
def mixesSpaces : Except Fault Module :=
  ofItems ⟨.air64, .bitcode, .v7⟩ [⟨"data", .i64, ⟨1⟩, .exported, false, none⟩]
    [⟨"f", .exported, [.ptr ⟨2⟩], .unit, some ⟨none, [(0, .zero .i32)]⟩⟩]
    [.globalAddr ⟨0⟩, .inst (.marker ⟨1⟩ (.ptr ⟨1⟩)), .inst (.load ⟨2⟩ .i64),
      .inst (.cast .spaceCast ⟨0⟩ .genericPtr), .inst (.marker ⟨4⟩ .genericPtr),
      .inst (.load ⟨5⟩ .i8), .inst (.load ⟨5⟩ .i16), .inst (.marker ⟨0⟩ (.ptr ⟨2⟩)),
      .inst (.call ⟨0⟩ [⟨8⟩] .unit), .inst (.ret none)]

/-- Both ways describe the argument, or its marker, where it is, and what it is moved to in the
generic space. -/
theorem descriptors_in_own_spaces_mixesSpaces : ∃ m map m₁ map' m₂ read m₃,
    mixesSpaces = .ok m ∧ m.WellTyped ∧
    (inferPass (.ofStrategy .analytical)).exec m = .ok (.ok map, m₁) ∧ m₁.Spaced map ∧
    map.get? (.value ⟨0⟩ ⟨0⟩) = some ⟨.i32, ⟨2⟩⟩ ∧
    map.get? (.value ⟨0⟩ ⟨4⟩) = some ⟨.i32, .generic⟩ ∧
    m₁.patch (.ofStrategy .analytical) map = .ok (true, map', m₂) ∧ m₂.Spaced map' ∧
    (extractPass (.ofStrategy .eager)).exec m = .ok (.ok read, m₃) ∧ m₃.Spaced read ∧
    read.get? (.value ⟨0⟩ ⟨2⟩) = some ⟨.i64, ⟨1⟩⟩ ∧
    read.get? (.value ⟨0⟩ ⟨4⟩) = some ⟨.i8, .generic⟩ ∧
    read.get? (.value ⟨0⟩ ⟨8⟩) = some ⟨.i32, ⟨2⟩⟩ := by
  have hrun : succeeds mixesSpaces (fun m => m.checkTypes &&
      succeeds ((inferPass (.ofStrategy .analytical)).exec m) fun infer =>
        succeeds ((extractPass (.ofStrategy .eager)).exec m) fun extract =>
          infer.1.toOption.any fun map => extract.1.toOption.any fun read =>
            map.get? (.value ⟨0⟩ ⟨0⟩) = some ⟨.i32, ⟨2⟩⟩ &&
            map.get? (.value ⟨0⟩ ⟨4⟩) = some ⟨.i32, .generic⟩ &&
            read.get? (.value ⟨0⟩ ⟨2⟩) = some ⟨.i64, ⟨1⟩⟩ &&
            read.get? (.value ⟨0⟩ ⟨4⟩) = some ⟨.i8, .generic⟩ &&
            read.get? (.value ⟨0⟩ ⟨8⟩) = some ⟨.i32, ⟨2⟩⟩ &&
            succeeds (infer.2.patch (.ofStrategy .analytical) map) (·.1)) = true := by
    decide +kernel
  obtain ⟨m, hm, hrun⟩ := exists_of_succeeds hrun
  obtain ⟨htypes, hrun⟩ := Bool.and_eq_true_iff.1 hrun
  obtain ⟨⟨inferred, m₁⟩, hinfer, hrun⟩ := exists_of_succeeds hrun
  obtain ⟨⟨extracted, m₃⟩, hextract, hrun⟩ := exists_of_succeeds hrun
  have htyped := wellTyped_of_checkTypes htypes
  cases inferred with
  | error e => cases hrun
  | ok map =>
      cases extracted with
      | error e => cases hrun
      | ok read =>
          simp only [Except.toOption, Option.any_some, Bool.and_eq_true, decide_eq_true_eq] at hrun
          obtain ⟨⟨⟨⟨⟨harg, hcast⟩, hglobal⟩, hread⟩, hpassed⟩, hrun⟩ := hrun
          obtain ⟨⟨changed, map', m₂⟩, hpatch, rfl⟩ := exists_of_succeeds hrun
          obtain ⟨hinfers, hextracts⟩ := descriptors_in_own_spaces (.built (built_of_ofItems hm))
          obtain ⟨hspaced, hpatches⟩ := hinfers _ _ _ hinfer
          exact ⟨m, map, m₁, map', m₂, read, m₃, hm, htyped, hinfer, hspaced, harg, hcast, hpatch,
            hpatches _ _ _ _ hpatch, hextract, (hextracts htyped _ _ _ hextract).1, hglobal, hread,
            hpassed⟩

end Module

end Pointee
