import Pointee.Proofs.HeldTypes
import Pointee.Proofs.StaticTypes

/-!
# Modules over their own types

A compound type is a handle, and nothing keeps a caller from naming the handle of another store.
`Module.BuildingOwn` is building without that: every type that a step names is one that the store of
the module has. The values of a body get their types from what is named, from the signature and from
each other, so all of them are of the store as well, and `Module.BuildingOwn.typesHeld` follows: the
types are held wherever inference and the typing of tables ask for it.
-/

namespace Pointee

/-! ## The types that a body names -/

/-- The types that an instruction names. -/
def Inst.namedTypes : Inst → List Ty
  | cast _ _ ty | load _ ty | alloca ty _ | phi ty _ => [ty]
  | gep source result _ => [source, result]
  | call _ _ retTy => [retTy]
  | _ => []

/-- The types that a constant names. -/
def Value.namedTypes : Value → List Ty
  | undef ty => [ty]
  | expr e _ => e.toInst.namedTypes
  | _ => []

/-- A type that an instruction fixes for its result is named, or is no handle. -/
theorem Inst.below_of_resultRule {n : Nat} {inst : Inst} {ty : Ty}
    (hnamed : ∀ t ∈ inst.namedTypes, t.Below n) (h : inst.resultRule = .fixed (some ty)) :
    ty.Below n := by
  cases inst with
  | cast | load | phi =>
      cases h
      exact hnamed ty (List.mem_singleton.2 rfl)
  | alloca =>
      cases h
      trivial
  | binary op lhs rhs =>
      simp only [resultRule] at h
      split at h <;> cases h
      trivial
  | call callee args retTy =>
      simp only [resultRule] at h
      split at h <;> cases h
      exact hnamed ty (List.mem_singleton.2 rfl)
  | _ => cases h

/-- All values of the graph have types of the store. -/
def Graph.ValuesHeld (s : TypeStore) (g : Graph) : Prop :=
  ∀ v val, g.value v = .ok val → val.ty.Below s.size

namespace Graph.ValuesHeld

variable {s : TypeStore} {g g' : Graph} {val : Value}

theorem congr (h : g.ValuesHeld s) (hvalues : g'.values = g.values) : g'.ValuesHeld s := by
  intro v val hv
  rw [value, hvalues] at hv
  exact h v val hv

theorem typeOf (h : g.ValuesHeld s) {v : ValueId} {ty : Ty} (hv : g.typeOf v = .ok ty) :
    ty.Below s.size := by
  obtain ⟨val, hval, rfl⟩ := typeOf_eq_ok.1 hv
  exact h v val hval

/-- An instruction over such values that names types of the store computes a value of such a
type. -/
theorem resultType (h : g.ValuesHeld s) {inst : Inst} {ty : Ty}
    (hnamed : ∀ t ∈ inst.namedTypes, t.Below s.size)
    (hty : g.resultType inst = .ok (some ty)) : ty.Below s.size := by
  rcases resultType_eq_some_iff.1 hty with hfixed | ⟨slot, v, -, -, hv⟩
  · exact Inst.below_of_resultRule hnamed hfixed
  · exact h.typeOf hv

theorem addValue (h : g.ValuesHeld s) (hval : val.ty.Below s.size) :
    (g.addValue val).2.ValuesHeld s := by
  intro v val' hv
  rw [value_addValue] at hv
  split at hv
  · cases hv
    exact hval
  · exact h v val' hv

/-- Only a constant that is new needs a type of the store. -/
theorem intern (h : g.ValuesHeld s)
    (hval : (g.intern val).2.value g.nextValue = .ok val → val.ty.Below s.size) :
    (g.intern val).2.ValuesHeld s := by
  unfold Graph.intern at hval ⊢
  split at hval
  · exact h
  · exact (h.addValue (hval (value_nextValue g val))).congr rfl

end Graph.ValuesHeld

namespace Function

variable {s t : TypeStore} {ctx : Context} {f f' : Function} {sig : Signature}

/-- The instructions and constants of the function name types of the store only. -/
structure NamesTypesOf (s : TypeStore) (f : Function) : Prop where
  insts : ∀ i inst, f.graph.inst i = .ok inst → ∀ ty ∈ inst.namedTypes, ty.Below s.size
  values : ∀ v val, f.graph.value v = .ok val → ∀ ty ∈ val.namedTypes, ty.Below s.size

/-- Everything in the function has a type of the store. -/
structure TypesHeld (s : TypeStore) (f : Function) : Prop extends f.NamesTypesOf s where
  typed : f.graph.ValuesHeld s

theorem TypesHeld.mono (h : f.TypesHeld s) (hle : s ≤ t) : f.TypesHeld t where
  insts i inst hinst ty hty := (h.insts i inst hinst ty hty).mono (TypeStore.size_le_of_le hle)
  values v val hv ty hty := (h.values v val hv ty hty).mono (TypeStore.size_le_of_le hle)
  typed v val hv := (h.typed v val hv).mono (TypeStore.size_le_of_le hle)

/-- A function starts with its arguments, whose types the signature declares. -/
theorem typesHeld_ofSignature (h : sig.TypesHeld s) : (ofSignature sig).TypesHeld s := by
  refine ⟨⟨fun i inst hinst => ?_, fun v val hv ty hty => ?_⟩, fun v val hv => ?_⟩
  · cases hinst
  · obtain ⟨_, -, rfl⟩ := value_ofSignature.1 hv
    cases hty
  · obtain ⟨ty, hty, rfl⟩ := value_ofSignature.1 hv
    exact h.args ty (List.mem_of_getElem? hty)

/-- Writing gives a value a type that is named, or one that another value has. -/
theorem Writing.typesHeld (h : f.Writing ctx f') (hf : f.TypesHeld s)
    (hnames : f'.NamesTypesOf s) : f'.TypesHeld s := by
  refine ⟨hnames, ?_⟩
  cases h with
  | same => exact hf.typed
  | addBlock | appendBlock => exact hf.typed.congr rfl
  | @constant val hshared hglobal =>
      refine hf.typed.intern fun hnew => ?_
      cases val with
      | inst | arg | expr => cases hshared
      | imm | func | null => trivial
      | global id ty =>
          obtain ⟨global, -, rfl⟩ := hglobal id ty rfl
          trivial
      | undef ty => exact hnames.values _ _ hnew ty (List.mem_singleton.2 rfl)
  | @expr e v graph hexpr =>
      obtain ⟨ty, hty, hadd⟩ := Graph.addExpr_eq_ok hexpr
      obtain rfl : (f.graph.addValue (.expr e ty)).2 = graph := by rw [hadd]
      have hnamed := hnames.values _ _ (f.graph.value_nextValue (.expr e ty))
      exact hf.typed.addValue (hf.typed.resultType hnamed hty)
  | @insert loc inst ins f' hins =>
      obtain ⟨layout, graph, -, hresult, -, rfl⟩ := insert_eq_ok hins
      have hadded : (f.graph.addInst inst).2.ValuesHeld s :=
        hf.typed.congr (f.graph.values_addInst inst)
      obtain ⟨made, _, hmade, hty, ⟨-, -, rfl⟩ | ⟨ty, rfl, -, rfl⟩⟩ := Graph.addResult_eq_ok hresult
      · exact hadded
      · have hval : (Value.inst f.graph.nextInst ty).ty.Below s.size :=
          hadded.resultType (hnames.insts _ made hmade) hty
        exact (hadded.addValue hval).congr rfl
  | place hplace =>
      obtain ⟨layout, -, hrest⟩ := bind_eq_ok_iff.1 hplace
      cases pure_eq_ok_iff.1 hrest
      exact hf.typed.congr (f.graph.values_addInst _)
  | replaceInst hreplace => exact hf.typed.congr (Graph.replaceInst_frame hreplace).2.1
  | appendIncoming happend =>
      obtain ⟨_, _, -, rfl⟩ := Graph.appendIncoming_eq_ok happend
      exact hf.typed.congr rfl

/-- A pointee that an instruction fixes for its own result is one that it names. -/
theorem mem_namedTypes_of_seed {inst : Inst} {site : Site} {ty : Ty}
    (hsite : Site.ofInst inst = .ok site) (hseed : seedPointee? site = some ty) :
    ty ∈ inst.namedTypes := by
  cases inst with
  | alloca elem space =>
      cases hsite
      cases hseed
      exact List.mem_singleton.2 rfl
  | gep source result args =>
      cases args with
      | nil => cases hsite
      | cons base rest =>
          cases hsite
          simp only [seedPointee?] at hseed
          split at hseed <;> cases hseed
          exact List.mem_cons_of_mem _ (List.mem_singleton.2 rfl)
  | cast op arg target => cases op <;> cases hsite <;> cases hseed
  | _ =>
      cases hsite
      cases hseed

/-- What an instruction accesses has a type that it names, or the type of a value. -/
theorem named_or_typeOf_of_binding {g : Graph} {inst : Inst} {site : Site} {ptr : ValueId} {ty : Ty}
    (hsite : Site.ofInst inst = .ok site) (hbinding : site.binding g = .ok (some (ptr, ty))) :
    ty ∈ inst.namedTypes ∨ ∃ v, g.typeOf v = .ok ty := by
  cases inst with
  | load base elem =>
      cases hsite
      cases hbinding
      exact .inl (List.mem_singleton.2 rfl)
  | gep source result args =>
      cases args with
      | nil => cases hsite
      | cons base rest =>
          cases hsite
          cases hbinding
          exact .inl List.mem_cons_self
  | store | rmw | cmpxchg =>
      cases hsite
      obtain ⟨ty', hty, hrest⟩ := bind_eq_ok_iff.1 hbinding
      cases pure_eq_ok_iff.1 hrest
      exact .inr ⟨_, hty⟩
  | cast op arg target => cases op <;> cases hsite <;> cases hbinding
  | _ =>
      cases hsite
      cases hbinding

theorem TypesHeld.fixesPointee (h : f.TypesHeld s) {ty : Ty} (hty : f.FixesPointee ty) :
    ty.Below s.size := by
  obtain ⟨i, site, hsite, hfixes⟩ := hty
  obtain ⟨inst, hinst, hof⟩ := Graph.site_eq_ok.1 hsite
  have hnamed := h.insts i inst hinst
  rcases hfixes with hseed | ⟨ptr, hbinding⟩
  · exact hnamed ty (mem_namedTypes_of_seed hof hseed)
  · rcases named_or_typeOf_of_binding hof hbinding with hmem | ⟨v, hv⟩
    · exact hnamed ty hmem
    · exact h.typed.typeOf hv

end Function

/-- A call over types of a consistent store makes it grow into a consistent one. -/
theorem TypeCall.consistent_of_run {s t : TypeStore} {call : TypeCall} {ty : Ty}
    (hs : s.Consistent) (hparts : ∀ part ∈ call.compound.parts, part.Below s.size)
    (h : call.run s = .ok (ty, t)) : s ≤ t ∧ t.Consistent := by
  obtain ⟨heq, hfree⟩ := intern_of_run h
  obtain rfl : t = (s.intern call.compound).2 := congrArg Prod.snd heq
  exact ⟨TypeStore.le_intern s _, (hs.intern hparts hfree).1⟩

/-! ## Building a module -/

namespace Module

variable {m : Module} {d : Option Draft} {types : TypeStore}

/-- The modules under construction that name types of their own type store only, each with the
function body that is being written, if any. -/
inductive BuildingOwn : Module → Option Draft → Prop
  | start (target : Target) : BuildingOwn (.empty target) none
  | type {m : Module} {d : Option Draft} (call : TypeCall) {ty : Ty} {types : TypeStore} :
      BuildingOwn m d → (∀ part ∈ call.compound.parts, part.Below m.ctx.types.size) →
      call.run m.ctx.types = .ok (ty, types) → BuildingOwn (m.setTypes types) d
  | global {m : Module} {d : Option Draft} {global : Global} {g : GlobalId} {ctx : Context} :
      BuildingOwn m d → global.ty.Below m.ctx.types.size →
      m.ctx.addGlobal global = .ok (g, ctx) → BuildingOwn { m with ctx } d
  | declare {m : Module} {d : Option Draft} {sig : Signature} :
      BuildingOwn m d → sig.TypesHeld m.ctx.types → BuildingOwn (m.declare sig).2 d
  | define {m : Module} {f : FuncId} {d : Draft} :
      BuildingOwn m none → Draft.start m.ctx f = .ok d → BuildingOwn m (some d)
  | write {m : Module} {d d' : Draft} :
      BuildingOwn m (some d) → d.Step m.ctx d' → d'.func.NamesTypesOf m.ctx.types →
      BuildingOwn m (some d')
  | finish {m : Module} {d : Draft} : BuildingOwn m (some d) → BuildingOwn (d.finish m) none
  | drop {m : Module} {d : Draft} : BuildingOwn m (some d) → BuildingOwn m none

/-- It is a way of building, so what holds of every module that is built holds here. -/
theorem BuildingOwn.building (h : m.BuildingOwn d) : m.Building d := by
  induction h with
  | start target => exact .start target
  | type call _ _ hrun ih =>
      cases congrArg Prod.snd (TypeCall.intern_of_run hrun).1
      exact .type call.compound ih
  | global _ _ hadd ih => exact .global ih hadd
  | declare _ _ ih => exact .declare _ ih
  | define _ hbody ih => exact .define ih hbody
  | write _ hstep _ ih => exact .write ih hstep
  | finish _ ih => exact .finish ih
  | drop _ ih => exact .drop ih

/-- Everything in the module has a type of its store. -/
structure OwnsTypes (m : Module) : Prop where
  consistent : m.ctx.types.Consistent
  globals : ∀ g global, m.ctx.global g = .ok global → global.ty.Below m.ctx.types.size
  signatures : ∀ id sig, m.ctx.signature id = .ok sig → sig.TypesHeld m.ctx.types
  funcs : ∀ id f, m.func id = .ok f → f.TypesHeld m.ctx.types

namespace OwnsTypes

theorem empty (target : Target) : (Module.empty target).OwnsTypes where
  consistent := TypeStore.consistent_empty
  globals g global hg := by simp [Context.global_eq_ok, Module.empty, Context.empty] at hg
  signatures id sig hsig := by simp [Context.signature_eq_ok, Module.empty, Context.empty] at hsig
  funcs id f hf := by simp [func_eq_ok, Module.empty] at hf

theorem setTypes (h : m.OwnsTypes) (hle : m.ctx.types ≤ types) (hconsistent : types.Consistent) :
    (m.setTypes types).OwnsTypes where
  consistent := hconsistent
  globals g global hg := (h.globals g global hg).mono (TypeStore.size_le_of_le hle)
  signatures id sig hsig := (h.signatures id sig hsig).mono hle
  funcs id f hf := (h.funcs id f hf).mono hle

theorem addGlobal (h : m.OwnsTypes) {global : Global} (hty : global.ty.Below m.ctx.types.size) :
    { m with ctx := { m.ctx with globals := m.ctx.globals.push global } }.OwnsTypes := by
  refine ⟨h.consistent, fun g other hg => ?_, h.signatures, h.funcs⟩
  rw [Context.global_eq_ok, Array.getElem?_push] at hg
  split at hg
  · cases hg
    exact hty
  · exact h.globals g other (Context.global_eq_ok.2 hg)

theorem declare (h : m.OwnsTypes) {sig : Signature} (hsig : sig.TypesHeld m.ctx.types) :
    (m.declare sig).2.OwnsTypes := by
  unfold Module.declare
  split
  · exact h
  · refine ⟨h.consistent, h.globals, fun id other hother => ?_, fun id f hf => ?_⟩
    · rw [Context.signature_eq_ok, Array.getElem?_push] at hother
      split at hother
      · cases hother
        exact hsig
      · exact h.signatures id other (Context.signature_eq_ok.2 hother)
    · rw [func_eq_ok, Array.getElem?_push] at hf
      split at hf
      · cases hf
        exact Function.typesHeld_ofSignature hsig
      · exact h.funcs id f (func_eq_ok.2 hf)

theorem setFunc (h : m.OwnsTypes) {id : FuncId} {f : Function} (hf : f.TypesHeld m.ctx.types) :
    (m.setFunc id f).OwnsTypes := by
  refine ⟨h.consistent, h.globals, h.signatures, fun id' f' hf' => ?_⟩
  rcases func_of_setFunc hf' with ⟨-, rfl⟩ | hf'
  · exact hf
  · exact h.funcs id' f' hf'

theorem typesHeld (h : m.OwnsTypes) : m.TypesHeld where
  context := ⟨h.consistent, h.globals, fun id sig hsig => (h.signatures id sig hsig).samples⟩
  signatures := h.signatures
  bodies id f hf _ hty := (h.funcs id f hf).fixesPointee hty

end OwnsTypes

/-- Building over own types keeps everything typed by the store, the body at hand too. -/
theorem BuildingOwn.ownsTypes (h : m.BuildingOwn d) :
    m.OwnsTypes ∧ ∀ draft, d = some draft → draft.func.TypesHeld m.ctx.types := by
  induction h with
  | start target => exact ⟨.empty target, fun draft hd => by cases hd⟩
  | type call _ hparts hrun ih =>
      obtain ⟨hle, hconsistent⟩ := TypeCall.consistent_of_run ih.1.consistent hparts hrun
      exact ⟨ih.1.setTypes hle hconsistent, fun draft hd => (ih.2 draft hd).mono hle⟩
  | global _ hty hadd ih =>
      obtain ⟨-, rfl⟩ := Context.addGlobal_eq_ok hadd
      exact ⟨ih.1.addGlobal hty, ih.2⟩
  | @declare m d sig _ hsig ih =>
      have htypes : (m.declare sig).2.ctx.types = m.ctx.types := by
        unfold Module.declare
        split <;> rfl
      exact ⟨ih.1.declare hsig, htypes ▸ ih.2⟩
  | define _ hbody ih =>
      refine ⟨ih.1, fun draft hd => ?_⟩
      cases hd
      obtain ⟨sig, hsig, hrest⟩ := bind_eq_ok_iff.1 hbody
      cases pure_eq_ok_iff.1 hrest
      exact Function.typesHeld_ofSignature (ih.1.signatures _ sig hsig)
  | write _ hstep hnames ih =>
      refine ⟨ih.1, fun draft hd => ?_⟩
      cases hd
      exact hstep.writing.2.typesHeld (ih.2 _ rfl) hnames
  | finish _ ih => exact ⟨ih.1.setFunc (ih.2 _ rfl), fun draft hd => by cases hd⟩
  | drop _ ih => exact ⟨ih.1, fun draft hd => by cases hd⟩

/-- A module that was built over its own types has all of them in its store. -/
theorem BuildingOwn.typesHeld (h : m.BuildingOwn none) : m.TypesHeld := h.ownsTypes.1.typesHeld

end Module

end Pointee
