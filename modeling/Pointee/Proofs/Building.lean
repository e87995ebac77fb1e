import Pointee.Draft
import Pointee.Proofs.FunctionEdits

/-!
# Modules that are built

A module is built by declaring types, globals and functions, and by writing the bodies of functions
one step after another. `Draft.Step` lists the steps of writing a body, and `Module.Building` those
of building a module. Read `Draft.Step.writing` and `Module.Building.invariant` first: the one says
what a step does to the function, in the few cases of `Function.Writing`, and the other that what
all of these keep holds of every module that is built. `Module.Building.written` is the first
instance: all functions are sound and place their instructions. No step checks that the values it
names exist, so nothing is said about operands.
-/

namespace Pointee

/-! ## Writing a body -/

/-- One step of writing a function body. -/
inductive Draft.Step (ctx : Context) (d : Draft) : Draft → Prop
  | makeBlock : Step ctx d d.makeBlock.2
  | appendBlock {b : BlockId} {d' : Draft} : d.appendBlock = .ok (b, d') → Step ctx d d'
  | moveTo (loc : Location) : Step ctx d (d.moveTo loc)
  | imm (value : Immediate) : Step ctx d (d.imm value).2
  | undef (ty : Ty) : Step ctx d (d.undef ty).2
  | null (space : AddrSpace) : Step ctx d (d.null space).2
  | funcAddr (f : FuncId) : Step ctx d (d.funcAddr f).2
  | globalAddr {g : GlobalId} {v : ValueId} {d' : Draft} :
      d.globalAddr ctx g = .ok (v, d') → Step ctx d d'
  | constGep {source : Ty} {args : List ValueId} {v : ValueId} {d' : Draft} :
      d.constGep ctx source args = .ok (v, d') → Step ctx d d'
  | constCast {op : CastOp} {arg : ValueId} {ty : Ty} {v : ValueId} {d' : Draft} :
      d.constExpr (.cast op arg ty) = .ok (v, d') → Step ctx d d'
  | insert {inst : Inst} {ins : Function.Insertion} {d' : Draft} :
      d.insert inst = .ok (ins, d') → Step ctx d d'
  | define {inst : Inst} {v : ValueId} {d' : Draft} : d.define inst = .ok (v, d') → Step ctx d d'
  | emit {inst : Inst} {d' : Draft} : d.emit inst = .ok d' → Step ctx d d'
  | append {inst : Inst} {i : InstId} {d' : Draft} : d.append inst = .ok (i, d') → Step ctx d d'
  | replace {inst : Inst} {d' : Draft} : d.replace inst = .ok d' → Step ctx d d'
  | gep {source : Ty} {args : List ValueId} {v : ValueId} {d' : Draft} :
      d.gep ctx source args = .ok (v, d') → Step ctx d d'
  | call {callee : FuncId} {args : List ValueId} {v : Option ValueId} {d' : Draft} :
      d.call ctx callee args = .ok (v, d') → Step ctx d d'
  | appendIncoming {phi v : ValueId} {b : BlockId} {d' : Draft} :
      d.appendIncoming phi v b = .ok d' → Step ctx d d'

/-- What a step of writing does to the function: nothing, or it makes a block, with a place or
without, a constant, a constant expression, or an instruction, with its result or without, or it
changes an instruction. The address of a global is one of the space that the global is in. -/
inductive Function.Writing (ctx : Context) (f : Function) : Function → Prop
  | same : Writing ctx f f
  | addBlock : Writing ctx f { f with graph := f.graph.addBlock.2 }
  | appendBlock {layout : Layout} : f.layout.appendBlock f.graph.addBlock.1 = .ok layout →
      Writing ctx f { f with graph := f.graph.addBlock.2, layout }
  | constant {val : Value} : val.isShared = true →
      (∀ id ty, val = .global id ty →
        ∃ global, ctx.global id = .ok global ∧ ty = .ptr global.space) →
      Writing ctx f { f with graph := (f.graph.intern val).2 }
  | expr {e : ConstExpr} {v : ValueId} {graph : Graph} :
      f.graph.addExpr e = .ok (v, graph) → Writing ctx f { f with graph }
  | insert {loc : Location} {inst : Inst} {ins : Insertion} {f' : Function} :
      f.insert loc inst = .ok (ins, f') → Writing ctx f f'
  | place {loc : Location} {inst : Inst} {i : InstId} {f' : Function} :
      f.place loc inst = .ok (i, f') → Writing ctx f f'
  | replaceInst {i : InstId} {inst : Inst} {graph : Graph} :
      f.graph.replaceInst i inst = .ok graph → Writing ctx f { f with graph }
  | appendIncoming {i : InstId} {v : ValueId} {b : BlockId} {graph : Graph} :
      f.graph.appendIncoming i v b = .ok graph → Writing ctx f { f with graph }

namespace Draft

variable {ctx : Context} {d d' : Draft} {inst : Inst}

theorem insert_writing {ins : Function.Insertion} (h : d.insert inst = .ok (ins, d')) :
    d'.self = d.self ∧ d.func.Writing ctx d'.func := by
  obtain ⟨⟨_, func⟩, hfunc, hrest⟩ := bind_eq_ok_iff.1 h
  cases pure_eq_ok_iff.1 hrest
  exact ⟨rfl, .insert hfunc⟩

theorem define_writing {v : ValueId} (h : d.define inst = .ok (v, d')) :
    d'.self = d.self ∧ d.func.Writing ctx d'.func := by
  obtain ⟨⟨ins, mid⟩, hmid, hrest⟩ := bind_eq_ok_iff.1 h
  obtain ⟨_, _, hrest⟩ := bind_eq_ok_iff.1 hrest
  cases pure_eq_ok_iff.1 hrest
  exact insert_writing hmid

theorem constExpr_writing {e : ConstExpr} {v : ValueId} (h : d.constExpr e = .ok (v, d')) :
    d'.self = d.self ∧ d.func.Writing ctx d'.func := by
  obtain ⟨⟨_, graph⟩, hgraph, hrest⟩ := bind_eq_ok_iff.1 h
  cases pure_eq_ok_iff.1 hrest
  exact ⟨rfl, .expr hgraph⟩

/-- Every step is for the same function, and does one of the few things that can be done to it. -/
theorem Step.writing (h : d.Step ctx d') : d'.self = d.self ∧ d.func.Writing ctx d'.func := by
  cases h with
  | makeBlock => exact ⟨rfl, .addBlock⟩
  | appendBlock h =>
      obtain ⟨layout, hlayout, hrest⟩ := bind_eq_ok_iff.1 h
      cases pure_eq_ok_iff.1 hrest
      exact ⟨rfl, .appendBlock hlayout⟩
  | moveTo loc => exact ⟨rfl, .same⟩
  | imm value => exact ⟨rfl, .constant rfl (by simp)⟩
  | undef ty => exact ⟨rfl, .constant rfl (by simp)⟩
  | null space => exact ⟨rfl, .constant rfl (by simp)⟩
  | funcAddr f => exact ⟨rfl, .constant rfl (by simp)⟩
  | globalAddr h =>
      obtain ⟨global, hglobal, hrest⟩ := bind_eq_ok_iff.1 h
      cases pure_eq_ok_iff.1 hrest
      refine ⟨rfl, .constant rfl fun id ty heq => ?_⟩
      cases heq
      exact ⟨global, hglobal, rfl⟩
  | constGep h =>
      obtain ⟨result, -, hrest⟩ := bind_eq_ok_iff.1 h
      exact constExpr_writing hrest
  | constCast h => exact constExpr_writing h
  | insert h => exact insert_writing h
  | define h => exact define_writing h
  | emit h =>
      obtain ⟨⟨i, func⟩, hfunc, hrest⟩ := bind_eq_ok_iff.1 h
      cases pure_eq_ok_iff.1 hrest
      exact ⟨rfl, .place hfunc⟩
  | @append inst i d' h =>
      obtain ⟨b, -, hrest⟩ := bind_eq_ok_iff.1 h
      obtain ⟨layout, hlayout, hrest⟩ := bind_eq_ok_iff.1 hrest
      cases pure_eq_ok_iff.1 hrest
      -- Appending is placing at the bottom of the block.
      have hplace : d.func.place (.bottom b) inst = .ok (_, _) :=
        bind_eq_ok_iff.2 ⟨layout, hlayout, rfl⟩
      exact ⟨rfl, .place hplace⟩
  | replace h =>
      obtain ⟨i, -, hrest⟩ := bind_eq_ok_iff.1 h
      obtain ⟨graph, hgraph, hrest⟩ := bind_eq_ok_iff.1 hrest
      cases pure_eq_ok_iff.1 hrest
      exact ⟨rfl, .replaceInst hgraph⟩
  | gep h =>
      obtain ⟨result, -, hrest⟩ := bind_eq_ok_iff.1 h
      exact define_writing hrest
  | call h =>
      obtain ⟨sig, -, hrest⟩ := bind_eq_ok_iff.1 h
      obtain ⟨⟨ins, mid⟩, hmid, hrest⟩ := bind_eq_ok_iff.1 hrest
      cases pure_eq_ok_iff.1 hrest
      exact insert_writing hmid
  | appendIncoming h =>
      obtain ⟨val, -, hrest⟩ := bind_eq_ok_iff.1 h
      obtain ⟨i, -, hrest⟩ := bind_eq_ok_iff.1 hrest
      obtain ⟨graph, hgraph, hrest⟩ := bind_eq_ok_iff.1 hrest
      cases pure_eq_ok_iff.1 hrest
      exact ⟨rfl, .appendIncoming hgraph⟩

end Draft

/-! ## Written functions -/

/-- The values that a function starts with are its arguments. -/
theorem Function.value_ofSignature {sig : Signature} {v : ValueId} {val : Value} :
    (Function.ofSignature sig).graph.value v = .ok val ↔
      ∃ ty, sig.args[v.index]? = some ty ∧ val = .arg ty v.index := by
  rw [Graph.value_eq_ok]
  simp only [Function.ofSignature, List.getElem?_toArray, List.getElem?_mapIdx,
    Option.map_eq_some_iff]
  exact exists_congr fun ty => and_congr_right fun _ => eq_comm

namespace Function.Written

variable {f : Function}

/-- Another sound graph with as many instructions may take the place of the graph. -/
theorem withGraph (hf : f.Written) {graph : Graph} (hgraph : graph.Sound)
    (hsize : graph.insts.size = f.graph.insts.size) : { f with graph }.Written where
  graph := hgraph
  layout := hf.layout
  placed b i hi := Nat.lt_of_lt_of_eq (hf.placed b i hi) hsize.symm
  filled i hi := hf.filled i (Nat.lt_of_lt_of_eq hi hsize)

theorem ofSignature (sig : Signature) : (Function.ofSignature sig).Written where
  graph := by
    have hvalue : ∀ v val, (Function.ofSignature sig).graph.value v = .ok val →
        ∃ ty n, val = .arg ty n := by
      intro v val hv
      obtain ⟨ty, -, rfl⟩ := value_ofSignature.1 hv
      exact ⟨ty, _, rfl⟩
    have htracked : (Function.ofSignature sig).graph.Tracked := Graph.tracked_empty.congr rfl rfl
    refine ⟨?_, ?_, htracked.mem_users, htracked.users_sorted, ?_⟩
    · intro i v
      constructor
      · intro h
        simp [Graph.result?, Function.ofSignature, Graph.empty] at h
      · rintro ⟨ty, hv⟩
        obtain ⟨_, _, h⟩ := hvalue v _ hv
        cases h
    · intro v i ty hv
      obtain ⟨_, _, h⟩ := hvalue v _ hv
      cases h
    · intro v e ty hv
      obtain ⟨_, _, h⟩ := hvalue v _ hv
      cases h
  layout := Layout.sound_empty
  filled i hi := absurd hi (Nat.not_lt_zero _)
  placed b i hi := by
    have hrow : (Function.ofSignature sig).layout.instsOf b = [] := by
      show Layout.empty.instsOf b = []
      rw [Layout.empty_spells.instsOf_eq]
    rw [hrow] at hi
    exact absurd hi List.not_mem_nil

theorem place (hf : f.Written) {f' : Function} {loc : Location} {inst : Inst} {i : InstId}
    (h : f.place loc inst = .ok (i, f')) : f'.Written := by
  obtain ⟨rfl, hgraph, hf', hmem⟩ := hf.toSound.place h
  refine hf.more hf' ?_ hmem
  rw [hgraph]
  simp only [Graph.addInst, Graph.addUses_frame, Array.size_push]

end Function.Written

/-- Writing keeps the function written. -/
theorem Function.Writing.written {ctx : Context} {f f' : Function} (h : f.Writing ctx f')
    (hf : f.Written) : f'.Written := by
  cases h with
  | same => exact hf
  | addBlock => exact hf.withGraph hf.graph.addBlock rfl
  | appendBlock hlayout =>
      have hspells := Layout.Sound.appendBlock hf.layout hlayout
      refine ⟨⟨hf.graph.addBlock, hspells.sound, fun b i hi => ?_⟩, fun i hi => ?_⟩
      · rw [hspells.instsOf_eq] at hi
        exact hf.placed b i hi
      · obtain ⟨b, hb⟩ := hf.layout.mem_allInsts.1 (hf.filled i hi)
        exact hspells.sound.mem_allInsts.2 ⟨b, hspells.instsOf_eq ▸ hb⟩
  | constant hval =>
      refine hf.withGraph (hf.graph.intern hval) ?_
      unfold Graph.intern
      split <;> rfl
  | expr hexpr =>
      obtain ⟨hinsts, hsound⟩ := hf.graph.addExpr hexpr
      exact hf.withGraph hsound (congrArg Array.size hinsts)
  | insert hins =>
      obtain ⟨hsound, hsize, hmem⟩ := hf.toSound.insert hins
      exact hf.more hsound hsize hmem
  | place hplace => exact hf.place hplace
  | replaceInst hreplace =>
      obtain ⟨-, -, -, hinsts, hsound⟩ := Graph.replaceInst_eq_ok hreplace
      refine hf.withGraph (hsound hf.graph) ?_
      rw [hinsts, Array.size_setIfInBounds]
  | appendIncoming happend =>
      obtain ⟨hsize, hsound⟩ := hf.graph.appendIncoming happend
      exact hf.withGraph hsound hsize

/-! ## Building a module -/

/-- The globals and signatures of `ctx` are those of `ctx'`, which may have more of them. -/
structure Context.Grows (ctx ctx' : Context) : Prop where
  globals : ∀ id global, ctx.global id = .ok global → ctx'.global id = .ok global
  signatures : ∀ id sig, ctx.signature id = .ok sig → ctx'.signature id = .ok sig

namespace Context

variable {ctx ctx' : Context}

theorem signature_eq_ok {id : FuncId} {sig : Signature} :
    ctx.signature id = .ok sig ↔ ctx.signatures[id.index]? = some sig := require_eq_ok_iff

theorem global_eq_ok {id : GlobalId} {global : Global} :
    ctx.global id = .ok global ↔ ctx.globals[id.index]? = some global := require_eq_ok_iff

theorem addGlobal_eq_ok {global : Global} {g : GlobalId}
    (h : ctx.addGlobal global = .ok (g, ctx')) :
    ctx.globalNamed? global.symbol = none ∧
      ctx' = { ctx with globals := ctx.globals.push global } := by
  unfold addGlobal at h
  split at h
  · cases h
  · next hnew =>
      cases h
      exact ⟨by simpa using hnew, rfl⟩

theorem grows_addGlobal {global : Global} {g : GlobalId}
    (h : ctx.addGlobal global = .ok (g, ctx')) : ctx.Grows ctx' := by
  obtain ⟨-, rfl⟩ := addGlobal_eq_ok h
  refine ⟨fun id old hold => ?_, fun _ _ hsig => hsig⟩
  rw [global_eq_ok] at hold ⊢
  have hlt := (Array.getElem?_eq_some_iff.1 hold).1
  rw [Array.getElem?_push_lt hlt, ← hold, Array.getElem?_eq_getElem hlt]

theorem grows_declare (ctx : Context) (sig : Signature) :
    ctx.Grows { ctx with signatures := ctx.signatures.push sig } := by
  refine ⟨fun _ _ hglobal => hglobal, fun id old hold => ?_⟩
  rw [signature_eq_ok] at hold ⊢
  have hlt := (Array.getElem?_eq_some_iff.1 hold).1
  rw [Array.getElem?_push_lt hlt, ← hold, Array.getElem?_eq_getElem hlt]

end Context

namespace Module

/-- The modules under construction, each with the function body that is being written, if any. -/
inductive Building : Module → Option Draft → Prop
  | start (target : Target) : Building (.empty target) none
  | type {m : Module} {d : Option Draft} (c : Compound) :
      Building m d → Building (m.setTypes (m.ctx.types.intern c).2) d
  | struct {m : Module} {d : Option Draft} {name : String} {fields : List Ty} {packed : Bool}
      {ty : Ty} {types : TypeStore} : Building m d →
      m.ctx.types.declareStruct name fields packed = .ok (ty, types) → Building (m.setTypes types) d
  | global {m : Module} {d : Option Draft} {global : Global} {g : GlobalId} {ctx : Context} :
      Building m d → m.ctx.addGlobal global = .ok (g, ctx) → Building { m with ctx } d
  | declare {m : Module} {d : Option Draft} (sig : Signature) :
      Building m d → Building (m.declare sig).2 d
  | define {m : Module} {f : FuncId} {d : Draft} :
      Building m none → Draft.start m.ctx f = .ok d → Building m (some d)
  | write {m : Module} {d d' : Draft} :
      Building m (some d) → d.Step m.ctx d' → Building m (some d')
  | finish {m : Module} {d : Draft} : Building m (some d) → Building (d.finish m) none
  | drop {m : Module} {d : Draft} : Building m (some d) → Building m none

/-- The module is the outcome of a sequence of building steps. -/
def Built (m : Module) : Prop := m.Building none

/-- All functions of the module are written. -/
def Written (m : Module) : Prop := ∀ f func, m.func f = .ok func → func.Written

theorem func_eq_ok {m : Module} {f : FuncId} {func : Function} :
    m.func f = .ok func ↔ m.funcs[f.index]? = some func := require_eq_ok_iff

/-- A function stands in the list at its index. -/
theorem getElem?_funcList {m : Module} {n : Nat} {f : FuncId} {func : Function} :
    m.funcList[n]? = some (f, func) ↔ n = f.index ∧ m.func f = .ok func := by
  rw [func_eq_ok, funcList, List.getElem?_map, List.getElem?_zipIdx, Option.map_map,
    Option.map_eq_some_iff, Array.getElem?_toList]
  constructor
  · rintro ⟨func', hfunc, heq⟩
    cases heq
    exact ⟨(Nat.zero_add n).symm, (Nat.zero_add n).symm ▸ hfunc⟩
  · rintro ⟨rfl, hfunc⟩
    exact ⟨func, hfunc, congrArg (fun n => (FuncId.mk n, func)) (Nat.zero_add _)⟩

theorem mem_funcList {m : Module} {f : FuncId} {func : Function} :
    (f, func) ∈ m.funcList ↔ m.func f = .ok func := by
  rw [List.mem_iff_getElem?]
  constructor
  · rintro ⟨n, hn⟩
    exact (getElem?_funcList.1 hn).2
  · intro hfunc
    exact ⟨f.index, getElem?_funcList.2 ⟨rfl, hfunc⟩⟩

theorem mem_funcIds {m : Module} {f : FuncId} {func : Function} (h : m.func f = .ok func) :
    f ∈ m.funcIds := by
  have hlt := (Array.getElem?_eq_some_iff.1 (func_eq_ok.1 h)).1
  exact List.mem_map.2 ⟨f.index, List.mem_range.2 hlt, rfl⟩

theorem exists_func_of_mem {m : Module} {f : FuncId} (h : f ∈ m.funcIds) :
    ∃ func, m.func f = .ok func := by
  obtain ⟨n, hn, rfl⟩ := List.mem_map.1 h
  exact ⟨_, func_eq_ok.2 (Array.getElem?_eq_getElem (List.mem_range.1 hn))⟩

theorem nodup_funcIds (m : Module) : m.funcIds.Nodup :=
  List.nodup_range.map fun _ _ heq => congrArg FuncId.index heq

theorem map_fst_funcList (m : Module) : m.funcList.map Prod.fst = m.funcIds := by
  rw [funcList, funcIds, List.map_map]
  show m.funcs.toList.zipIdx.map (FuncId.mk ∘ Prod.snd) = _
  rw [← List.map_map, List.zipIdx_map_snd, Array.length_toList, List.range_eq_range']

/-- Putting a function into a module changes that function and no other. -/
theorem func_setFunc {m : Module} {f : FuncId} {func : Function} (hf : f.index < m.funcs.size)
    (id : FuncId) : (m.setFunc f func).func id = if id = f then .ok func else m.func id := by
  simp only [Module.func, setFunc, Array.getElem?_setIfInBounds, FuncId.ext_iff]
  split
  · next h => rw [if_pos h.symm, require_some]
  · next h => rw [if_neg (Ne.symm h)]

theorem func_of_setFunc {m : Module} {id id' : FuncId} {f g : Function}
    (h : (m.setFunc id' g).func id = .ok f) : id = id' ∧ f = g ∨ m.func id = .ok f := by
  by_cases hlt : id'.index < m.funcs.size
  · rw [func_setFunc hlt] at h
    split at h
    · next heq => exact .inl ⟨heq, (Except.ok.inj h).symm⟩
    · exact .inr h
  · have hsame : (m.setFunc id' g).funcs = m.funcs :=
      Array.setIfInBounds_eq_of_size_le (Nat.le_of_not_lt hlt)
    rw [func_eq_ok, hsame] at h
    exact .inr (func_eq_ok.2 h)

/-- There is a function for each signature. -/
theorem Building.size_eq {m : Module} {d : Option Draft} (h : m.Building d) :
    m.funcs.size = m.ctx.signatures.size := by
  induction h with
  | start target => rfl
  | type _ _ ih | struct _ _ ih | define _ _ ih | write _ _ ih | drop _ ih => exact ih
  | global _ hadd ih =>
      obtain ⟨-, rfl⟩ := Context.addGlobal_eq_ok hadd
      exact ih
  | declare sig _ ih =>
      unfold Module.declare
      split
      · exact ih
      · simp [ih]
  | finish _ ih => exact (Array.size_setIfInBounds ..).trans ih

/-- What holds of a function without a body, and is kept by writing and by declarations, holds of
all functions of a module under construction, and of the body at hand. -/
theorem Building.invariant {P : Context → FuncId → Function → Prop} {m : Module} {d : Option Draft}
    (h : m.Building d) (hctx : ∀ ctx ctx' id f, ctx.Grows ctx' → P ctx id f → P ctx' id f)
    (hstart : ∀ ctx id sig, ctx.signature id = .ok sig → P ctx id (.ofSignature sig))
    (hwrite : ∀ ctx (d d' : Draft), d.Step ctx d' → P ctx d.self d.func → P ctx d.self d'.func) :
    (∀ id f, m.func id = .ok f → P m.ctx id f) ∧
      ∀ draft, d = some draft → P m.ctx draft.self draft.func := by
  induction h with
  | start target =>
      refine ⟨fun id f hf => ?_, fun draft hd => by cases hd⟩
      rw [func_eq_ok] at hf
      simp [Module.empty] at hf
  | @type m _ _ _ ih | @struct m _ _ _ _ _ _ _ _ ih =>
      have hgrows : ∀ types, m.ctx.Grows { m.ctx with types } :=
        fun _ => ⟨fun _ _ h => h, fun _ _ h => h⟩
      exact ⟨fun id f hf => hctx _ _ _ _ (hgrows _) (ih.1 id f hf),
        fun draft hd => hctx _ _ _ _ (hgrows _) (ih.2 draft hd)⟩
  | global _ hadd ih =>
      have hgrows := Context.grows_addGlobal hadd
      exact ⟨fun id f hf => hctx _ _ _ _ hgrows (ih.1 id f hf),
        fun draft hd => hctx _ _ _ _ hgrows (ih.2 draft hd)⟩
  | @declare m d sig hm ih =>
      unfold Module.declare
      split
      · exact ih
      · have hgrows := m.ctx.grows_declare sig
        refine ⟨fun id f hf => ?_, fun draft hd => hctx _ _ _ _ hgrows (ih.2 draft hd)⟩
        rw [func_eq_ok] at hf
        simp only [Array.getElem?_push] at hf
        split at hf
        · -- The new function and the new signature are the last ones.
          next hid =>
            cases hf
            refine hstart _ id sig (Context.signature_eq_ok.2 ?_)
            simp [hid, hm.size_eq]
        · exact hctx _ _ _ _ hgrows (ih.1 id f (func_eq_ok.2 hf))
  | define _ hbody ih =>
      refine ⟨ih.1, fun draft hd => ?_⟩
      cases hd
      obtain ⟨sig, hsig, hrest⟩ := bind_eq_ok_iff.1 hbody
      cases pure_eq_ok_iff.1 hrest
      exact hstart _ _ sig hsig
  | write _ hstep ih =>
      refine ⟨ih.1, fun draft hd => ?_⟩
      cases hd
      rw [hstep.writing.1]
      exact hwrite _ _ _ hstep (ih.2 _ rfl)
  | finish _ ih =>
      refine ⟨fun id f hf => ?_, fun draft hd => by cases hd⟩
      rcases func_of_setFunc hf with ⟨rfl, rfl⟩ | hf
      · exact ih.2 _ rfl
      · exact ih.1 id f hf
  | drop _ ih => exact ⟨ih.1, fun draft hd => by cases hd⟩

/-- A module under construction has written functions, and so is the body at hand. -/
theorem Building.written {m : Module} {d : Option Draft} (h : m.Building d) :
    m.Written ∧ ∀ draft, d = some draft → draft.func.Written :=
  h.invariant (P := fun _ _ f => f.Written) (fun _ _ _ _ _ hf => hf)
    (fun _ _ sig _ => .ofSignature sig) fun _ _ _ hstep hf => hstep.writing.2.written hf

theorem Built.written {m : Module} (hm : m.Built) {id : FuncId} {f : Function}
    (hf : m.func id = .ok f) : f.Written := (Building.written hm).1 id f hf

theorem Built.sound {m : Module} (hm : m.Built) {id : FuncId} {f : Function}
    (hf : m.func id = .ok f) : f.Sound := (hm.written hf).toSound

end Module

/-! ## Modules of one block -/

/-- What can be written into a block: a constant or an instruction. -/
inductive Item where
  | null (space : AddrSpace)
  | globalAddr (g : GlobalId)
  | funcAddr (f : FuncId)
  | constGep (source : Ty) (args : List ValueId)
  | constCast (op : CastOp) (arg : ValueId) (ty : Ty)
  | inst (inst : Inst)

/-- Writes one item. -/
def Draft.write (ctx : Context) (d : Draft) : Item → Except Fault Draft
  | .null space => .ok (d.null space).2
  | .globalAddr g => Prod.snd <$> d.globalAddr ctx g
  | .funcAddr f => .ok (d.funcAddr f).2
  | .constGep source args => Prod.snd <$> d.constGep ctx source args
  | .constCast op arg ty => Prod.snd <$> d.constExpr (.cast op arg ty)
  | .inst inst => Prod.snd <$> d.insert inst

theorem Draft.step_of_write {ctx : Context} {d d' : Draft} {item : Item}
    (h : d.write ctx item = .ok d') : d.Step ctx d' := by
  cases item with
  | null space => cases h; exact .null space
  | globalAddr g =>
      obtain ⟨⟨v, d''⟩, hd, rfl⟩ := map_eq_ok_iff.1 h
      exact .globalAddr hd
  | funcAddr f => cases h; exact .funcAddr f
  | constGep source args =>
      obtain ⟨⟨v, d''⟩, hd, rfl⟩ := map_eq_ok_iff.1 h
      exact .constGep hd
  | constCast op arg ty =>
      obtain ⟨⟨v, d''⟩, hd, rfl⟩ := map_eq_ok_iff.1 h
      exact .constCast hd
  | inst inst =>
      obtain ⟨⟨ins, d''⟩, hd, rfl⟩ := map_eq_ok_iff.1 h
      exact .insert hd

theorem Module.building_declare {m : Module} (hm : m.Building none) (sigs : List Signature) :
    (sigs.foldl (fun m sig => (m.declare sig).2) m).Building none := by
  induction sigs generalizing m with
  | nil => exact hm
  | cons sig sigs ih => exact ih (.declare sig hm)

namespace Module

/-- The module with the items written into the only block of the function `f`. -/
def writeBody (m : Module) (f : FuncId) (items : List Item) : Except Fault Module := do
  let d ← Draft.start m.ctx f
  let (b, d) ← d.appendBlock
  let d ← items.foldlM (Draft.write m.ctx) (d.switchTo b)
  return d.finish m

theorem Built.writeBody {m m' : Module} {f : FuncId} {items : List Item} (hm : m.Built)
    (h : m.writeBody f items = .ok m') : m'.Built := by
  obtain ⟨d, hd, hrest⟩ := bind_eq_ok_iff.1 h
  obtain ⟨⟨b, d₁⟩, hb, hrest⟩ := bind_eq_ok_iff.1 hrest
  obtain ⟨d₂, hloop, hrest⟩ := bind_eq_ok_iff.1 hrest
  cases pure_eq_ok_iff.1 hrest
  refine .finish (foldlM_invariant (P := fun d => Building _ (some d)) ?_ ?_ hloop)
  · exact fun d d' item _ hd hstep => .write hd (Draft.step_of_write hstep)
  · exact .write (.write (.define hm hd) (.appendBlock hb)) (.moveTo _)

/-- A module with the given globals and signatures. The items are written into the only block of the
first function. -/
def ofItems (target : Target) (globals : List Global) (sigs : List Signature) (items : List Item) :
    Except Fault Module := do
  let m ← globals.foldlM (fun m global => do
    let (_, ctx) ← m.ctx.addGlobal global
    return { m with ctx }) (Module.empty target)
  let m := sigs.foldl (fun m sig => (m.declare sig).2) m
  let d ← Draft.start m.ctx ⟨0⟩
  let (b, d) ← d.appendBlock
  let d ← items.foldlM (Draft.write m.ctx) (d.switchTo b)
  return d.finish m

theorem built_of_ofItems {target : Target} {globals : List Global} {sigs : List Signature}
    {items : List Item} {m : Module} (h : ofItems target globals sigs items = .ok m) : m.Built := by
  obtain ⟨m₁, hglobals, hbody⟩ := bind_eq_ok_iff.1 h
  have hm₁ : m₁.Building none := by
    refine foldlM_invariant (P := fun m => m.Building none) ?_ (.start target) hglobals
    intro m m' global _ hm hstep
    obtain ⟨⟨g, ctx⟩, hctx, hrest⟩ := bind_eq_ok_iff.1 hstep
    cases pure_eq_ok_iff.1 hrest
    exact .global hm hctx
  exact Built.writeBody (building_declare hm₁ sigs) hbody

/-- A module of one function that has the given instructions in its only block. -/
def ofInsts (target : Target) (sig : Signature) (insts : List Inst) : Except Fault Module :=
  ofItems target [] [sig] (insts.map .inst)

end Module

end Pointee
