import Pointee.Proofs.DemotionSteps
import Pointee.Proofs.MarkingSteps

/-!
# Functions and their declarations

Every function of a module that is built has the arguments that its signature declares, by
`Module.Built.implemented`: writing a body and the passes only add values, so the argument values
stay the ones that a function starts with.
-/

namespace Pointee

namespace Graph

variable {g g' : Graph} {i : InstId} {v : ValueId}

theorem keeps_of_values (h : g'.values = g.values) : g.Keeps g' := by
  intro v val hv
  rw [value_eq_ok] at hv ⊢
  rw [h, hv]

theorem keeps_intern (g : Graph) (val : Value) : g.Keeps (g.intern val).2 := by
  unfold intern
  split
  · exact Keeps.refl g
  · exact keeps_addValue g val

theorem keeps_addExpr {e : ConstExpr} (h : g.addExpr e = .ok (v, g')) : g.Keeps g' := by
  obtain ⟨ty, -, hadd⟩ := addExpr_eq_ok h
  obtain rfl : (g.addValue (.expr e ty)).2 = g' := by rw [hadd]
  exact keeps_addValue g _

theorem keeps_addInst (g : Graph) (inst : Inst) : g.Keeps (g.addInst inst).2 :=
  keeps_of_values (g.values_addInst inst)

theorem keeps_addResult {r : Option ValueId} (h : g.addResult i = .ok (r, g')) : g.Keeps g' := by
  obtain ⟨_, _, -, -, ⟨-, -, rfl⟩ | ⟨ty, -, -, rfl⟩⟩ := addResult_eq_ok h
  · exact Keeps.refl _
  · exact keeps_addValue g (.inst i ty)

theorem keeps_appendIncoming {b : BlockId} (h : g.appendIncoming i v b = .ok g') :
    g.Keeps g' := by
  obtain ⟨inst, -, hrest⟩ := bind_eq_ok_iff.1 h
  cases inst with
  | phi ty incoming =>
      cases pure_eq_ok_iff.1 hrest
      exact keeps_of_values rfl
  | _ => cases hrest

end Graph

/-! ## Writing a body -/

namespace Function

variable {f f' : Function}

/-- The function still has its arguments, and its values are what they were. -/
structure Retains (f f' : Function) : Prop where
  args : f'.args = f.args
  keeps : f.graph.Keeps f'.graph

theorem Extends.retains (h : f.Extends f') : f.Retains f' := ⟨h.args, h.keeps⟩

theorem place_retains {loc : Location} {inst : Inst} {i : InstId}
    (h : f.place loc inst = .ok (i, f')) : f.Retains f' := by
  obtain ⟨layout, -, hrest⟩ := bind_eq_ok_iff.1 h
  cases pure_eq_ok_iff.1 hrest
  exact ⟨rfl, f.graph.keeps_addInst inst⟩

theorem insert_retains {loc : Location} {inst : Inst} {ins : Insertion}
    (h : f.insert loc inst = .ok (ins, f')) : f.Retains f' := by
  obtain ⟨⟨i, mid⟩, hplace, hrest⟩ := bind_eq_ok_iff.1 h
  obtain ⟨⟨r, graph⟩, hresult, hrest⟩ := bind_eq_ok_iff.1 hrest
  cases pure_eq_ok_iff.1 hrest
  have hmid := place_retains hplace
  exact ⟨hmid.args, hmid.keeps.trans (Graph.keeps_addResult hresult)⟩

/-- Writing keeps the values of a function. -/
theorem Writing.retains {ctx : Context} (h : f.Writing ctx f') : f.Retains f' := by
  cases h with
  | same => exact ⟨rfl, Graph.Keeps.refl _⟩
  | addBlock | appendBlock => exact ⟨rfl, Graph.keeps_of_values rfl⟩
  | constant => exact ⟨rfl, f.graph.keeps_intern _⟩
  | expr hexpr => exact ⟨rfl, Graph.keeps_addExpr hexpr⟩
  | insert hins => exact insert_retains hins
  | place hplace => exact place_retains hplace
  | replaceInst hreplace =>
      exact ⟨rfl, Graph.keeps_of_values (Graph.replaceInst_eq_ok hreplace).2.1⟩
  | appendIncoming happend => exact ⟨rfl, Graph.keeps_appendIncoming happend⟩

end Function

/-! ## Building a module -/

/-- The function has the arguments that the signature declares. -/
structure Function.Implements (f : Function) (sig : Signature) : Prop where
  args : f.args = (List.range sig.args.length).map ValueId.mk
  value : ∀ i ty, sig.args[i]? = some ty → f.graph.value ⟨i⟩ = .ok (.arg ty i)

namespace Function.Implements

variable {f f' : Function} {sig : Signature}

theorem ofSignature (sig : Signature) : (Function.ofSignature sig).Implements sig :=
  ⟨rfl, fun _ ty hty => value_ofSignature.2 ⟨ty, hty, rfl⟩⟩

theorem retains (h : f.Implements sig) (hf : f.Retains f') : f'.Implements sig :=
  ⟨hf.args.trans h.args, fun i ty hty => hf.keeps _ _ (h.value i ty hty)⟩

/-- Every declared argument is a value of the function. -/
theorem exists_arg (h : f.Implements sig) {i : Nat} {ty : Ty} (hty : sig.args[i]? = some ty) :
    f.args[i]? = some ⟨i⟩ := by
  have hlt : i < sig.args.length := (List.getElem?_eq_some_iff.1 hty).1
  rw [h.args]
  simp [hlt]

theorem nodup_args (h : f.Implements sig) : f.args.Nodup := by
  rw [h.args]
  exact List.nodup_range.map fun _ _ heq => congrArg ValueId.index heq

end Function.Implements

namespace Module

variable {m m' : Module} {d : Option Draft}

/-- Every function of the module has the arguments that it is declared with. -/
def Implemented (m : Module) : Prop := ∀ id f, m.func id = .ok f →
  ∃ sig, m.ctx.signature id = .ok sig ∧ f.Implements sig

theorem Built.implemented (hm : m.Built) : m.Implemented := by
  refine (Building.invariant (P := fun ctx id f => ∃ sig, ctx.signature id = .ok sig ∧
    f.Implements sig) hm ?_ ?_ ?_).1
  · rintro ctx ctx' id f hgrows ⟨sig, hsig, himplements⟩
    exact ⟨sig, hgrows.signatures id sig hsig, himplements⟩
  · intro ctx id sig hsig
    exact ⟨sig, hsig, .ofSignature sig⟩
  · rintro ctx d d' hstep ⟨sig, hsig, himplements⟩
    exact ⟨sig, hsig, himplements.retains hstep.writing.2.retains⟩

/-- No two globals have the same symbol. -/
theorem Building.nodup_symbols (h : m.Building d) :
    (m.ctx.globals.toList.map (·.symbol)).Nodup := by
  induction h with
  | start target => exact List.nodup_nil
  | type c _ ih => exact ih
  | struct _ _ ih => exact ih
  | @global m d global g ctx _ hadd ih =>
      obtain ⟨hnew, rfl⟩ := Context.addGlobal_eq_ok hadd
      have hfresh : global.symbol ∉ m.ctx.globals.toList.map (·.symbol) := by
        intro hmem
        obtain ⟨other, hother, hsymbol⟩ := List.mem_map.1 hmem
        rw [Context.globalNamed?, Option.map_eq_none_iff, List.findIdx?_eq_none_iff] at hnew
        simpa [hsymbol] using hnew other hother
      rw [Array.toList_push, List.map_append, List.map_singleton, ← List.concat_eq_append]
      exact ih.concat hfresh
  | declare sig _ ih =>
      unfold Module.declare
      split <;> exact ih
  | define _ _ ih => exact ih
  | write _ _ ih => exact ih
  | finish _ ih => exact ih
  | drop _ ih => exact ih

/-! ## Passes -/

/-- Demotion goes through the functions, and changes nothing else. -/
theorem demote_eq_ok {changed : Bool} (h : m.demote = .ok (changed, m')) :
    m'.ctx = m.ctx ∧ m'.funcs.size = m.funcs.size ∧ ∀ id f', m'.func id = .ok f' →
      ∃ f changed, m.func id = .ok f ∧ f.demote = .ok (changed, f') := by
  obtain ⟨results, hresults, hrest⟩ := bind_eq_ok_iff.1 h
  cases pure_eq_ok_iff.1 hrest
  obtain ⟨hlength, hdemote⟩ := List.forall₂_iff_get.1 (mapM_eq_ok_iff.1 hresults)
  rw [Array.length_toList] at hlength
  refine ⟨rfl, by simpa using hlength.symm, fun id f' hf' => ?_⟩
  rw [func_eq_ok, List.getElem?_toArray, List.getElem?_map, Option.map_eq_some_iff] at hf'
  obtain ⟨⟨c, _⟩, hr, rfl⟩ := hf'
  obtain ⟨hid, hr⟩ := List.getElem?_eq_some_iff.1 hr
  have hid' : id.index < m.funcs.size := by rwa [hlength]
  refine ⟨m.funcs[id.index], c, func_eq_ok.2 (Array.getElem?_eq_getElem hid'), ?_⟩
  have hrun := hdemote id.index (by rwa [Array.length_toList]) hid
  rwa [List.get_eq_getElem, List.get_eq_getElem, Array.getElem_toList, hr] at hrun

/-- Marking changes nothing that functions share but the type store. -/
theorem mark_ctx {r : Except Refusal Bool} (h : mark.exec m = .ok (r, m')) :
    ∃ types, m'.ctx = { m.ctx with types } := by
  have hround : ∀ f, Pass.Preserves (fun m' => ∃ types, m'.ctx = { m.ctx with types })
      (markFunction f) := by
    rintro f m₁ r m₂ ⟨types, hctx⟩ hrun
    obtain ⟨func, -, hrest⟩ := bind_eq_ok_iff.1 hrun
    obtain ⟨⟨r', t⟩, -, hrest⟩ := bind_eq_ok_iff.1 hrest
    cases pure_eq_ok_iff.1 hrest
    exact ⟨t.types, by rw [setFunc, setTypes, hctx]⟩
  have hrun : Pass.Preserves (fun m' => ∃ types, m'.ctx = { m.ctx with types }) mark := by
    refine .get_bind fun m₁ => ?_
    exact Pass.Preserves.bind (.foldlM (fun count f _ => (hround f).bind fun n => .pure _) 0)
      (fun count => .pure _) m₁
  exact hrun m r m' ⟨m.ctx.types, rfl⟩ h

/-- Demotion extends the functions of a module that was built. -/
theorem Built.demoted (hm : m.Built) {demoted : Bool} (hdemote : m.demote = .ok (demoted, m'))
    {id : FuncId} {f : Function} (hf : m'.func id = .ok f) :
    ∃ f₀, m.func id = .ok f₀ ∧ f₀.Extends f ∧ f.Sound := by
  obtain ⟨f₀, changed, hf₀, hrun⟩ := (demote_eq_ok hdemote).2.2 id f hf
  obtain ⟨hext, hsound, -⟩ := ((hm.sound hf₀).demote_demoted hrun).invariant
    (P := fun _ => True) (hm.sound hf₀) trivial fun _ _ _ _ _ _ => trivial
  exact ⟨f₀, hf₀, hext, hsound⟩

/-- After demotion and marking, functions still have the arguments that they are declared with. -/
theorem Built.marked_implemented (hm : m.Built) {demoted : Bool} {flat : Module}
    {r : Except Refusal Bool} (hdemote : m.demote = .ok (demoted, flat))
    (hmark : mark.exec flat = .ok (r, m')) :
    m'.Implemented ∧ ∀ id f, m'.func id = .ok f → f.Sound := by
  obtain ⟨hctx, -⟩ := demote_eq_ok hdemote
  obtain ⟨types, hctx'⟩ := mark_ctx hmark
  obtain ⟨hsize, hmarked⟩ := mark_eq_ok hmark
  have hfunc : ∀ id f, m'.func id = .ok f →
      ∃ f₀, m.func id = .ok f₀ ∧ f₀.Extends f ∧ f.Sound := by
    intro id f hf
    have hlt : id.index < flat.funcs.size := by
      rw [← hsize]
      exact (Array.getElem?_eq_some_iff.1 (func_eq_ok.1 hf)).1
    have hflat : flat.func id = .ok flat.funcs[id.index] :=
      func_eq_ok.2 (Array.getElem?_eq_getElem hlt)
    obtain ⟨f₀, hf₀, hext, hsound⟩ := hm.demoted hdemote hflat
    obtain ⟨f', hf', hout⟩ := hmarked id _ hflat
    cases hf.symm.trans hf'
    obtain ⟨hext', hsound'⟩ := (hout.marked hsound).keeps hsound
    exact ⟨f₀, hf₀, hext.trans hext', hsound'⟩
  refine ⟨fun id f hf => ?_, fun id f hf => ?_⟩
  · obtain ⟨f₀, hf₀, hext, -⟩ := hfunc id f hf
    obtain ⟨sig, hsig, himplements⟩ := hm.implemented id f₀ hf₀
    refine ⟨sig, ?_, himplements.retains hext.retains⟩
    rw [hctx', hctx]
    exact hsig
  · obtain ⟨_, -, -, hsound⟩ := hfunc id f hf
    exact hsound

end Module

end Pointee
