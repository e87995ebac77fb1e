import Pointee.Proofs.Rewriting

/-!
# Exact use tracking

The graph records the consumers of each value beside the instructions, and every operation has to
keep the two in step. `Graph.Operation` lists the operations that make values and instructions and
change them, with no condition on the operands that are named. `Graph.users_are_consumers` says that
the records are exact in every graph that arises from them, and so in every body that is written
step by step and in every function that passes have rewritten since.
-/

namespace Pointee

/-! ## Operations on a graph -/

namespace Graph

variable {g g' : Graph} {i : InstId} {v : ValueId} {inst : Inst}

/-- One operation on a graph. The values that it names need not exist. -/
inductive Operation (g : Graph) : Graph → Prop
  | addBlock : Operation g g.addBlock.2
  | addValue (value : Value) : Operation g (g.addValue value).2
  | intern (value : Value) : Operation g (g.intern value).2
  | addExpr {e : ConstExpr} {v : ValueId} {g' : Graph} : g.addExpr e = .ok (v, g') → Operation g g'
  | addInst (inst : Inst) : Operation g (g.addInst inst).2
  | addResult {i : InstId} {v : Option ValueId} {g' : Graph} :
      g.addResult i = .ok (v, g') → Operation g g'
  | setOperand {i : InstId} {slot : Nat} {v : ValueId} {g' : Graph} :
      g.setOperand i slot v = .ok g' → Operation g g'
  | replaceInst {i : InstId} {inst : Inst} {g' : Graph} :
      g.replaceInst i inst = .ok g' → Operation g g'
  | appendIncoming {i : InstId} {v : ValueId} {b : BlockId} {g' : Graph} :
      g.appendIncoming i v b = .ok g' → Operation g g'

theorem Operation.tracked (h : g.Operation g') (hg : g.Tracked) : g'.Tracked := by
  cases h with
  | addBlock => exact hg.congr rfl rfl
  | addValue value => exact hg.congr rfl rfl
  | intern value =>
      unfold Graph.intern
      split
      · exact hg
      · exact hg.congr rfl rfl
  | addExpr h =>
      obtain ⟨ty, -, hadd⟩ := addExpr_eq_ok h
      cases hadd
      exact hg.congr rfl rfl
  | addInst inst => exact hg.addInst inst
  | addResult h =>
      obtain ⟨inst, ty, -, -, ⟨-, -, rfl⟩ | ⟨t, -, -, rfl⟩⟩ := addResult_eq_ok h
      · exact hg
      · exact hg.congr rfl rfl
  | setOperand h => exact hg.setOperand h
  | replaceInst h => exact hg.replaceInst h
  | appendIncoming h => exact hg.appendIncoming h

/-! ## Counting consumers -/

/-- The instructions that have `v` as an operand, read off the instructions. -/
def consumers (g : Graph) (v : ValueId) : List InstId :=
  (g.insts.toList.zipIdx.filter fun (inst, _) => v ∈ inst.operands).map fun (_, n) => ⟨n⟩

theorem mem_consumers : i ∈ g.consumers v ↔ ∃ inst, g.inst i = .ok inst ∧ v ∈ inst.operands := by
  simp only [consumers, List.mem_map, List.mem_filter, decide_eq_true_eq, inst_eq_ok]
  constructor
  · rintro ⟨⟨inst, n⟩, ⟨hmem, hv⟩, rfl⟩
    refine ⟨inst, ?_, hv⟩
    simpa using List.mem_zipIdx_iff_getElem?.1 hmem
  · rintro ⟨inst, hinst, hv⟩
    refine ⟨(inst, i.index), ⟨List.mem_zipIdx_iff_getElem?.2 ?_, hv⟩, rfl⟩
    simpa using hinst

theorem nodup_consumers (g : Graph) (v : ValueId) : (g.consumers v).Nodup := by
  have hindices : (g.insts.toList.zipIdx.map Prod.snd).Nodup := by
    rw [List.zipIdx_map_snd]
    exact List.nodup_range'
  refine List.Nodup.map_on ?_ (hindices.of_map.filter _)
  intro x hx y hy heq
  -- An instruction id determines the place in the list.
  have hplace : x.2 = y.2 := congrArg InstId.index heq
  exact List.inj_on_of_nodup_map hindices (List.mem_of_mem_filter hx) (List.mem_of_mem_filter hy)
    hplace

theorem length_consumers (g : Graph) (v : ValueId) :
    (g.consumers v).length = g.insts.toList.countP (v ∈ ·.operands) := by
  calc (g.consumers v).length
      = g.insts.toList.zipIdx.countP ((v ∈ ·.operands) ∘ Prod.fst) := by
        rw [consumers, List.length_map, List.countP_eq_length_filter]
        rfl
    _ = (g.insts.toList.zipIdx.map Prod.fst).countP (v ∈ ·.operands) := List.countP_map.symm
    _ = g.insts.toList.countP (v ∈ ·.operands) := by rw [List.zipIdx_map_fst]

/-- The consumers on record are as many as the instructions that have the value as an operand. -/
theorem Tracked.length_usersOf (hg : g.Tracked) (v : ValueId) :
    (g.usersOf v).length = g.insts.toList.countP (v ∈ ·.operands) := by
  have hnodup : (g.usersOf v).Nodup :=
    (hg.users_sorted v).imp fun hlt heq => absurd (congrArg InstId.index heq) (Nat.ne_of_lt hlt)
  have hperm : (g.usersOf v).Perm (g.consumers v) := by
    rw [List.perm_ext_iff_of_nodup hnodup (g.nodup_consumers v)]
    intro i
    rw [hg.mem_users, mem_consumers]
  rw [hperm.length_eq, length_consumers]

end Graph

/-! ## Passes over a module -/

namespace Function

variable {f f' : Function}

theorem Rewritten.sound (h : f.Rewritten f') (hf : f.Sound) : f'.Sound := by
  cases h with
  | demoted hrun => exact hrun.sound hf
  | marked hrun => exact (hrun.keeps hf).2
  | patched hrun => exact hrun.sound hf

end Function

namespace Module

variable {m m' : Module}

/-- A pass makes no function and removes none. -/
theorem Rewrite.size_eq (h : m.Rewrite m') : m'.funcs.size = m.funcs.size := by
  cases h with
  | demote => exact Array.size_setIfInBounds
  | mark hmark => exact (mark_eq_ok hmark).1
  | patch hpatch => exact (patch_eq_ok hpatch).1

/-- A pass over a module of sound functions leaves sound functions. -/
theorem Rewrite.sound (h : m.Rewrite m') (hm : ∀ id f, m.func id = .ok f → f.Sound) {id : FuncId}
    {f' : Function} (hf' : m'.func id = .ok f') : f'.Sound := by
  have hlt : id.index < m.funcs.size := by
    rw [← h.size_eq]
    exact (Array.getElem?_eq_some_iff.1 (func_eq_ok.1 hf')).1
  have hf : m.func id = .ok _ := func_eq_ok.2 (Array.getElem?_eq_getElem hlt)
  obtain ⟨f'', hf'', hrewritten⟩ := h.func hf (hm id _ hf)
  cases hf'.symm.trans hf''
  exact hrewritten.sound (hm id _ hf)

theorem sound_of_rewrites (h : Relation.ReflTransGen Rewrite m m')
    (hm : ∀ id f, m.func id = .ok f → f.Sound) : ∀ id f, m'.func id = .ok f → f.Sound := by
  induction h with
  | refl => exact hm
  | tail _ hlast ih => exact fun id f hf => hlast.sound ih hf

end Module

/-! ## Graphs that arise -/

namespace Graph

/-- The graphs made by operations from the empty one, those of bodies that are being written, and
those of functions that any sequence of passes has left behind. Left out are graphs where a value
was attached by hand to an instruction as its result, and what passes leave behind where a constant
expression or the address of a global was made by hand. -/
inductive Arises : Graph → Prop
  | operated {g : Graph} : Relation.ReflTransGen Operation .empty g → Arises g
  | written {m : Module} {d : Draft} : m.Building (some d) → Arises d.func.graph
  | rewritten {m m' : Module} {id : FuncId} {f : Function} : m.Built →
      Relation.ReflTransGen Module.Rewrite m m' → m'.func id = .ok f → Arises f.graph

theorem Arises.tracked {g : Graph} (h : g.Arises) : g.Tracked := by
  cases h with
  | operated hrun =>
      induction hrun with
      | refl => exact tracked_empty
      | tail _ hlast ih => exact hlast.tracked ih
  | written hbuilding => exact (hbuilding.written.2 _ rfl).graph.tracked
  | rewritten hbuilt hrun hf =>
      exact (Module.sound_of_rewrites hrun (fun _ _ => hbuilt.sound) _ _ hf).graph.tracked

/-- An instruction is on record as a consumer of a value exactly if it exists and has the value
among its operands, and the consumers on record are as many as there are such instructions. This
holds for values that do not exist as well. -/
theorem users_are_consumers {g : Graph} (h : g.Arises) (v : ValueId) :
    (∀ i, i ∈ g.usersOf v ↔ ∃ inst, g.inst i = .ok inst ∧ v ∈ inst.operands) ∧
      (g.usersOf v).length = g.insts.toList.countP (v ∈ ·.operands) :=
  ⟨h.tracked.mem_users v, h.tracked.length_usersOf v⟩

end Graph

/-- A pointer is written to where it points. Marking wraps the operand that is the address, and the
store stays a consumer of the pointer as the operand that is written. -/
def Module.storesItself : Except Fault Module :=
  ofInsts ⟨.air64, .bitcode, .v7⟩ ⟨"f", .exported, [.genericPtr], .unit, none⟩
    [.store ⟨0⟩ ⟨0⟩, .ret none]

theorem Graph.users_are_consumers_storesItself : ∃ m m' f, Module.storesItself = .ok m ∧
    Relation.ReflTransGen Module.Rewrite m m' ∧ m'.func ⟨0⟩ = .ok f ∧ f.graph.Arises ∧
    (∀ i, i ∈ f.graph.usersOf ⟨0⟩ ↔ ∃ inst, f.graph.inst i = .ok inst ∧ ⟨0⟩ ∈ inst.operands) ∧
    (f.graph.usersOf ⟨0⟩).length = f.graph.insts.toList.countP (⟨0⟩ ∈ ·.operands) ∧
    f.graph.usersOf ⟨0⟩ = [⟨0⟩, ⟨2⟩] := by
  have hrun : succeeds Module.storesItself (fun m => succeeds (Module.mark.exec m) fun (_, m') =>
      succeeds (m'.func ⟨0⟩) fun f => f.graph.usersOf ⟨0⟩ = [⟨0⟩, ⟨2⟩]) = true := by
    decide +kernel
  obtain ⟨m, hm, hrun⟩ := exists_of_succeeds hrun
  obtain ⟨⟨outcome, m'⟩, hmark, hrun⟩ := exists_of_succeeds hrun
  obtain ⟨f, hf, husers⟩ := exists_of_succeeds hrun
  have hpasses : Relation.ReflTransGen Module.Rewrite m m' := .single (.mark hmark)
  have harises : f.graph.Arises := .rewritten (Module.built_of_ofItems hm) hpasses hf
  obtain ⟨hmem, hlength⟩ := Graph.users_are_consumers harises ⟨0⟩
  exact ⟨m, m', f, hm, hpasses, hf, harises, hmem, hlength, of_decide_eq_true husers⟩

end Pointee
