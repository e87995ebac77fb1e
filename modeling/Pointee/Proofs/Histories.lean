import Pointee.Proofs.Declarations
import Pointee.Proofs.LayoutRefinement
import Pointee.Proofs.Rewriting

/-!
# Histories of modules

A module is built, and then passes and single edits work on it in any order. `Function.Edit` lists
the edits. None of them checks what it is given: an instruction may be replaced by one of another
type, and it may be forgotten as a consumer of its operands. Every pass is made of such edits, by
`Module.Rewrite.edited`. `Function.Coherent` is what is left of a built function after any history,
and `Module.Arises.coherent` says so.
-/

namespace Pointee

/-! ## What no edit breaks -/

namespace Graph

variable {g g' : Graph} {i : InstId} {v : ValueId} {ctx ctx' : Context}

/-- The consumers on record consume. A consumer need not be on record. -/
def UsersConsume (g : Graph) : Prop :=
  ∀ v, ∀ i ∈ g.usersOf v, ∃ inst, g.inst i = .ok inst ∧ v ∈ inst.operands

namespace UsersConsume

theorem congr (hg : g.UsersConsume) (hinsts : g'.insts = g.insts) (husers : g'.users = g.users) :
    g'.UsersConsume := by
  intro v i hi
  have hi : i ∈ g.usersOf v := by rwa [usersOf, husers] at hi
  obtain ⟨inst, hinst, hv⟩ := hg v i hi
  exact ⟨inst, by rw [Graph.inst, hinsts]; exact hinst, hv⟩

theorem removeUser (hg : g.UsersConsume) (v : ValueId) (i : InstId) :
    (g.removeUser v i).UsersConsume :=
  fun w k hk => hg w k (mem_usersOf_removeUser.1 hk).1

theorem addInst (hg : g.UsersConsume) (inst : Inst) : (g.addInst inst).2.UsersConsume := by
  intro v i hi
  rw [inst_addInst]
  rcases mem_usersOf_addInst.1 hi with hi | ⟨rfl, hv⟩
  · obtain ⟨old, hold, hv⟩ := hg v i hi
    have hne : i ≠ g.nextInst := fun heq => absurd (inst_lt hold) (heq ▸ Nat.lt_irrefl _)
    exact ⟨old, by rw [if_neg hne]; exact hold, hv⟩
  · exact ⟨inst, if_pos rfl, hv⟩

/-- An instruction may change if it stays on record only for what it consumes then. -/
theorem of_set (hg : g.UsersConsume) {new : Inst} (hi : i.index < g.insts.size)
    (hinsts : g'.insts = g.insts.setIfInBounds i.index new)
    (hself : ∀ w, i ∈ g'.usersOf w → w ∈ new.operands)
    (hother : ∀ w k, k ≠ i → k ∈ g'.usersOf w → k ∈ g.usersOf w) : g'.UsersConsume := by
  intro w k hk
  rw [inst_of_set hi hinsts]
  by_cases hki : k = i
  · subst hki
    exact ⟨new, if_pos rfl, hself w hk⟩
  · rw [if_neg hki]
    exact hg w k (hother w k hki hk)

theorem setOperand (hg : g.UsersConsume) {slot : Nat} (h : g.setOperand i slot v = .ok g') :
    g'.UsersConsume := by
  obtain ⟨inst, old, hinst, hold, ⟨-, rfl⟩ | ⟨-, g₁, rfl, rfl⟩⟩ := setOperand_eq_ok h
  · exact hg
  · have hnew : v ∈ (inst.setOperand slot v).operands := by
      rw [Inst.operands_setOperand]
      exact List.mem_set (List.getElem?_eq_some_iff.1 hold).1 v
    -- An operand that is not the replaced one is still there.
    have hkept : ∀ w, i ∈ g.usersOf w → w ≠ old ∨ old ∈ (inst.setOperand slot v).operands →
        w ∈ (inst.setOperand slot v).operands := by
      intro w hw hne
      by_cases heq : w = old
      · exact heq ▸ hne.resolve_left (absurd heq)
      · obtain ⟨inst', hinst', hw⟩ := hg w i hw
        cases hinst.symm.trans hinst'
        obtain ⟨n, hn⟩ := List.mem_iff_getElem?.1 hw
        have hslot : slot ≠ n := by
          rintro rfl
          exact heq (Option.some.inj (hn.symm.trans hold))
        rw [Inst.operands_setOperand]
        exact List.mem_iff_getElem?.2 ⟨n, by rw [List.getElem?_set_ne hslot, hn]⟩
    refine hg.of_set (inst_lt hinst) (by split <;> rfl) (fun w hw => ?_) fun w k hk hw => ?_
    · rcases mem_usersOf_addUser.1 hw with hw | ⟨-, rfl⟩
      · split at hw
        · next hmem => exact hkept w hw (.inr hmem)
        · next hmem =>
            obtain ⟨hw, hne⟩ := mem_usersOf_removeUser.1 hw
            exact hkept w hw (.inl fun heq => hne ⟨rfl, heq⟩)
      · exact hnew
    · rcases mem_usersOf_addUser.1 hw with hw | ⟨heq, -⟩
      · split at hw
        · exact hw
        · exact (mem_usersOf_removeUser.1 hw).1
      · exact absurd heq hk

theorem replaceInst (hg : g.UsersConsume) {new : Inst} (h : g.replaceInst i new = .ok g') :
    g'.UsersConsume := by
  obtain ⟨hi, -, -, hinsts⟩ := replaceInst_frame h
  unfold Graph.replaceInst untrack at h
  obtain ⟨g₁, hg₁, hrest⟩ := bind_eq_ok_iff.1 h
  obtain ⟨old, hold, hg₁⟩ := bind_eq_ok_iff.1 hg₁
  cases pure_eq_ok_iff.1 hg₁
  rw [← pure_eq_ok_iff.1 hrest] at hinsts ⊢
  have husers : ∀ w k, k ∈ (Graph.addUses { g.removeUses i old.operands with
      insts := (g.removeUses i old.operands).insts.setIfInBounds i.index new } i
        new.operands).usersOf w →
      (k ∈ g.usersOf w ∧ ¬ (k = i ∧ w ∈ old.operands)) ∨ (k = i ∧ w ∈ new.operands) := by
    intro w k hk
    rw [mem_usersOf_addUses] at hk
    exact hk.imp_left fun hk => mem_usersOf_removeUses.1 hk
  refine hg.of_set hi hinsts (fun w hw => ?_) fun w k hk hw => ?_
  · rcases husers w i hw with ⟨hw, hnot⟩ | ⟨-, hw⟩
    · -- The records of the old operands were removed.
      obtain ⟨inst, hinst, hmem⟩ := hg w i hw
      cases hold.symm.trans hinst
      exact absurd ⟨rfl, hmem⟩ hnot
    · exact hw
  · rcases husers w k hw with ⟨hw, -⟩ | ⟨heq, -⟩
    · exact hw
    · exact absurd heq hk

theorem appendIncoming (hg : g.UsersConsume) {b : BlockId} (h : g.appendIncoming i v b = .ok g') :
    g'.UsersConsume := by
  obtain ⟨ty, incoming, hinst, rfl⟩ := appendIncoming_eq_ok h
  refine hg.of_set (inst_lt hinst) rfl (fun w hw => ?_) fun w k hk hw => ?_
  · rcases mem_usersOf_addUser.1 hw with hw | ⟨-, rfl⟩
    · obtain ⟨inst, hinst', hmem⟩ := hg w i hw
      cases hinst.symm.trans hinst'
      simp only [Inst.operands, List.map_append, List.mem_append] at hmem ⊢
      exact .inl hmem
    · simp [Inst.operands]
  · rcases mem_usersOf_addUser.1 hw with hw | ⟨heq, -⟩
    · exact hw
    · exact absurd heq hk

theorem track (hg : g.UsersConsume) (h : g.track i = .ok g') : g'.UsersConsume := by
  obtain ⟨inst, hinst, hrest⟩ := bind_eq_ok_iff.1 h
  cases pure_eq_ok_iff.1 hrest
  intro w k hk
  rw [Graph.inst, (g.addUses_frame i _).2.1]
  rcases mem_usersOf_addUses.1 hk with hk | ⟨rfl, hw⟩
  · exact hg w k hk
  · exact ⟨inst, hinst, hw⟩

theorem untrack (hg : g.UsersConsume) (h : g.untrack i = .ok g') : g'.UsersConsume := by
  obtain ⟨inst, hinst, hrest⟩ := bind_eq_ok_iff.1 h
  cases pure_eq_ok_iff.1 hrest
  intro w k hk
  rw [Graph.inst, (g.removeUses_frame i _).2.1]
  exact hg w k (mem_usersOf_removeUses.1 hk).1

end UsersConsume

/-- The address of a global is a pointer into the address space that the global is declared in. -/
def GlobalsTyped (ctx : Context) (g : Graph) : Prop :=
  ∀ v id ty, g.value v = .ok (.global id ty) →
    ∃ global, ctx.global id = .ok global ∧ ty = .ptr global.space

namespace GlobalsTyped

theorem congr (hg : g.GlobalsTyped ctx) (hvalues : g'.values = g.values) : g'.GlobalsTyped ctx := by
  intro v id ty hv
  refine hg v id ty ?_
  rw [value, ← hvalues]
  exact hv

theorem mono (hg : g.GlobalsTyped ctx)
    (hctx : ∀ id global, ctx.global id = .ok global → ctx'.global id = .ok global) :
    g.GlobalsTyped ctx' := by
  intro v id ty hv
  obtain ⟨global, hglobal, hty⟩ := hg v id ty hv
  exact ⟨global, hctx id global hglobal, hty⟩

theorem addValue (hg : g.GlobalsTyped ctx) {val : Value}
    (hval : ∀ id ty, val = .global id ty →
      ∃ global, ctx.global id = .ok global ∧ ty = .ptr global.space) :
    (g.addValue val).2.GlobalsTyped ctx := by
  intro v id ty hv
  rw [value_addValue] at hv
  split at hv
  · exact hval id ty (Except.ok.inj hv)
  · exact hg v id ty hv

theorem intern (hg : g.GlobalsTyped ctx) {val : Value}
    (hval : ∀ id ty, val = .global id ty →
      ∃ global, ctx.global id = .ok global ∧ ty = .ptr global.space) :
    (g.intern val).2.GlobalsTyped ctx := by
  unfold Graph.intern
  split
  · exact hg
  · exact hg.addValue hval

theorem addResult (hg : g.GlobalsTyped ctx) {r : Option ValueId}
    (h : g.addResult i = .ok (r, g')) : g'.GlobalsTyped ctx := by
  intro v id ty hv
  rcases value_addResult h hv with hv | ⟨ty', heq⟩
  · exact hg v id ty hv
  · cases heq

end GlobalsTyped

end Graph

namespace Function

variable {f f' : Function} {ctx ctx' : Context} {id : FuncId}

/-- What a function keeps whatever is done to it: its layout is reached by edits, it has its
arguments, results are attached to the instructions that define them, the consumers on record
consume, and addresses of globals have their type. -/
structure Coherent (ctx : Context) (id : FuncId) (f : Function) : Prop where
  layout : f.layout.Reached
  declared : ∃ sig, ctx.signature id = .ok sig ∧ f.Implements sig
  attached : f.graph.Attached
  users : f.graph.UsersConsume
  globals : f.graph.GlobalsTyped ctx

/-! ## Edits -/

/-- One edit of a function: an instruction is made and placed with its value, an instruction is
changed, or the record of consumers is. Nothing that an edit names needs to exist or to fit. -/
inductive Edit (f : Function) : Function → Prop
  | insert {loc : Location} {inst : Inst} {ins : Insertion} {f' : Function} :
      f.insert loc inst = .ok (ins, f') → Edit f f'
  | setOperand {i : InstId} {slot : Nat} {v : ValueId} {graph : Graph} :
      f.graph.setOperand i slot v = .ok graph → Edit f { f with graph }
  | replaceInst {i : InstId} {inst : Inst} {graph : Graph} :
      f.graph.replaceInst i inst = .ok graph → Edit f { f with graph }
  | appendIncoming {i : InstId} {v : ValueId} {b : BlockId} {graph : Graph} :
      f.graph.appendIncoming i v b = .ok graph → Edit f { f with graph }
  | track {i : InstId} {graph : Graph} : f.graph.track i = .ok graph → Edit f { f with graph }
  | untrack {i : InstId} {graph : Graph} : f.graph.untrack i = .ok graph → Edit f { f with graph }
  | removeUser (v : ValueId) (i : InstId) :
      Edit f { f with graph := f.graph.removeUser v i }

/-- `f'` is reached from `f` by edits. -/
def Edited : Function → Function → Prop := Relation.ReflTransGen Edit

theorem Coherent.withGraph (h : f.Coherent ctx id) {graph : Graph}
    (hvalues : graph.values = f.graph.values) (hresults : graph.results = f.graph.results)
    (hsize : graph.insts.size = f.graph.insts.size) (husers : graph.UsersConsume) :
    { f with graph }.Coherent ctx id := by
  obtain ⟨sig, hsig, himplements⟩ := h.declared
  exact ⟨h.layout, ⟨sig, hsig, himplements.retains ⟨rfl, Graph.keeps_of_values hvalues⟩⟩,
    h.attached.congr hvalues hresults hsize, husers, h.globals.congr hvalues⟩

theorem Coherent.insert (h : f.Coherent ctx id) {loc : Location} {inst : Inst} {ins : Insertion}
    (hins : f.insert loc inst = .ok (ins, f')) : f'.Coherent ctx id := by
  have hretains := insert_retains hins
  obtain ⟨_, _, hlayout, hresult, -, rfl⟩ := insert_eq_ok hins
  obtain ⟨sig, hsig, himplements⟩ := h.declared
  have hattached := h.attached.addInst inst
  have hnone : (f.graph.addInst inst).2.result? f.graph.nextInst = none := by
    show (f.graph.addInst inst).2.results.get _ = none
    rw [Graph.addInst, (Graph.addUses_frame ..).2.2]
    exact h.attached.result?_eq_none (Nat.le_refl _)
  refine ⟨h.layout.insertAt hlayout, ⟨sig, hsig, himplements.retains hretains⟩,
    hattached.addResult hnone hresult, ?_, ?_⟩
  · have husers := h.users.addInst inst
    obtain ⟨_, _, -, -, ⟨-, -, heq⟩ | ⟨t, -, -, heq⟩⟩ := Graph.addResult_eq_ok hresult
    · exact heq ▸ husers
    · exact heq ▸ husers.congr rfl rfl
  · exact Graph.GlobalsTyped.addResult (h.globals.congr (f.graph.values_addInst inst)) hresult

theorem Edit.coherent (hedit : f.Edit f') (h : f.Coherent ctx id) : f'.Coherent ctx id := by
  cases hedit with
  | insert hins => exact h.insert hins
  | setOperand hset =>
      obtain ⟨hvalues, hresults, inst, -, -, hinsts⟩ := Graph.setOperand_frame hset
      refine h.withGraph hvalues hresults ?_ (h.users.setOperand hset)
      rw [hinsts, Array.size_setIfInBounds]
  | replaceInst hreplace =>
      obtain ⟨-, hvalues, hresults, hinsts⟩ := Graph.replaceInst_frame hreplace
      refine h.withGraph hvalues hresults ?_ (h.users.replaceInst hreplace)
      rw [hinsts, Array.size_setIfInBounds]
  | appendIncoming happend =>
      obtain ⟨ty, incoming, -, rfl⟩ := Graph.appendIncoming_eq_ok happend
      exact h.withGraph rfl rfl Array.size_setIfInBounds (h.users.appendIncoming happend)
  | track htrack =>
      have husers := h.users.track htrack
      obtain ⟨inst, -, hrest⟩ := bind_eq_ok_iff.1 htrack
      cases pure_eq_ok_iff.1 hrest
      obtain ⟨hvalues, hinsts, hresults⟩ := f.graph.addUses_frame _ inst.operands
      exact h.withGraph hvalues hresults (congrArg Array.size hinsts) husers
  | untrack huntrack =>
      have husers := h.users.untrack huntrack
      obtain ⟨inst, -, hrest⟩ := bind_eq_ok_iff.1 huntrack
      cases pure_eq_ok_iff.1 hrest
      obtain ⟨hvalues, hinsts, hresults⟩ := f.graph.removeUses_frame _ inst.operands
      exact h.withGraph hvalues hresults (congrArg Array.size hinsts) husers
  | removeUser v i => exact h.withGraph rfl rfl rfl (h.users.removeUser v i)

theorem Edited.coherent (h : f.Edited f') (hf : f.Coherent ctx id) : f'.Coherent ctx id := by
  induction h with
  | refl => exact hf
  | tail _ hlast ih => exact hlast.coherent ih

theorem Edited.refl (f : Function) : f.Edited f := Relation.ReflTransGen.refl

theorem edited_of_insert {loc : Location} {inst : Inst} {ins : Insertion}
    (h : f.insert loc inst = .ok (ins, f')) : f.Edited f' := .single (.insert h)

theorem edited_of_setOperand {i : InstId} {slot : Nat} {v : ValueId}
    (h : f.setOperand i slot v = .ok f') : f.Edited f' := by
  obtain ⟨graph, hgraph, hrest⟩ := bind_eq_ok_iff.1 h
  cases pure_eq_ok_iff.1 hrest
  exact .single (.setOperand hgraph)

/-! ## Demotion is made of edits -/

theorem DemotesMany.edited {n : Nat} (h : DemotesMany n f f') : f.Edited f' := by
  induction h with
  | refl => exact .refl _
  | tail _ hone ih =>
      obtain ⟨-, -, -, hins, hset⟩ := hone
      exact (ih.trans (edited_of_insert hins)).trans (edited_of_setOperand hset)

theorem demote_edited {changed : Bool} (h : f.demote = .ok (changed, f')) : f.Edited f' := by
  obtain ⟨⟨count, g⟩, hrounds, hrest⟩ := bind_eq_ok_iff.1 h
  cases pure_eq_ok_iff.1 hrest
  exact (demoteRounds_many hrounds).edited

/-! ## Marking is made of edits -/

theorem wrapOperand_edited {user : InstId} {slot : Nat} (h : f.wrapOperand user slot = .ok f') :
    f.Edited f' := by
  obtain ⟨_, _, _, _, _, _, hinsert, hset⟩ := wrapOperand_inserts h
  exact (edited_of_insert hinsert).trans (edited_of_setOperand hset)

theorem WrapsSlots.edited {user : InstId} {slots : List Nat} (h : f.WrapsSlots user slots f') :
    f.Edited f' := by
  induction h with
  | refl => exact Edited.refl f
  | wrap _ hwrap ih => exact ih.trans (wrapOperand_edited hwrap)

theorem wrapPointer_edited {user : InstId} {slots slots' : List Nat}
    (h : f.wrapPointer user slots = .ok (slots', f')) : f.Edited f' := by
  obtain ⟨inst, -, ⟨-, -, rfl⟩ | ⟨slot, -, -, hwrap⟩⟩ := wrapPointer_eq_ok h
  · exact Edited.refl f'
  · exact wrapOperand_edited hwrap

theorem wrapResult_edited {i : InstId} {count : Nat} (h : f.wrapResult i = .ok (count, f')) :
    f.Edited f' := by
  rcases wrapResult_eq_ok h with ⟨-, -, rfl⟩ | ⟨v, ty, ins, mid, w, -, -, -, hinsert, -, hloop⟩
  · exact Edited.refl f'
  · refine foldlM_invariant (P := f.Edited) (fun g g' user _ hg hround => ?_)
      (edited_of_insert hinsert) hloop
    exact redirect_invariant (fun _ _ _ hg _ hset => hg.trans (edited_of_setOperand hset)) hg hround

end Function

namespace Marking

variable {ctx : Context} {f₀ : Function}

theorem edit_edited {α : Type} {step : Function → Except Fault (α × Function)}
    (hstep : ∀ f a f', step f = .ok (a, f') → f.Edited f') :
    Pass.Preserves (fun s => f₀.Edited s.func) (edit step) := by
  intro s r t hs h
  obtain ⟨a, -, hrun⟩ := edit_eq_ok h
  exact hs.trans (hstep s.func a t.func hrun)

theorem markCall_edited (i : InstId) (wrapped : List Nat) :
    Pass.Preserves (fun s => f₀.Edited s.func) (markCall ctx i wrapped) := by
  intro s r t hs h
  obtain ⟨site, -, ⟨-, -, hfunc⟩ | ⟨callee, args, -, ⟨-, hfunc⟩ |
    ⟨typed, types, slots, -, -, -, hloop⟩⟩⟩ := markCall_eq_ok h
  · exact hfunc ▸ hs
  · exact hfunc ▸ hs
  · exact hs.trans (Function.WrapsSlots.refl.trans hloop).edited

theorem markResult_edited (i : InstId) :
    Pass.Preserves (fun s => f₀.Edited s.func) (markResult i) := by
  intro s r t hs h
  obtain ⟨inst, -, ⟨-, -, hfunc⟩ | ⟨-, n, -, hwrap⟩⟩ := markResult_eq_ok h
  · exact hfunc ▸ hs
  · exact hs.trans (Function.wrapResult_edited hwrap)

theorem markFunction_edited {s t : Marking} {r : Except Refusal Nat}
    (h : (markFunction ctx).exec s = .ok (r, t)) : s.func.Edited t.func := by
  rw [markFunction, Pass.exec_bind_of_ok (Pass.exec_get s)] at h
  refine Pass.Preserves.foldlM (P := fun t => s.func.Edited t.func) (fun count i _ => ?_) 0 s r t
    (Function.Edited.refl s.func) h
  refine Pass.Preserves.bind ?_ fun _ => .pure _
  refine (edit_edited fun f a f' h => (Function.wrapGlobals_wraps h).edited).bind fun wrapped => ?_
  refine (edit_edited fun f a f' => Function.wrapPointer_edited).bind fun wrapped => ?_
  exact (markCall_edited i wrapped).bind fun _ => (markResult_edited i).bind fun _ => .pure _

end Marking

/-! ## Patching is made of edits -/

namespace Patching

variable {config : Config} {id : FuncId} {s t : Patching} {i : InstId}

theorem castPointer_edited {slot : Nat} {ptr : ValueId} {space : AddrSpace}
    (h : s.castPointer config id i slot ptr space = .ok t) : s.func.Edited t.func := by
  obtain ⟨_, _, mid, _, _, graph, -, hinsert, -, -, hgraph, rfl⟩ := castPointer_eq_ok h
  exact (Function.edited_of_insert hinsert).tail (.replaceInst hgraph)

theorem patchInst_edited (h : s.patchInst config id i = .ok t) : s.func.Edited t.func := by
  obtain ⟨inst, -, ⟨rfl, -⟩ | ⟨slot, ptr, space, -, hcast⟩⟩ := patchInst_eq_ok h
  · exact Function.Edited.refl _
  · exact castPointer_edited hcast

theorem patchFunction_edited (h : s.patchFunction config id = .ok t) : s.func.Edited t.func := by
  refine foldlM_invariant (P := fun t => s.func.Edited t.func) (fun t t' i _ ht hround => ?_)
    (Function.Edited.refl s.func) h
  exact ht.trans (patchInst_edited hround)

end Patching

/-! ## Modules -/

namespace Function.Writing

variable {ctx : Context} {f f' : Function}

/-- Writing gives addresses of globals their type. -/
theorem globals (h : f.Writing ctx f') (hf : f.graph.GlobalsTyped ctx) :
    f'.graph.GlobalsTyped ctx := by
  cases h with
  | same => exact hf
  | addBlock | appendBlock => exact hf.congr rfl
  | constant _ hglobal => exact hf.intern hglobal
  | expr hexpr =>
      obtain ⟨ty, -, hadd⟩ := Graph.addExpr_eq_ok hexpr
      cases hadd
      exact hf.addValue (by simp)
  | insert hins =>
      obtain ⟨_, _, -, hresult, -, rfl⟩ := insert_eq_ok hins
      exact Graph.GlobalsTyped.addResult (hf.congr (f.graph.values_addInst _)) hresult
  | place hplace =>
      obtain ⟨layout, -, hrest⟩ := bind_eq_ok_iff.1 hplace
      cases pure_eq_ok_iff.1 hrest
      exact hf.congr (f.graph.values_addInst _)
  | replaceInst hreplace => exact hf.congr (Graph.replaceInst_frame hreplace).2.1
  | appendIncoming happend =>
      obtain ⟨ty, incoming, -, rfl⟩ := Graph.appendIncoming_eq_ok happend
      exact hf.congr rfl

/-- Writing edits the layout, or leaves it alone. -/
theorem reached (h : f.Writing ctx f') (hf : f.layout.Reached) : f'.layout.Reached := by
  cases h with
  | same | addBlock | constant | expr | replaceInst | appendIncoming => exact hf
  | appendBlock hlayout => exact hf.edit (e := .appendBlock _) hlayout
  | insert hins =>
      obtain ⟨_, _, hlayout, -, -, rfl⟩ := insert_eq_ok hins
      exact hf.insertAt hlayout
  | place hplace =>
      obtain ⟨layout, hlayout, hrest⟩ := bind_eq_ok_iff.1 hplace
      cases pure_eq_ok_iff.1 hrest
      exact hf.insertAt hlayout

end Function.Writing

namespace Module

variable {m m' : Module} {d : Option Draft} {id : FuncId} {f f' : Function}

theorem globalsTyped_ofSignature (ctx : Context) (sig : Signature) :
    (Function.ofSignature sig).graph.GlobalsTyped ctx := by
  intro v id ty hv
  obtain ⟨_, -, heq⟩ := Function.value_ofSignature.1 hv
  cases heq

theorem Built.globals (h : m.Built) (hf : m.func id = .ok f) : f.graph.GlobalsTyped m.ctx :=
  (Building.invariant (P := fun ctx _ f => f.graph.GlobalsTyped ctx) h
    (fun _ _ _ _ hgrows hf => hf.mono hgrows.globals)
    (fun ctx _ sig _ => globalsTyped_ofSignature ctx sig)
    fun _ _ _ hstep hf => hstep.writing.2.globals hf).1 id f hf

theorem Built.reached (h : m.Built) (hf : m.func id = .ok f) : f.layout.Reached :=
  (Building.invariant (P := fun _ _ f => f.layout.Reached) h (fun _ _ _ _ _ hf => hf)
    (fun _ _ _ _ => .empty) fun _ _ _ hstep hf => hstep.writing.2.reached hf).1 id f hf

/-- Every function keeps what no edit breaks. -/
def Coherent (m : Module) : Prop := ∀ id f, m.func id = .ok f → f.Coherent m.ctx id

theorem Built.coherent (hm : m.Built) : m.Coherent := by
  intro id f hf
  have hgraph := (hm.sound hf).graph
  exact ⟨hm.reached hf, hm.implemented id f hf, hgraph.attached,
    fun v i => (hgraph.mem_users v i).1, hm.globals hf⟩

theorem Coherent.congr (h : m.Coherent) (hsignatures : m'.ctx.signatures = m.ctx.signatures)
    (hglobals : m'.ctx.globals = m.ctx.globals)
    (hfuncs : ∀ id f', m'.func id = .ok f' → ∃ f, m.func id = .ok f ∧ f.Edited f') :
    m'.Coherent := by
  intro id f' hf'
  obtain ⟨f, hf, hedited⟩ := hfuncs id f' hf'
  have hcoherent := hedited.coherent (h id f hf)
  obtain ⟨sig, hsig, himplements⟩ := hcoherent.declared
  refine ⟨hcoherent.layout, ⟨sig, ?_, himplements⟩, hcoherent.attached, hcoherent.users,
    hcoherent.globals.mono ?_⟩
  · rw [Context.signature, hsignatures]
    exact hsig
  · intro id global hglobal
    rw [Context.global, hglobals]
    exact hglobal

theorem func_of_size_eq (hsize : m'.funcs.size = m.funcs.size) (hf' : m'.func id = .ok f') :
    ∃ f, m.func id = .ok f := by
  have hlt := (Array.getElem?_eq_some_iff.1 (func_eq_ok.1 hf')).1
  exact ⟨_, func_eq_ok.2 (Array.getElem?_eq_getElem (hsize ▸ hlt))⟩

theorem MarkOutcome.edited (h : MarkOutcome f f') : f.Edited f' := by
  rcases h with rfl | ⟨ctx, s, r, t, hrun, rfl, rfl⟩
  · exact Function.Edited.refl f'
  · exact Marking.markFunction_edited hrun

theorem PatchOutcome.edited (h : PatchOutcome f f') : f.Edited f' := by
  rcases h with rfl | ⟨config, id, s, t, hrun, rfl, rfl⟩
  · exact Function.Edited.refl f'
  · exact Patching.patchFunction_edited hrun

/-- Patching changes nothing that functions share. -/
theorem patch_ctx {config : Config} {map map' : PtrMap} {changed : Bool}
    (h : m.patch config map = .ok (changed, map', m')) : m'.ctx = m.ctx := by
  obtain ⟨⟨map₁, patched, m₁⟩, hloop, hrest⟩ := bind_eq_ok_iff.1 h
  cases pure_eq_ok_iff.1 hrest
  refine foldlM_invariant (P := fun state => state.2.2.ctx = m.ctx) ?_ rfl hloop
  rintro ⟨map₁, n₁, m₁⟩ ⟨map₂, n₂, m₂⟩ ⟨id, f⟩ - hctx hround
  obtain ⟨s, -, hrest⟩ := bind_eq_ok_iff.1 hround
  cases pure_eq_ok_iff.1 hrest
  exact hctx

/-- A pass makes edits, and changes nothing else but the type store. -/
theorem Rewrite.edited (h : m.Rewrite m') :
    (∃ types, m'.ctx = { m.ctx with types }) ∧
      ∀ id f', m'.func id = .ok f' → ∃ f, m.func id = .ok f ∧ f.Edited f' := by
  cases h with
  | @demote id' g g' changed hg hdemote =>
      refine ⟨⟨m.ctx.types, rfl⟩, fun id f' hf' => ?_⟩
      rcases func_of_setFunc hf' with ⟨rfl, rfl⟩ | hf
      · exact ⟨g, hg, Function.demote_edited hdemote⟩
      · exact ⟨f', hf, Function.Edited.refl f'⟩
  | mark hmark =>
      obtain ⟨hsize, hfuncs⟩ := mark_eq_ok hmark
      refine ⟨mark_ctx hmark, fun id f' hf' => ?_⟩
      obtain ⟨f, hf⟩ := func_of_size_eq hsize hf'
      obtain ⟨f'', hf'', hout⟩ := hfuncs id f hf
      cases hf'.symm.trans hf''
      exact ⟨f, hf, hout.edited⟩
  | patch hpatch =>
      obtain ⟨hsize, hfuncs⟩ := patch_eq_ok hpatch
      refine ⟨⟨m.ctx.types, patch_ctx hpatch⟩, fun id f' hf' => ?_⟩
      obtain ⟨f, hf⟩ := func_of_size_eq hsize hf'
      obtain ⟨f'', hf'', hout⟩ := hfuncs id f hf
      cases hf'.symm.trans hf''
      exact ⟨f, hf, hout.edited⟩

/-- The modules that are built, and what any history of passes, edits and changes of the type store
has made of them. Left out are modules where results and values were made by hand: where a value was
attached to an instruction as its result, or where a constant expression or the address of a global
was made as a bare value, of any type. -/
inductive Arises : Module → Prop
  | built {m : Module} : m.Built → Arises m
  | typed {m : Module} (types : TypeStore) : Arises m → Arises (m.setTypes types)
  | edited {m : Module} {id : FuncId} {f f' : Function} :
      Arises m → m.func id = .ok f → f.Edit f' → Arises (m.setFunc id f')
  | rewritten {m m' : Module} : Arises m → m.Rewrite m' → Arises m'

theorem Arises.coherent (h : m.Arises) : m.Coherent := by
  induction h with
  | built hm => exact hm.coherent
  | typed types _ ih => exact ih.congr rfl rfl fun id f hf => ⟨f, hf, Function.Edited.refl f⟩
  | @edited m id' g g' _ hg hedit ih =>
      refine ih.congr rfl rfl fun id f' hf' => ?_
      rcases func_of_setFunc hf' with ⟨rfl, rfl⟩ | hf
      · exact ⟨g, hg, .single hedit⟩
      · exact ⟨f', hf, Function.Edited.refl f'⟩
  | rewritten _ hrewrite ih =>
      obtain ⟨⟨types, hctx⟩, hfuncs⟩ := hrewrite.edited
      exact ih.congr (by rw [hctx]) (by rw [hctx]) hfuncs

end Module

end Pointee
