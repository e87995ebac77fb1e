import Mathlib.Algebra.BigOperators.Group.List.Basic
import Pointee.Proofs.ChangedFlag
import Pointee.Proofs.Declarations
import Pointee.Proofs.DemotionMeaning

/-!
# Demotion reaches a fixed point

Demotion makes one instruction for each constant expression in the trees that operands unfold into.
What is yet to be made is the sum of the sizes of those trees over all placed instructions: an edit
makes one instruction, takes a tree away from its user, and gives the new instruction what is left
of it. This sum, together with the number of instructions, is the same all the way
(`Interposes.balance`), and it is zero in the end. `Demoter` is demotion as a worklist that is
reused from function to function; it makes the same edits in the same order as the rounds do.
-/

namespace Pointee

/-- The number of computations in the tree. -/
def Tree.nodes : Tree → Nat
  | leaf _ => 0
  | node _ _ args => 1 + (args.map nodes).sum

theorem Tree.map_nodes {args : List Tree} {vs : List ValueId} {size : ValueId → Nat}
    (hlength : args.length = vs.length)
    (h : ∀ (k : Nat) w t, vs[k]? = some w → args[k]? = some t → size w = t.nodes) :
    args.map Tree.nodes = vs.map size := by
  refine List.ext_getElem (by simpa using hlength) fun k hk hk' => ?_
  rw [List.getElem_map, List.getElem_map]
  exact (h k _ _ (List.getElem?_eq_getElem _) (List.getElem?_eq_getElem _)).symm

/-! ## The size of constant expressions -/

namespace Graph

variable {g : Graph} {v : ValueId} {e : ConstExpr} {ty : Ty} {t : Tree}

/-- How many constant expressions `v` is made of, each counted as often as it occurs, if they are
not nested deeper than given. -/
def exprNodesWithin (g : Graph) : Nat → ValueId → Nat
  | 0, _ => 0
  | depth + 1, v =>
      match g.value v with
      | .ok (.expr e _) => 1 + (e.operands.map (g.exprNodesWithin depth)).sum
      | _ => 0

/-- How many constant expressions `v` is made of, each counted as often as it occurs. -/
def exprNodes (g : Graph) (v : ValueId) : Nat := g.exprNodesWithin g.values.size v

theorem Sound.exprNodesWithin_eq (hg : g.Sound) (hexist : g.PartsExist) (hacyclic : g.Acyclic)
    (h : g.Unfolds g.insts.size v t) {depth : Nat} (hdepth : g.Has v → g.depth v < depth) :
    g.exprNodesWithin depth v = t.nodes := by
  induction h generalizing depth with
  | @leaf v hnot =>
      rw [Tree.nodes]
      cases depth with
      | zero => rfl
      | succ depth =>
          rw [exprNodesWithin]
          split
          · next e ty hv => exact absurd (.expr hv) (hnot _ _)
          · rfl
  | @node v inst ty args hcomp hlength _ ih =>
      obtain ⟨e, hv, rfl⟩ := hg.computes hcomp
      rw [ConstExpr.operands_toInst] at hlength ih
      have hlt : g.depth v < depth := hdepth (has_of_value hv)
      cases depth with
      | zero => exact absurd hlt (Nat.not_lt_zero _)
      | succ depth =>
          have hargs : args.map Tree.nodes = e.operands.map (g.exprNodesWithin depth) := by
            refine Tree.map_nodes hlength fun k w t hw ht => ih k w t hw ht fun _ => ?_
            have hpart := hacyclic.depth_lt hexist ⟨e, ty, hv, List.mem_of_getElem? hw⟩
            omega
          rw [exprNodesWithin, hv, Tree.nodes, hargs]

/-- The count is that of the tree that the value unfolds into. -/
theorem Sound.exprNodes_eq (hg : g.Sound) (hexist : g.PartsExist) (hacyclic : g.Acyclic)
    (h : g.Unfolds g.insts.size v t) : g.exprNodes v = t.nodes :=
  hg.exprNodesWithin_eq hexist hacyclic h hacyclic.depth_lt_size

/-- `weight` counts constant expressions: each counts one more than its parts do, and other values
count nothing. -/
structure Weighs (g : Graph) (weight : ValueId → Nat) : Prop where
  expr : ∀ v e ty, g.value v = .ok (.expr e ty) → weight v = 1 + (e.operands.map weight).sum
  other : ∀ v, (∀ e ty, g.value v ≠ .ok (.expr e ty)) → weight v = 0

theorem Sound.weighs (hg : g.Sound) (hexist : g.PartsExist) (hacyclic : g.Acyclic) :
    g.Weighs g.exprNodes where
  expr v e ty hv := by
    obtain ⟨t, ht⟩ := hg.exists_unfolds hexist hacyclic v
    rw [hg.exprNodes_eq hexist hacyclic ht]
    cases ht with
    | leaf hnot => exact absurd (.expr hv) (hnot _ _)
    | @node _ inst ty' args hcomp hlength hargs =>
        obtain ⟨e', hv', rfl⟩ := hg.computes hcomp
        cases hv.symm.trans hv'
        rw [ConstExpr.operands_toInst] at hlength hargs
        rw [Tree.nodes, Tree.map_nodes hlength fun k w t hw ht =>
          hg.exprNodes_eq hexist hacyclic (hargs k w t hw ht)]
  other v hv := by
    obtain ⟨t, ht⟩ := hg.exists_unfolds hexist hacyclic v
    rw [hg.exprNodes_eq hexist hacyclic ht]
    cases ht with
    | leaf => exact Tree.nodes.eq_1 v
    | node hcomp =>
        obtain ⟨e, hv', -⟩ := hg.computes hcomp
        exact absurd hv' (hv e _)

/-- The operands of an instruction; there are none if it does not exist. -/
def operandsOf (g : Graph) (i : InstId) : List ValueId :=
  ((g.inst i).toOption.map Inst.operands).getD []

theorem operandsOf_eq {i : InstId} {inst : Inst} (h : g.inst i = .ok inst) :
    g.operandsOf i = inst.operands := by
  rw [operandsOf, h]
  rfl

theorem operand_of_mem {i : InstId} (h : v ∈ g.operandsOf i) :
    ∃ slot, g.operand i slot = .ok v := by
  cases hinst : g.inst i with
  | error fault =>
      rw [operandsOf, hinst] at h
      cases h
  | ok inst =>
      rw [operandsOf_eq hinst] at h
      obtain ⟨slot, hslot⟩ := List.mem_iff_getElem?.1 h
      exact ⟨slot, operand_eq_ok.2 ⟨inst, hinst, hslot⟩⟩

end Graph

/-! ## What is yet to be made -/

theorem sum_map_set {weight : ValueId → Nat} {vs : List ValueId} {slot : Nat} {old : ValueId}
    (h : vs[slot]? = some old) (new : ValueId) :
    ((vs.set slot new).map weight).sum + weight old = (vs.map weight).sum + weight new := by
  induction vs generalizing slot with
  | nil => cases h
  | cons v vs ih =>
      cases slot with
      | zero =>
          cases h
          simp only [List.set_cons_zero, List.map_cons, List.sum_cons]
          omega
      | succ slot =>
          have hrest := ih h
          simp only [List.set_cons_succ, List.map_cons, List.sum_cons]
          omega

namespace Function

variable {f f' : Function} {weight : ValueId → Nat} {total : Nat} {user : InstId} {slot : Nat}
  {v : ValueId} {e : ConstExpr} {inst : Inst} {ty : Ty} {work made made' : List InstId}

/-- The weight of the operands of an instruction. -/
def operandWeight (f : Function) (weight : ValueId → Nat) (i : InstId) : Nat :=
  ((f.graph.operandsOf i).map weight).sum

/-- The weight of the operands of all placed instructions. -/
def totalWeight (f : Function) (weight : ValueId → Nat) : Nat :=
  (f.insts.map (f.operandWeight weight)).sum

/-- How many constant expressions the operands of placed instructions are made of, each counted as
often as it occurs. -/
def exprNodes (f : Function) : Nat := f.totalWeight f.graph.exprNodes

theorem totalWeight_of_flat (hweighs : f.graph.Weighs weight) (hflat : ∀ i ∈ f.insts, f.Flat i) :
    f.totalWeight weight = 0 := by
  refine List.sum_eq_zero fun n hn => ?_
  obtain ⟨i, hi, rfl⟩ := List.mem_map.1 hn
  refine List.sum_eq_zero fun k hk => ?_
  obtain ⟨v, hv, rfl⟩ := List.mem_map.1 hk
  obtain ⟨slot, hslot⟩ := Graph.operand_of_mem hv
  exact hweighs.other v fun e ty => hflat i hi slot v e ty hslot

section Edit

variable (hinter : f.Interposes user slot v inst ty f')
include hinter

theorem Interposes.weighs (h : f.graph.Weighs weight) : f'.graph.Weighs weight where
  expr w e' ty' hw := by
    rw [hinter.value_eq] at hw
    split at hw
    · cases hw
    · exact h.expr w e' ty' hw
  other w hw := by
    refine h.other w fun e' ty' hw' => hw e' ty' ?_
    have hne : w ≠ f.graph.nextValue := by
      rintro rfl
      exact absurd (Graph.has_of_value hw') (Nat.lt_irrefl _)
    rw [hinter.value_eq, if_neg hne, hw']

theorem Interposes.operandsOf_new : f'.graph.operandsOf f.graph.nextInst = inst.operands :=
  Graph.operandsOf_eq hinter.inst_new

theorem Interposes.operandsOf_user :
    f'.graph.operandsOf user = (f.graph.operandsOf user).set slot f.graph.nextValue := by
  obtain ⟨b, front, back, mid, -, hins, hr⟩ := hinter.edits
  obtain ⟨consumer, hconsumer, -⟩ := Graph.operand_eq_ok.1 hinter.operand
  obtain ⟨-, hset⟩ := hr.graph.inst_self (hins.inst_old hconsumer)
  rw [Graph.operandsOf_eq hset, Graph.operandsOf_eq hconsumer, Inst.operands_setOperand]

theorem Interposes.operandsOf_other {j : InstId} (hj : j.index < f.graph.insts.size)
    (hne : j ≠ user) : f'.graph.operandsOf j = f.graph.operandsOf j := by
  obtain ⟨b, front, back, mid, -, hins, hr⟩ := hinter.edits
  obtain ⟨x, hx⟩ := Graph.exists_inst hj
  rw [Graph.operandsOf_eq hx]
  exact Graph.operandsOf_eq ((hr.graph.inst_of_ne hne).trans (hins.inst_old hx))

theorem Interposes.perm_insts (hf : f.Sound) :
    f'.insts.Perm (f.graph.nextInst :: f.insts) := by
  have hfresh : f.graph.nextInst ∉ f.insts := fun hmem =>
    absurd (hf.lt_of_mem_insts hmem) (Nat.lt_irrefl _)
  refine (List.perm_ext_iff_of_nodup hinter.sound.nodup_insts
    (List.nodup_cons.2 ⟨hfresh, hf.nodup_insts⟩)).2 fun i => ?_
  rw [hinter.mem_insts hf, List.mem_cons, or_comm]

end Edit

/-- Demoting a constant expression makes one instruction and takes as much from what is yet to be
made. -/
theorem Interposes.balance (hinter : f.Interposes user slot v e.toInst ty f') (hf : f.Sound)
    (hweighs : f.graph.Weighs weight) (hval : f.graph.value v = .ok (.expr e ty))
    (huser : user ∈ f.insts) :
    f'.insts.length + f'.totalWeight weight = f.insts.length + f.totalWeight weight := by
  have hnew : 1 + f'.operandWeight weight f.graph.nextInst = weight v := by
    rw [operandWeight, hinter.operandsOf_new, ConstExpr.operands_toInst, hweighs.expr v e ty hval]
  have hslot : f'.operandWeight weight user + weight v = f.operandWeight weight user := by
    obtain ⟨consumer, hconsumer, hold⟩ := Graph.operand_eq_ok.1 hinter.operand
    rw [← Graph.operandsOf_eq hconsumer] at hold
    have hzero : weight f.graph.nextValue = 0 := hweighs.other _ fun e ty hvalue =>
      absurd (Graph.has_of_value hvalue) (Nat.lt_irrefl _)
    rw [operandWeight, hinter.operandsOf_user, sum_map_set hold, hzero, operandWeight,
      Nat.add_zero]
  have hothers : (f.insts.erase user).map (f'.operandWeight weight) =
      (f.insts.erase user).map (f.operandWeight weight) := by
    refine List.map_congr_left fun j hj => ?_
    have hne : j ≠ user := fun heq => (hf.nodup_insts.not_mem_erase (heq ▸ hj))
    rw [operandWeight, hinter.operandsOf_other (hf.lt_of_mem_insts (List.mem_of_mem_erase hj)) hne,
      operandWeight]
  have hsum : f'.totalWeight weight =
      f'.operandWeight weight f.graph.nextInst + (f.insts.map (f'.operandWeight weight)).sum := by
    rw [totalWeight, ((hinter.perm_insts hf).map _).sum_eq, List.map_cons, List.sum_cons]
  have hbefore := List.sum_map_erase (f.operandWeight weight) huser
  have hafter := List.sum_map_erase (f'.operandWeight weight) huser
  rw [hothers] at hafter
  rw [hsum, hinter.length_insts hf]
  unfold totalWeight
  omega

/-! ## Runs of demotion -/

/-- The instructions of `pending` are placed, and the number of instructions and what is yet to be
made of them add up to `total`. -/
structure Accounted (f : Function) (weight : ValueId → Nat) (total : Nat) (pending : List InstId) :
    Prop where
  sound : f.Sound
  weighs : f.graph.Weighs weight
  placed : ∀ i ∈ pending, i ∈ f.insts
  balance : f.insts.length + f.totalWeight weight = total

namespace Accounted

theorem demoteOperand (h : f.Accounted weight total (work ++ made)) (huser : user ∈ work)
    (hrun : Function.demoteOperand user (made, f) slot = .ok (made', f')) :
    f'.Accounted weight total (work ++ made') := by
  obtain ⟨v, hv, hrest⟩ := bind_eq_ok_iff.1 hrun
  obtain ⟨val, hval, hrest⟩ := bind_eq_ok_iff.1 hrest
  cases val with
  | expr e ty =>
      obtain ⟨loc, hloc, -⟩ := bind_eq_ok_iff.1 hrest
      obtain ⟨f'', hf'', hinter⟩ := h.sound.demoteOperand_of hv hval hloc made
      cases hrun.symm.trans hf''
      have hplaced : user ∈ f.insts := h.placed user (List.mem_append_left made huser)
      refine ⟨hinter.sound, hinter.weighs h.weighs, fun i hi => ?_,
        (hinter.balance h.sound h.weighs hval hplaced).trans h.balance⟩
      rw [← List.append_assoc, List.mem_append, List.mem_singleton] at hi
      exact (hinter.mem_insts h.sound).2 (hi.imp_left (h.placed i))
  | _ =>
      cases pure_eq_ok_iff.1 hrest
      exact h

theorem demoteInst (h : f.Accounted weight total (work ++ made)) (huser : user ∈ work)
    (hrun : Function.demoteInst (made, f) user = .ok (made', f')) :
    f'.Accounted weight total (work ++ made') := by
  obtain ⟨inst, -, hloop⟩ := bind_eq_ok_iff.1 hrun
  exact foldlM_invariant (P := fun state => state.2.Accounted weight total (work ++ state.1))
    (fun _ _ _ _ hs hround => hs.demoteOperand huser hround) h hloop

theorem demoteRounds {rounds count : Nat} (h : f.Accounted weight total work)
    (hrun : Function.demoteRounds rounds work f = .ok (count, f')) :
    f'.Accounted weight total [] := by
  induction rounds generalizing work f count with
  | zero =>
      cases work with
      | nil => cases hrun; exact h
      | cons => cases hrun
  | succ rounds ih =>
      cases work with
      | nil => cases hrun; exact h
      | cons i rest =>
          obtain ⟨⟨made, g⟩, hround, hrest⟩ := bind_eq_ok_iff.1 hrun
          obtain ⟨⟨n, g'⟩, hrounds, hrest⟩ := bind_eq_ok_iff.1 hrest
          cases pure_eq_ok_iff.1 hrest
          have hstart : f.Accounted weight total ((i :: rest) ++ []) := by rwa [List.append_nil]
          have hg := foldlM_invariant
            (P := fun state => state.2.Accounted weight total ((i :: rest) ++ state.1))
            (fun _ _ _ huser hs hinst => hs.demoteInst huser hinst) hstart hround
          exact ih ⟨hg.sound, hg.weighs, fun j hj => hg.placed j (List.mem_append_right _ hj),
            hg.balance⟩ hrounds

end Accounted

/-- Each edit of demotion places the instruction that it makes. -/
theorem Demoted.length_insts (h : f.Demoted f') (hf : f.Sound) :
    f'.insts.length + f.graph.insts.size = f.insts.length + f'.graph.insts.size := by
  refine (h.invariant (P := fun g => g.insts.length + f.graph.insts.size =
    f.insts.length + g.graph.insts.size) hf rfl ?_).2.2
  intro g g' _ hg hsum hstep
  obtain ⟨-, hinter⟩ := hstep
  rw [hinter.length_insts hg, hinter.size_insts]
  omega

theorem Demoted.demotable {rank : ValueId → Nat} (h : f.Demoted f') (hf : f.Demotable rank) :
    f'.Demotable rank := by
  refine (h.invariant (P := fun g => g.Demotable rank) hf.sound hf ?_).2.2
  intro g g' _ _ hg hstep
  obtain ⟨hval, hinter⟩ := hstep
  exact hg.interposes hinter hval

/-- Nothing is done to a function without constant expressions as operands. -/
theorem demote_of_flat (hf : f.Sound) (hclosed : f.graph.Closed) (hflat : ∀ i ∈ f.insts, f.Flat i) :
    f.demote = .ok (false, f) := by
  have hslot : ∀ i ∈ f.insts, ∀ slot, f.HasSlot i slot →
      demoteOperand i ([], f) slot = .ok ([], f) := by
    intro i hi slot hslot
    obtain ⟨v, hv⟩ := hslot
    obtain ⟨val, hval⟩ := (hclosed i slot v hv).exists_value
    refine bind_eq_ok_iff.2 ⟨v, hv, bind_eq_ok_iff.2 ⟨val, hval, ?_⟩⟩
    cases val with
    | expr e ty => exact absurd hval (hflat i hi slot v e ty hv)
    | _ => rfl
  have hinst : ∀ i ∈ f.insts, demoteInst ([], f) i = .ok ([], f) := by
    intro i hi
    obtain ⟨b, hb⟩ := hf.mem_insts.1 hi
    obtain ⟨inst, hinst⟩ := hf.exists_inst hb
    refine bind_eq_ok_iff.2 ⟨inst, hinst, foldlM_idle fun slot hmem => ?_⟩
    exact hslot i hi slot ((hasSlot_iff hinst).2 (List.mem_range.1 hmem))
  have hround : f.insts.foldlM demoteInst ([], f) = .ok ([], f) := foldlM_idle hinst
  have hrounds : demoteRounds (f.graph.values.size + 1) f.insts f = .ok (0, f) := by
    cases hinsts : f.insts with
    | nil => rfl
    | cons i rest =>
        rw [hinsts] at hround
        refine bind_eq_ok_iff.2 ⟨_, hround, bind_eq_ok_iff.2 ⟨(0, f), ?_, rfl⟩⟩
        cases f.graph.values.size <;> rfl
  exact bind_eq_ok_iff.2 ⟨_, hrounds, rfl⟩

/-- What demotion of a function comes to: as many instructions as there are constant expressions in
its operands, and no constant expressions left, so that nothing is left to do. -/
structure FixedBy (f : Function) (f' : Function) : Prop where
  run : demoteRounds (f.graph.values.size + 1) f.insts f = .ok (f.exprNodes, f')
  flat : ∀ i ∈ f'.insts, f'.Flat i
  placed : f'.insts.length = f.insts.length + f.exprNodes
  size : f'.graph.insts.size = f.graph.insts.size + f.exprNodes
  again : f'.demote = .ok (false, f')

theorem Sound.exists_fixedBy (hf : f.Sound) (hclosed : f.graph.Closed)
    (hparts : f.graph.PartsExist) (hphis : f.PhisPlaced) (hacyclic : f.graph.Acyclic) :
    ∃ f', f.FixedBy f' := by
  obtain ⟨changed, f', hdemote, hflat⟩ := hf.demote_flat hclosed hparts hphis hacyclic
  obtain ⟨⟨count, _⟩, hrounds, hrest⟩ := bind_eq_ok_iff.1 hdemote
  cases pure_eq_ok_iff.1 hrest
  have hrun : f.Demoted f' := (demoteRounds_many hrounds).demoted hf
  have hstart : f.Accounted f.graph.exprNodes (f.insts.length + f.exprNodes) f.insts :=
    ⟨hf, hf.graph.weighs hparts hacyclic, fun i hi => hi, rfl⟩
  have hend := hstart.demoteRounds hrounds
  have hplaced : f'.insts.length = f.insts.length + f.exprNodes := by
    rw [← hend.balance, totalWeight_of_flat hend.weighs hflat, Nat.add_zero]
  have hlength := hrun.length_insts hf
  have hsize : f'.graph.insts.size = f.graph.insts.size + f.exprNodes := by omega
  have hcount : count = f.exprNodes := by
    have hgrown := (demoteRounds_many hrounds).grown.size
    omega
  have hdemotable : f'.Demotable f.graph.depth :=
    hrun.demotable ⟨hf, hclosed, hparts, hphis, fun v w => hacyclic.depth_lt hparts⟩
  subst hcount
  exact ⟨f', hrounds, hflat, hplaced, hsize, demote_of_flat hend.sound hdemotable.closed hflat⟩

end Function

/-! ## The worklist -/

/-- A worklist of the instructions whose operands are to be demoted, with the number of operands
that were. It is kept from one function to the next. -/
structure Demoter where
  worklist : List InstId
  demoted : Nat

namespace Demoter

variable {d d' : Demoter} {f f' : Function} {i : InstId} {work made made' : List InstId} {n : Nat}

/-- The demoter at the start of a function, whatever the function before it has left. -/
def start (_ : Demoter) (f : Function) : Demoter := ⟨f.insts, 0⟩

/-- A turn demotes the operands of the first instruction of the worklist. The instructions that it
makes queue up at the end. -/
inductive Turn : Demoter × Function → Demoter × Function → Prop
  | intro {i : InstId} {rest made : List InstId} {n : Nat} {f f' : Function} :
      Function.demoteInst ([], f) i = .ok (made, f') →
      Turn (⟨i :: rest, n⟩, f) (⟨rest ++ made, n + made.length⟩, f')

/-- Turn after turn is taken until the worklist is empty. -/
def RunsOn (d : Demoter) (f : Function) (d' : Demoter) (f' : Function) : Prop :=
  Relation.ReflTransGen Turn (d.start f, f) (d', f') ∧ d'.worklist = []

/-- The demoter goes from function to function. The answer is whether an operand was demoted. -/
inductive Runs : Demoter → List Function → Bool → Demoter → List Function → Prop
  | nil {d : Demoter} : Runs d [] false d []
  | cons {d d' d'' : Demoter} {f f' : Function} {fs fs' : List Function} {changed : Bool} :
      d.RunsOn f d' f' → Runs d' fs changed d'' fs' →
      Runs d (f :: fs) (decide (0 < d'.demoted) || changed) d'' (f' :: fs')

/-- The demoter goes through the functions of a module. -/
def RunsThrough (d : Demoter) (m : Module) (changed : Bool) (m' : Module) : Prop :=
  ∃ d' fs, d.Runs m.funcs.toList changed d' fs ∧ m' = { m with funcs := fs.toArray }

/-! A demoter has one way to run. -/

theorem rightUnique_turn : Relator.RightUnique Turn := by
  intro s t t' h h'
  cases h with
  | intro hrun =>
      cases h' with
      | intro hrun' =>
          cases hrun.symm.trans hrun'
          rfl

theorem eq_of_turns {s t : Demoter × Function} (h : Relation.ReflTransGen Turn s t)
    (hs : s.1.worklist = []) : t = s := by
  cases h.cases_head with
  | inl heq => exact heq.symm
  | inr hturn =>
      obtain ⟨_, hturn, -⟩ := hturn
      cases hturn
      cases hs

theorem RunsOn.unique {d₁ d₂ : Demoter} {f₁ f₂ : Function} (h : d.RunsOn f d₁ f₁)
    (h' : d.RunsOn f d₂ f₂) : d₂ = d₁ ∧ f₂ = f₁ := by
  have heq : (d₂, f₂) = (d₁, f₁) := by
    rcases Relation.ReflTransGen.total_of_right_unique rightUnique_turn h.1 h'.1 with
      hlater | hlater
    · exact eq_of_turns hlater h.2
    · exact (eq_of_turns hlater h'.2).symm
  exact Prod.mk.inj heq

/-! The rounds of demotion are turns. -/

/-- A step that appends to the instructions made so far and is not affected by them. -/
def Appends {α : Type} (step : List InstId × Function → α → Except Fault (List InstId × Function)) :
    Prop :=
  ∀ made f a made' f', step (made, f) a = .ok (made', f') →
    ∃ new, made' = made ++ new ∧ ∀ before, step (before, f) a = .ok (before ++ new, f')

theorem appends_demoteOperand (user : InstId) : Appends (Function.demoteOperand user) := by
  intro made f slot made' f' h
  obtain ⟨arg, harg, hrest⟩ := bind_eq_ok_iff.1 h
  obtain ⟨val, hval, hrest⟩ := bind_eq_ok_iff.1 hrest
  cases val with
  | expr e ty =>
      obtain ⟨loc, hloc, hrest⟩ := bind_eq_ok_iff.1 hrest
      obtain ⟨⟨ins, mid⟩, hinsert, hrest⟩ := bind_eq_ok_iff.1 hrest
      obtain ⟨v, hv⟩ := Function.result_of_insert hinsert
      simp only [hv] at hrest
      obtain ⟨f'', hset, hrest⟩ := bind_eq_ok_iff.1 hrest
      cases pure_eq_ok_iff.1 hrest
      refine ⟨[ins.inst], rfl, fun before => bind_eq_ok_iff.2 ⟨arg, harg, bind_eq_ok_iff.2
        ⟨_, hval, bind_eq_ok_iff.2 ⟨loc, hloc, bind_eq_ok_iff.2 ⟨_, hinsert, ?_⟩⟩⟩⟩⟩
      simp only [hv]
      exact bind_eq_ok_iff.2 ⟨f', hset, rfl⟩
  | _ =>
      cases pure_eq_ok_iff.1 hrest
      refine ⟨[], (List.append_nil made).symm, fun before => ?_⟩
      rw [List.append_nil]
      exact bind_eq_ok_iff.2 ⟨arg, harg, bind_eq_ok_iff.2 ⟨_, hval, rfl⟩⟩

theorem Appends.foldlM {α : Type}
    {step : List InstId × Function → α → Except Fault (List InstId × Function)}
    (h : Appends step) {xs : List α} (hrun : xs.foldlM step (made, f) = .ok (made', f')) :
    ∃ new, made' = made ++ new ∧
      ∀ before, xs.foldlM step (before, f) = .ok (before ++ new, f') := by
  induction xs generalizing made f with
  | nil =>
      cases pure_eq_ok_iff.1 hrun
      refine ⟨[], (List.append_nil _).symm, fun before => ?_⟩
      rw [List.append_nil]
      rfl
  | cons a xs ih =>
      rw [List.foldlM_cons] at hrun
      obtain ⟨⟨made₁, f₁⟩, hfirst, hrest⟩ := bind_eq_ok_iff.1 hrun
      obtain ⟨new, rfl, hagain⟩ := h made f a made₁ f₁ hfirst
      obtain ⟨more, rfl, hmore⟩ := ih hrest
      refine ⟨new ++ more, by rw [List.append_assoc], fun before => ?_⟩
      rw [List.foldlM_cons, ← List.append_assoc]
      exact bind_eq_ok_iff.2 ⟨_, hagain before, hmore (before ++ new)⟩

theorem appends_demoteInst : Appends Function.demoteInst := by
  intro made f i made' f' h
  obtain ⟨inst, hinst, hloop⟩ := bind_eq_ok_iff.1 h
  obtain ⟨new, hmade, hnew⟩ := (appends_demoteOperand i).foldlM hloop
  exact ⟨new, hmade, fun before => bind_eq_ok_iff.2 ⟨inst, hinst, hnew before⟩⟩

/-- A round takes the instructions of `work` off the worklist, and queues up what it makes. -/
theorem turns_of_round (h : work.foldlM Function.demoteInst (made, f) = .ok (made', f')) (n : Nat) :
    Relation.ReflTransGen Turn (⟨work ++ made, n + made.length⟩, f)
      (⟨made', n + made'.length⟩, f') := by
  induction work generalizing made f with
  | nil =>
      cases pure_eq_ok_iff.1 h
      exact .refl
  | cons i work ih =>
      rw [List.foldlM_cons] at h
      obtain ⟨⟨made₁, f₁⟩, hfirst, hrest⟩ := bind_eq_ok_iff.1 h
      obtain ⟨new, rfl, hagain⟩ := appends_demoteInst made f i made₁ f₁ hfirst
      have hturn : Turn (⟨i :: (work ++ made), n + made.length⟩, f)
          (⟨(work ++ made) ++ new, n + made.length + new.length⟩, f₁) := .intro (hagain [])
      refine .head hturn ?_
      have hafter := ih hrest
      rwa [List.length_append, ← Nat.add_assoc, ← List.append_assoc] at hafter

theorem turns_of_rounds {rounds count : Nat}
    (h : Function.demoteRounds rounds work f = .ok (count, f')) (n : Nat) :
    Relation.ReflTransGen Turn (⟨work, n⟩, f) (⟨[], n + count⟩, f') := by
  induction rounds generalizing work f n count with
  | zero =>
      cases work with
      | nil => cases h; exact .refl
      | cons => cases h
  | succ rounds ih =>
      cases work with
      | nil => cases h; exact .refl
      | cons i rest =>
          obtain ⟨⟨made, g⟩, hround, hrest⟩ := bind_eq_ok_iff.1 h
          obtain ⟨⟨k, g'⟩, hrounds, hrest⟩ := bind_eq_ok_iff.1 hrest
          cases pure_eq_ok_iff.1 hrest
          have hfirst := turns_of_round hround n
          rw [List.append_nil] at hfirst
          have hmore := ih hrounds (n + made.length)
          rw [Nat.add_assoc] at hmore
          exact hfirst.trans hmore

/-- On each function the demoter does what the rounds do. -/
theorem runsOn_iff {changed : Bool} (h : f.demote = .ok (changed, f')) :
    ∃ count, changed = decide (0 < count) ∧
      ∀ (d d' : Demoter) (f'' : Function), d.RunsOn f d' f'' ↔ d' = ⟨[], count⟩ ∧ f'' = f' := by
  obtain ⟨⟨count, _⟩, hrounds, hrest⟩ := bind_eq_ok_iff.1 h
  cases pure_eq_ok_iff.1 hrest
  have hrun : ∀ d : Demoter, d.RunsOn f ⟨[], count⟩ f' := by
    intro d
    have hturns := turns_of_rounds hrounds 0
    rw [Nat.zero_add] at hturns
    exact ⟨hturns, rfl⟩
  refine ⟨count, rfl, fun d d' f'' => ⟨(hrun d).unique, ?_⟩⟩
  rintro ⟨rfl, rfl⟩
  exact hrun d

theorem runs_iff {fs fs' : List Function} {results : List (Bool × Function)} {changed : Bool}
    (h : List.Forall₂ (fun f r => f.demote = .ok r) fs results) :
    (∃ d', d.Runs fs changed d' fs') ↔ changed = results.any (·.1) ∧ fs' = results.map (·.2) := by
  induction h generalizing d changed fs' with
  | nil =>
      constructor
      · rintro ⟨d', hrun⟩
        cases hrun
        exact ⟨rfl, rfl⟩
      · rintro ⟨rfl, rfl⟩
        exact ⟨d, .nil⟩
  | @cons f r fs results hf _ ih =>
      obtain ⟨count, hcount, hrunsOn⟩ := runsOn_iff hf
      rw [List.any_cons, List.map_cons, hcount]
      constructor
      · rintro ⟨d', hrun⟩
        cases hrun with
        | cons hfirst hrest =>
            obtain ⟨rfl, rfl⟩ := (hrunsOn _ _ _).1 hfirst
            obtain ⟨rfl, rfl⟩ := ih.1 ⟨_, hrest⟩
            exact ⟨rfl, rfl⟩
      · rintro ⟨rfl, rfl⟩
        obtain ⟨d', hrest⟩ := (ih (d := ⟨[], count⟩)).2 ⟨rfl, rfl⟩
        exact ⟨d', .cons ((hrunsOn d _ _).2 ⟨rfl, rfl⟩) hrest⟩

/-- Whatever is left in the demoter, it does to a module what demotion does. -/
theorem runsThrough_iff {m m' m'' : Module} {changed changed' : Bool}
    (h : m.demote = .ok (changed, m')) :
    d.RunsThrough m changed' m'' ↔ changed' = changed ∧ m'' = m' := by
  obtain ⟨results, hresults, hrest⟩ := bind_eq_ok_iff.1 h
  cases pure_eq_ok_iff.1 hrest
  have hruns : ∀ fs, (∃ d', d.Runs m.funcs.toList changed' d' fs) ↔
      changed' = results.any (·.1) ∧ fs = results.map (·.2) :=
    fun fs => runs_iff (mapM_eq_ok_iff.1 hresults)
  constructor
  · rintro ⟨d', fs, hrun, rfl⟩
    obtain ⟨rfl, rfl⟩ := (hruns fs).1 ⟨d', hrun⟩
    exact ⟨rfl, rfl⟩
  · rintro ⟨rfl, rfl⟩
    obtain ⟨d', hrun⟩ := (hruns _).2 ⟨rfl, rfl⟩
    exact ⟨d', _, hrun, rfl⟩

end Demoter

/-! ## Modules -/

namespace Module

variable {m : Module}

/-- How many constant expressions the operands of a module are made of, each counted as often as it
occurs. -/
def exprNodes (m : Module) : Nat := (m.funcs.toList.map Function.exprNodes).sum

theorem demote_of_functions_eq (run : Function → Bool × Function)
    (h : ∀ f ∈ m.funcs.toList, f.demote = .ok (run f)) :
    m.demote = .ok (m.funcs.toList.any fun f => (run f).1,
      { m with funcs := (m.funcs.toList.map fun f => (run f).2).toArray }) := by
  have hmap : m.funcs.toList.mapM Function.demote = .ok (m.funcs.toList.map run) := by
    rw [mapM_eq_ok_iff, List.forall₂_map_right_iff, List.forall₂_same]
    exact h
  refine bind_eq_ok_iff.2 ⟨_, hmap, ?_⟩
  rw [List.any_map, List.map_map]
  rfl

/-- Demotion ends well and is done then, on every module whose operands, parts of constant
expressions and phi blocks exist and whose constant expressions do not contain themselves. It makes
one instruction for each constant expression in the trees of the operands, says whether there was
one, and leaves none as an operand. A demoter with a worklist comes to the same, whatever is left in
it, and nothing changes in a second run. -/
theorem demotion_reaches_fixed_point (hm : ∀ id f, m.func id = .ok f → f.Sound ∧
      f.graph.Closed ∧ f.graph.PartsExist ∧ f.PhisPlaced ∧ f.graph.Acyclic) :
    ∃ changed m', m.demote = .ok (changed, m') ∧ m'.demote = .ok (false, m') ∧
      (changed = true ↔ 0 < m.exprNodes) ∧
      (∀ id f, m.func id = .ok f → ∃ f', m'.func id = .ok f' ∧ (∀ i ∈ f'.insts, f'.Flat i) ∧
        f'.insts.length = f.insts.length + f.exprNodes ∧
        f'.graph.insts.size = f.graph.insts.size + f.exprNodes ∧
        ∀ v, ∃ t, f.graph.Unfolds f.graph.insts.size v t ∧ f.graph.exprNodes v = t.nodes) ∧
      ∀ (d : Demoter) again m'',
        (d.RunsThrough m again m'' ↔ again = changed ∧ m'' = m') ∧
        (d.RunsThrough m' again m'' ↔ again = false ∧ m'' = m') := by
  have hfuncs : ∀ f ∈ m.funcs.toList, ∃ f', f.FixedBy f' := by
    intro f hmem
    obtain ⟨n, hn⟩ := List.mem_iff_getElem?.1 hmem
    rw [Array.getElem?_toList] at hn
    obtain ⟨hf, hclosed, hparts, hphis, hacyclic⟩ := hm ⟨n⟩ f (func_eq_ok.2 hn)
    exact hf.exists_fixedBy hclosed hparts hphis hacyclic
  choose! fixed hfixed using hfuncs
  have hfirst : m.demote = .ok (m.funcs.toList.any (0 < ·.exprNodes),
      { m with funcs := (m.funcs.toList.map fixed).toArray }) :=
    demote_of_functions_eq (fun f => (decide (0 < f.exprNodes), fixed f))
      fun f hf => bind_eq_ok_iff.2 ⟨_, (hfixed f hf).run, rfl⟩
  generalize hm' : ({ m with funcs := (m.funcs.toList.map fixed).toArray } : Module) = m' at hfirst
  have hfuncs' : m'.funcs.toList = m.funcs.toList.map fixed := by rw [← hm']
  have hsecond : m'.demote = .ok (false, m') := by
    rw [demote_of_functions_eq fun f' => (false, f')]
    · simp
    · intro f' hf'
      rw [hfuncs'] at hf'
      obtain ⟨f, hf, rfl⟩ := List.mem_map.1 hf'
      exact (hfixed f hf).again
  refine ⟨_, m', hfirst, hsecond, ?_, fun id f hf => ?_, fun d again m'' =>
    ⟨Demoter.runsThrough_iff hfirst, Demoter.runsThrough_iff hsecond⟩⟩
  · -- The sum over the functions is positive if one of them has something to demote.
    simp only [List.any_eq_true, decide_eq_true_eq, exprNodes, List.sum_pos_iff_exists_pos_nat,
      List.mem_map, exists_exists_and_eq_and]
  · have hn : m.funcs.toList[id.index]? = some f := by
      rw [Array.getElem?_toList]
      exact func_eq_ok.1 hf
    have hfix := hfixed f (List.mem_of_getElem? hn)
    obtain ⟨hsound, -, hparts, -, hacyclic⟩ := hm id f hf
    refine ⟨fixed f, func_eq_ok.2 ?_, hfix.flat, hfix.placed, hfix.size, fun v => ?_⟩
    · rw [← Array.getElem?_toList, hfuncs', List.getElem?_map, hn, Option.map_some]
    · obtain ⟨t, ht⟩ := hsound.graph.exists_unfolds hparts hacyclic v
      exact ⟨t, ht, hsound.graph.exprNodes_eq hparts hacyclic ht⟩

/-- A nested constant address has two operands made of it, the one of a load and the one of a phi,
so that four instructions are made. The demoter is one that was left in the middle of a run. -/
theorem demotion_reaches_fixed_point_addressOfNull : ∃ m m' f f',
    Function.addressOfNull = .ok m ∧ m.func ⟨0⟩ = .ok f ∧ m'.func ⟨0⟩ = .ok f' ∧
    (∀ id g, m.func id = .ok g → g.Sound ∧ g.graph.Closed ∧ g.graph.PartsExist ∧ g.PhisPlaced ∧
      g.graph.Acyclic) ∧
    m.exprNodes = 4 ∧ m.demote = .ok (true, m') ∧ m'.demote = .ok (false, m') ∧
    f'.insts.length = f.insts.length + 4 ∧
    Demoter.RunsThrough ⟨[⟨7⟩], 3⟩ m true m' ∧ Demoter.RunsThrough ⟨[⟨7⟩], 3⟩ m' false m' := by
  have hrun : succeeds Function.addressOfNull (fun m => succeeds (m.func ⟨0⟩) fun f =>
      m.exprNodes = 4 && f.exprNodes = 4 && m.funcs.toList.all fun g =>
        g.graph.checkClosed && g.checkPhis && g.graph.checkParts fun v w => w.index < v.index) =
      true := by
    decide +kernel
  obtain ⟨m, hm, hrun⟩ := exists_of_succeeds hrun
  obtain ⟨f, hf, hrun⟩ := exists_of_succeeds hrun
  simp only [Bool.and_eq_true, decide_eq_true_eq] at hrun
  obtain ⟨⟨hcount, hcountOf⟩, hcheck⟩ := hrun
  have hgood : ∀ id g, m.func id = .ok g → g.Sound ∧ g.graph.Closed ∧ g.graph.PartsExist ∧
      g.PhisPlaced ∧ g.graph.Acyclic := by
    intro id g hg
    have hmem : g ∈ m.funcs.toList := by
      rw [Array.mem_toList_iff]
      exact Array.mem_of_getElem? (func_eq_ok.1 hg)
    have hchecked := List.all_eq_true.1 hcheck g hmem
    simp only [Bool.and_eq_true] at hchecked
    obtain ⟨⟨hclosed, hphis⟩, hparts⟩ := hchecked
    obtain ⟨hexist, hacyclic⟩ := Graph.acyclic_of_checkParts hparts
    exact ⟨(built_of_ofItems hm).sound hg, Graph.closed_of_checkClosed hclosed, hexist,
      Function.phisPlaced_of_checkPhis hphis, hacyclic⟩
  obtain ⟨changed, m', hdemote, hagain, hchanged, hfuncs, hdemoter⟩ :=
    demotion_reaches_fixed_point hgood
  obtain rfl : changed = true := hchanged.2 (by rw [hcount]; decide)
  obtain ⟨f', hf', -, hlength, -⟩ := hfuncs ⟨0⟩ f hf
  rw [hcountOf] at hlength
  exact ⟨m, m', f, f', hm, hf, hf', hgood, hcount, hdemote, hagain, hlength,
    (hdemoter ⟨[⟨7⟩], 3⟩ true m').1.2 ⟨rfl, rfl⟩, (hdemoter ⟨[⟨7⟩], 3⟩ false m').2.2 ⟨rfl, rfl⟩⟩

end Module

end Pointee
