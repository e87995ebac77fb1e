import Mathlib.Data.List.Basic
import Pointee.Graph
import Pointee.Proofs.Outcome

/-!
# Consistency of the data-flow graph

`Graph.Sound` says that the tables of a graph agree with each other: results and values name each
other, the recorded consumers of a value are the instructions that have it as an operand, and the
static type of a constant expression is the one its instruction computes. Every operation on the
graph keeps this. `Graph.Tracked` is the part about consumers, which does not depend on the others.
What an operation does to a single row is said by the equations before it.
-/

namespace Pointee

namespace Inst

/-- The instruction without its operands: its kind, its fields and how many operands it has. -/
def shape (inst : Inst) : Inst := inst.mapOperands fun _ _ => ⟨0⟩

theorem shape_mapOperands (f : Nat → ValueId → ValueId) (inst : Inst) :
    (inst.mapOperands f).shape = inst.shape := by
  cases inst with
  | phi ty incoming => simp [shape, mapOperands, List.mapIdx_mapIdx, Function.comp_def]
  | gep source result args => simp [shape, mapOperands, List.mapIdx_mapIdx, Function.comp_def]
  | call callee args retTy => simp [shape, mapOperands, List.mapIdx_mapIdx, Function.comp_def]
  | ret value => cases value <;> rfl
  | _ => rfl

@[simp] theorem shape_setOperand (inst : Inst) (i : Nat) (v : ValueId) :
    (inst.setOperand i v).shape = inst.shape := shape_mapOperands _ _

theorem length_operands_shape (inst : Inst) :
    inst.shape.operands.length = inst.operands.length := by
  rw [shape, operands_mapOperands, List.length_mapIdx]

theorem length_operands_of_shape {inst inst' : Inst} (h : inst'.shape = inst.shape) :
    inst'.operands.length = inst.operands.length := by
  rw [← length_operands_shape, h, length_operands_shape]

/-- Mapping every operand to itself changes nothing. -/
theorem mapOperands_eq_self {f : Nat → ValueId → ValueId} {inst : Inst}
    (h : ∀ i v, inst.operands[i]? = some v → f i v = v) : inst.mapOperands f = inst := by
  have hlist : ∀ args : List ValueId, (∀ i v, args[i]? = some v → f i v = v) →
      args.mapIdx f = args := by
    intro args hargs
    apply List.ext_getElem?
    intro i
    rw [List.getElem?_mapIdx]
    cases hi : args[i]? with
    | none => rfl
    | some v => simp [hargs i v hi]
  cases inst with
  | gep source result args => simp [mapOperands, hlist args h]
  | call callee args retTy => simp [mapOperands, hlist args h]
  | phi ty incoming =>
      simp only [mapOperands, phi.injEq, true_and]
      apply List.ext_getElem?
      intro i
      rw [List.getElem?_mapIdx]
      cases hi : incoming[i]? with
      | none => rfl
      | some p => simp [h i p.1 (by simp [operands, hi])]
  | ret value => cases value <;> simp_all [mapOperands, operands]
  | unary | cast | load | branch => simp [mapOperands, h 0 _ rfl]
  | binary | store | rmw => simp [mapOperands, h 0 _ rfl, h 1 _ rfl]
  | cmpxchg | select => simp [mapOperands, h 0 _ rfl, h 1 _ rfl, h 2 _ rfl]
  | alloca | jump => rfl

theorem setOperand_self {inst : Inst} {i : Nat} {v : ValueId} (h : inst.operands[i]? = some v) :
    inst.setOperand i v = inst := by
  apply mapOperands_eq_self
  intro j w hj
  split
  · next heq =>
      subst heq
      exact Option.some.inj (h.symm.trans hj)
  · rfl

end Inst

namespace Value

/-- Whether the value is a constant that is shared: no result, argument or constant expression. -/
def isShared : Value → Bool
  | imm .. | global .. | func .. | null .. | undef .. => true
  | inst .. | arg .. | expr .. => false

theorem inst?_of_isShared {val : Value} (h : val.isShared = true) : val.inst? = none := by
  cases val with
  | inst id ty => cases h
  | _ => rfl

end Value

namespace Graph

variable {g g' : Graph} {i j : InstId} {v w : ValueId} {inst : Inst}

/-! ## Reading the tables -/

theorem value_eq_ok {val : Value} : g.value v = .ok val ↔ g.values[v.index]? = some val :=
  require_eq_ok_iff

theorem inst_eq_ok : g.inst i = .ok inst ↔ g.insts[i.index]? = some inst := require_eq_ok_iff

theorem inst_lt (h : g.inst i = .ok inst) : i.index < g.insts.size :=
  (Array.getElem?_eq_some_iff.1 (inst_eq_ok.1 h)).1

theorem exists_inst (h : i.index < g.insts.size) : ∃ inst, g.inst i = .ok inst :=
  ⟨g.insts[i.index], inst_eq_ok.2 (Array.getElem?_eq_getElem h)⟩

/-- The value exists. -/
def Has (g : Graph) (v : ValueId) : Prop := v.index < g.values.size

theorem has_of_value {val : Value} (h : g.value v = .ok val) : g.Has v :=
  (Array.getElem?_eq_some_iff.1 (value_eq_ok.1 h)).1

theorem Has.exists_value (h : g.Has v) : ∃ val, g.value v = .ok val :=
  ⟨g.values[v.index], value_eq_ok.2 (Array.getElem?_eq_getElem h)⟩

theorem typeOf_eq_ok {ty : Ty} :
    g.typeOf v = .ok ty ↔ ∃ val, g.value v = .ok val ∧ val.ty = ty := by
  unfold typeOf
  cases g.value v <;> simp

theorem operand_eq_ok {slot : Nat} :
    g.operand i slot = .ok v ↔ ∃ inst, g.inst i = .ok inst ∧ inst.operands[slot]? = some v := by
  unfold operand
  cases g.inst i with
  | error fault => simp [bind, Except.bind]
  | ok inst => simp [bind, Except.bind, require_eq_ok_iff]

/-- An instruction with the shape of another one. -/
theorem inst_of_shape_eq (h : Inst.shape <$> g'.inst i = Inst.shape <$> g.inst i)
    (hinst : g.inst i = .ok inst) : ∃ inst', g'.inst i = .ok inst' ∧ inst'.shape = inst.shape := by
  rw [hinst] at h
  exact map_eq_ok_iff.1 h

/-- The id of the next instruction. -/
def nextInst (g : Graph) : InstId := ⟨g.insts.size⟩

/-- The id of the next value. -/
def nextValue (g : Graph) : ValueId := ⟨g.values.size⟩

/-- Values that exist in `g` have the same content in `g'`. -/
def Keeps (g g' : Graph) : Prop := ∀ v val, g.value v = .ok val → g'.value v = .ok val

theorem Keeps.refl (g : Graph) : g.Keeps g := fun _ _ h => h

theorem Keeps.trans {g'' : Graph} (h : g.Keeps g') (h' : g'.Keeps g'') : g.Keeps g'' :=
  fun v val hv => h' v val (h v val hv)

theorem Keeps.typeOf (h : g.Keeps g') {ty : Ty} (hty : g.typeOf v = .ok ty) :
    g'.typeOf v = .ok ty := by
  obtain ⟨val, hval, rfl⟩ := typeOf_eq_ok.1 hty
  exact typeOf_eq_ok.2 ⟨val, h v val hval, rfl⟩

theorem Keeps.has (h : g.Keeps g') (hv : g.Has v) : g'.Has v := by
  obtain ⟨val, hval⟩ := hv.exists_value
  exact has_of_value (h v val hval)

theorem Keeps.value_eq (h : g.Keeps g') (hv : g.Has v) : g'.value v = g.value v := by
  obtain ⟨val, hval⟩ := hv.exists_value
  rw [hval, h v val hval]

/-- What an instruction computes depends on the types of its operands alone. -/
theorem Keeps.resultType (h : g.Keeps g') {ty : Option Ty} (hty : g.resultType inst = .ok ty) :
    g'.resultType inst = .ok ty := by
  have hmap : ∀ {v : ValueId} {ty : Option Ty}, some <$> g.typeOf v = .ok ty →
      some <$> g'.typeOf v = .ok ty := by
    intro v ty hv
    cases hg : g.typeOf v with
    | error fault => rw [hg] at hv; cases hv
    | ok t => rw [h.typeOf hg]; rw [hg] at hv; exact hv
  cases inst with
  | unary | rmw | cmpxchg | select => exact hmap hty
  | binary op lhs rhs =>
      simp only [Graph.resultType] at hty ⊢
      split
      · next hop => simpa [hop] using hty
      · next hop => exact hmap (by simpa [hop] using hty)
  | gep source result args =>
      cases args with
      | nil => exact hty
      | cons base rest => exact hmap hty
  | _ => exact hty

/-! ## Consumers -/

theorem pairwise_insertUser {users : List InstId}
    (h : users.Pairwise fun a b => a.index < b.index) :
    (insertUser i users).Pairwise fun a b => a.index < b.index := by
  induction users with
  | nil => simp [insertUser]
  | cons j rest ih =>
      obtain ⟨hj, hrest⟩ := List.pairwise_cons.1 h
      unfold insertUser
      split
      · next hlt =>
          refine List.pairwise_cons.2 ⟨?_, h⟩
          intro k hk
          rcases List.mem_cons.1 hk with rfl | hk
          · exact hlt
          · exact Nat.lt_trans hlt (hj k hk)
      · split
        · exact h
        · next hlt hne =>
            refine List.pairwise_cons.2 ⟨?_, ih hrest⟩
            intro k hk
            rcases mem_insertUser.1 hk with rfl | hk
            · have : k.index ≠ j.index := fun heq => hne (InstId.ext heq)
              omega
            · exact hj k hk

/-- Recording consumers changes nothing else. -/
@[simp] theorem addUses_frame (g : Graph) (i : InstId) (vs : List ValueId) :
    (g.addUses i vs).values = g.values ∧ (g.addUses i vs).insts = g.insts ∧
      (g.addUses i vs).results = g.results := by
  induction vs generalizing g with
  | nil => exact ⟨rfl, rfl, rfl⟩
  | cons v vs ih => exact ih (g.addUser v i)

/-- Forgetting consumers changes nothing else. -/
@[simp] theorem removeUses_frame (g : Graph) (i : InstId) (vs : List ValueId) :
    (g.removeUses i vs).values = g.values ∧ (g.removeUses i vs).insts = g.insts ∧
      (g.removeUses i vs).results = g.results := by
  induction vs generalizing g with
  | nil => exact ⟨rfl, rfl, rfl⟩
  | cons v vs ih => exact ih (g.removeUser v i)

theorem mem_usersOf_addUser {k : InstId} :
    k ∈ (g.addUser v i).usersOf w ↔ k ∈ g.usersOf w ∨ (k = i ∧ w = v) := by
  rw [usersOf_addUser]
  split
  · next h => subst h; rw [mem_insertUser]; tauto
  · next h => simp [Ne.symm h]

theorem mem_usersOf_removeUser {k : InstId} :
    k ∈ (g.removeUser v i).usersOf w ↔ k ∈ g.usersOf w ∧ ¬(k = i ∧ w = v) := by
  rw [usersOf_removeUser]
  split
  · next h => subst h; simp
  · next h => simp [Ne.symm h]

theorem mem_usersOf_addUses {k : InstId} {vs : List ValueId} :
    k ∈ (g.addUses i vs).usersOf w ↔ k ∈ g.usersOf w ∨ (k = i ∧ w ∈ vs) := by
  induction vs generalizing g with
  | nil => simp [addUses]
  | cons v vs ih =>
      show k ∈ ((g.addUser v i).addUses i vs).usersOf w ↔ _
      rw [ih, mem_usersOf_addUser, List.mem_cons]
      tauto

theorem mem_usersOf_removeUses {k : InstId} {vs : List ValueId} :
    k ∈ (g.removeUses i vs).usersOf w ↔ k ∈ g.usersOf w ∧ ¬(k = i ∧ w ∈ vs) := by
  induction vs generalizing g with
  | nil => simp [removeUses]
  | cons v vs ih =>
      show k ∈ ((g.removeUser v i).removeUses i vs).usersOf w ↔ _
      rw [ih, mem_usersOf_removeUser, List.mem_cons]
      tauto

/-- The consumers of every value are listed in order, each once. -/
def UsersSorted (g : Graph) : Prop := ∀ v, (g.usersOf v).Pairwise fun i j => i.index < j.index

theorem UsersSorted.addUser (h : g.UsersSorted) : (g.addUser v i).UsersSorted := by
  intro w
  rw [usersOf_addUser]
  split
  · exact pairwise_insertUser (h w)
  · exact h w

theorem UsersSorted.removeUser (h : g.UsersSorted) : (g.removeUser v i).UsersSorted := by
  intro w
  rw [usersOf_removeUser]
  split
  · exact (h w).filter _
  · exact h w

theorem UsersSorted.addUses (h : g.UsersSorted) (vs : List ValueId) :
    (g.addUses i vs).UsersSorted := by
  induction vs generalizing g with
  | nil => exact h
  | cons v vs ih => exact ih h.addUser

theorem UsersSorted.removeUses (h : g.UsersSorted) (vs : List ValueId) :
    (g.removeUses i vs).UsersSorted := by
  induction vs generalizing g with
  | nil => exact h
  | cons v vs ih => exact ih h.removeUser

/-- The recorded consumers of a value are the instructions that have it as an operand, in order and
each once. -/
structure Tracked (g : Graph) : Prop where
  mem_users : ∀ v i, i ∈ g.usersOf v ↔ ∃ inst, g.inst i = .ok inst ∧ v ∈ inst.operands
  users_sorted : g.UsersSorted

/-- An instruction that exists consumes its operands. -/
theorem Tracked.mem_usersOf_iff (hg : g.Tracked) (hinst : g.inst i = .ok inst) :
    i ∈ g.usersOf w ↔ w ∈ inst.operands := by
  rw [hg.mem_users, hinst]
  simp

/-- Tracking is about instructions and their consumers only. -/
theorem Tracked.congr (hg : g.Tracked) (hinsts : g'.insts = g.insts) (husers : g'.users = g.users) :
    g'.Tracked := by
  have hinst : ∀ i, g'.inst i = g.inst i := fun i => by rw [inst, hinsts]; rfl
  have hof : ∀ v, g'.usersOf v = g.usersOf v := fun v => by rw [usersOf, husers]; rfl
  refine ⟨fun v i => ?_, fun v => ?_⟩
  · rw [hof, hinst]
    exact hg.mem_users v i
  · rw [hof]
    exact hg.users_sorted v

theorem tracked_empty : empty.Tracked := by
  refine ⟨fun v i => ?_, fun v => List.Pairwise.nil⟩
  constructor
  · exact fun hi => absurd hi List.not_mem_nil
  · rintro ⟨inst, hinst, -⟩
    exact absurd (inst_lt hinst) (Nat.not_lt_zero _)

/-! ## Results -/

/-- The values that instructions define and the instructions that define values agree. -/
structure Attached (g : Graph) : Prop where
  result_iff : ∀ i v, g.result? i = some v ↔ ∃ ty, g.value v = .ok (.inst i ty)
  defined_lt : ∀ v i ty, g.value v = .ok (.inst i ty) → i.index < g.insts.size

namespace Attached

theorem congr (hg : g.Attached) (hvalues : g'.values = g.values) (hresults : g'.results = g.results)
    (hsize : g'.insts.size = g.insts.size) : g'.Attached := by
  have hvalue : ∀ v, g'.value v = g.value v := fun v => by rw [value, hvalues]; rfl
  refine ⟨fun j v => ?_, fun v j ty hv => ?_⟩
  · rw [hvalue, ← hg.result_iff, result?, hresults]
    rfl
  · rw [hsize]
    exact hg.defined_lt v j ty (hvalue v ▸ hv)

theorem result?_eq_none (hg : g.Attached) (h : g.insts.size ≤ i.index) : g.result? i = none := by
  cases hr : g.result? i with
  | none => rfl
  | some v =>
      obtain ⟨ty, hv⟩ := (hg.result_iff i v).1 hr
      exact absurd (hg.defined_lt v i ty hv) (by omega)

end Attached

/-! ## Sound graphs -/

/-- The tables of a graph agree with each other. -/
structure Sound (g : Graph) : Prop where
  /-- An instruction defines a value exactly if the value says so. -/
  result_iff : ∀ i v, g.result? i = some v ↔ ∃ ty, g.value v = .ok (.inst i ty)
  /-- A value is defined by an instruction that exists. -/
  defined_lt : ∀ v i ty, g.value v = .ok (.inst i ty) → i.index < g.insts.size
  /-- The recorded consumers of a value are the instructions that have it as an operand. -/
  mem_users : ∀ v i, i ∈ g.usersOf v ↔ ∃ inst, g.inst i = .ok inst ∧ v ∈ inst.operands
  users_sorted : g.UsersSorted
  /-- A constant expression has the type that its instruction computes. -/
  expr_type : ∀ v e ty, g.value v = .ok (.expr e ty) → g.resultType e.toInst = .ok (some ty)

theorem Sound.tracked (hg : g.Sound) : g.Tracked := ⟨hg.mem_users, hg.users_sorted⟩

theorem Sound.attached (hg : g.Sound) : g.Attached := ⟨hg.result_iff, hg.defined_lt⟩

theorem Sound.mem_usersOf (hg : g.Sound) : i ∈ g.usersOf v ↔ ∃ slot, g.operand i slot = .ok v := by
  rw [hg.mem_users]
  constructor
  · intro ⟨inst, hinst, hv⟩
    obtain ⟨slot, hslot⟩ := List.mem_iff_getElem?.1 hv
    exact ⟨slot, operand_eq_ok.2 ⟨inst, hinst, hslot⟩⟩
  · intro ⟨slot, hop⟩
    obtain ⟨inst, hinst, hslot⟩ := operand_eq_ok.1 hop
    exact ⟨inst, hinst, List.mem_of_getElem? hslot⟩

theorem Sound.result_inj (hg : g.Sound) {j : InstId} (hi : g.result? i = some v)
    (hj : g.result? j = some v) : i = j := by
  obtain ⟨ty, hval⟩ := (hg.result_iff i v).1 hi
  obtain ⟨ty', hval'⟩ := (hg.result_iff j v).1 hj
  cases hval.symm.trans hval'
  rfl

theorem result?_eq_none (hg : g.Sound) (h : g.insts.size ≤ i.index) : g.result? i = none :=
  hg.attached.result?_eq_none h

theorem Sound.addBlock (hg : g.Sound) : g.addBlock.2.Sound :=
  ⟨hg.result_iff, hg.defined_lt, hg.mem_users, hg.users_sorted, hg.expr_type⟩

theorem value_addValue (g : Graph) (val : Value) (v : ValueId) :
    (g.addValue val).2.value v = if v = g.nextValue then .ok val else g.value v := by
  simp only [value, addValue, Array.getElem?_push, ValueId.ext_iff, nextValue]
  split <;> rfl

theorem value_nextValue (g : Graph) (val : Value) :
    (g.addValue val).2.value g.nextValue = .ok val := by
  rw [value_addValue, if_pos rfl]

theorem keeps_addValue (g : Graph) (val : Value) : g.Keeps (g.addValue val).2 := by
  intro v w hv
  rw [value_addValue, if_neg]
  · exact hv
  · rintro rfl
    exact absurd (has_of_value hv) (Nat.lt_irrefl _)

/-- A value that no instruction defines may be added. -/
theorem Attached.addValue (hg : g.Attached) {val : Value} (hval : val.inst? = none) :
    (g.addValue val).2.Attached where
  result_iff i v := by
    rw [value_addValue]
    show g.result? i = some v ↔ _
    rw [hg.result_iff]
    split
    · next h =>
        subst h
        constructor
        · rintro ⟨ty, hv⟩
          exact absurd (has_of_value hv) (Nat.lt_irrefl _)
        · rintro ⟨ty, hv⟩
          injection hv with hv
          subst hv
          cases hval
    · exact Iff.rfl
  defined_lt v i ty hv := by
    rw [value_addValue] at hv
    split at hv
    · injection hv with hv
      subst hv
      cases hval
    · exact hg.defined_lt v i ty hv

theorem Sound.addValue (hg : g.Sound) {val : Value} (hval : val.inst? = none)
    (hexpr : ∀ e ty, val = .expr e ty → g.resultType e.toInst = .ok (some ty)) :
    (g.addValue val).2.Sound where
  result_iff := (hg.attached.addValue hval).result_iff
  defined_lt := (hg.attached.addValue hval).defined_lt
  mem_users := hg.mem_users
  users_sorted := hg.users_sorted
  expr_type v e ty hv := by
    apply (keeps_addValue g val).resultType
    rw [value_addValue] at hv
    split at hv
    · injection hv with hv
      exact hexpr e ty hv
    · exact hg.expr_type v e ty hv

/-- A constant that is shared may be made. -/
theorem Sound.intern (hg : g.Sound) {val : Value} (hval : val.isShared = true) :
    (g.intern val).2.Sound := by
  unfold Graph.intern
  split
  · exact hg
  · have hadd : (g.addValue val).2.Sound := by
      refine hg.addValue (Value.inst?_of_isShared hval) fun e ty heq => ?_
      rw [heq] at hval
      cases hval
    exact ⟨hadd.result_iff, hadd.defined_lt, hadd.mem_users, hadd.users_sorted, hadd.expr_type⟩

/-- A constant expression is a new value, of the type that its instruction computes. -/
theorem addExpr_eq_ok {e : ConstExpr} (h : g.addExpr e = .ok (v, g')) :
    ∃ ty, g.resultType e.toInst = .ok (some ty) ∧ g.addValue (.expr e ty) = (v, g') := by
  cases e with
  | cast op arg ty => exact ⟨ty, rfl, pure_eq_ok_iff.1 h⟩
  | gep source result args =>
      cases args with
      | nil => cases h
      | cons base rest =>
          obtain ⟨_, hbase, h⟩ := bind_eq_ok_iff.1 h
          cases hbase
          obtain ⟨ty, hty, h⟩ := bind_eq_ok_iff.1 h
          refine ⟨ty, ?_, pure_eq_ok_iff.1 h⟩
          exact map_eq_ok_iff.2 ⟨ty, hty, rfl⟩

theorem Sound.addExpr (hg : g.Sound) {e : ConstExpr} (h : g.addExpr e = .ok (v, g')) :
    g'.insts = g.insts ∧ g'.Sound := by
  obtain ⟨ty, hty, hadd⟩ := addExpr_eq_ok h
  obtain rfl : (g.addValue (.expr e ty)).2 = g' := by rw [hadd]
  refine ⟨rfl, hg.addValue rfl fun e' ty' heq => ?_⟩
  cases heq
  exact hty

/-! ## Instructions -/

theorem values_addInst (g : Graph) (inst : Inst) : (g.addInst inst).2.values = g.values :=
  (addUses_frame ..).1

theorem inst_addInst (g : Graph) (inst : Inst) (j : InstId) :
    (g.addInst inst).2.inst j = if j = g.nextInst then .ok inst else g.inst j := by
  simp only [Graph.inst, addInst, addUses_frame, Array.getElem?_push, InstId.ext_iff, nextInst]
  split <;> rfl

theorem mem_usersOf_addInst {k : InstId} :
    k ∈ (g.addInst inst).2.usersOf w ↔ k ∈ g.usersOf w ∨ (k = g.nextInst ∧ w ∈ inst.operands) :=
  mem_usersOf_addUses

theorem Tracked.addInst (hg : g.Tracked) (inst : Inst) : (g.addInst inst).2.Tracked where
  mem_users v i := by
    rw [mem_usersOf_addInst, hg.mem_users, inst_addInst]
    split
    · next heq =>
        subst heq
        constructor
        · rintro (⟨old, hold, _⟩ | ⟨_, hv⟩)
          · exact absurd (inst_lt hold) (Nat.lt_irrefl _)
          · exact ⟨inst, rfl, hv⟩
        · rintro ⟨new, hnew, hv⟩
          cases hnew
          exact .inr ⟨rfl, hv⟩
    · next hne => simp [hne]
  users_sorted := by
    have hsorted : { g with insts := g.insts.push inst }.UsersSorted := hg.users_sorted
    exact hsorted.addUses _

theorem Attached.addInst (hg : g.Attached) (inst : Inst) : (g.addInst inst).2.Attached where
  result_iff i v := by
    show (g.addInst inst).2.results.get i.index = some v ↔ _
    simp only [Graph.addInst, Graph.value, addUses_frame]
    exact hg.result_iff i v
  defined_lt v i ty hv := by
    simp only [Graph.addInst, Graph.value, addUses_frame, Array.size_push] at hv ⊢
    exact Nat.lt_succ_of_lt (hg.defined_lt v i ty hv)

theorem Sound.addInst (hg : g.Sound) (inst : Inst) : (g.addInst inst).2.Sound where
  result_iff := (hg.attached.addInst inst).result_iff
  defined_lt := (hg.attached.addInst inst).defined_lt
  mem_users := (hg.tracked.addInst inst).mem_users
  users_sorted := (hg.tracked.addInst inst).users_sorted
  expr_type v e ty hv := by
    have hkeeps : g.Keeps (g.addInst inst).2 := by
      intro v val hval
      simpa [Graph.addInst, Graph.value] using hval
    refine hkeeps.resultType (hg.expr_type v e ty ?_)
    simpa [Graph.addInst, Graph.value] using hv

/-- What `addResult` did: nothing for an instruction that computes nothing, else one value. -/
theorem addResult_eq_ok {r : Option ValueId} (h : g.addResult i = .ok (r, g')) :
    ∃ inst ty, g.inst i = .ok inst ∧ g.resultType inst = .ok ty ∧
      (ty = none ∧ r = none ∧ g' = g ∨
        ∃ t, ty = some t ∧ r = some g.nextValue ∧
          g' = { g with values := g.values.push (.inst i t)
                        results := g.results.set i.index (some g.nextValue) }) := by
  unfold addResult at h
  obtain ⟨inst, hinst, h⟩ := bind_eq_ok_iff.1 h
  obtain ⟨ty, hty, h⟩ := bind_eq_ok_iff.1 h
  refine ⟨inst, ty, hinst, hty, ?_⟩
  cases ty with
  | none =>
      obtain ⟨rfl, rfl⟩ := Prod.mk.inj (pure_eq_ok_iff.1 h)
      exact .inl ⟨rfl, rfl, rfl⟩
  | some t =>
      obtain ⟨rfl, rfl⟩ := Prod.mk.inj (pure_eq_ok_iff.1 h)
      exact .inr ⟨t, rfl, rfl, rfl⟩

/-- An instruction that computes something defines the next value. -/
theorem addResult_of_resultType {ty : Ty} (hinst : g.inst i = .ok inst)
    (hty : g.resultType inst = .ok (some ty)) :
    g.addResult i = .ok (some g.nextValue,
      { g with values := g.values.push (.inst i ty)
               results := g.results.set i.index (some g.nextValue) }) :=
  bind_eq_ok_iff.2 ⟨inst, hinst, bind_eq_ok_iff.2 ⟨some ty, hty, rfl⟩⟩

/-- Adding a result makes at most one value, which the instruction defines. -/
theorem value_addResult {r : Option ValueId} (h : g.addResult i = .ok (r, g')) {val : Value}
    (hv : g'.value v = .ok val) : g.value v = .ok val ∨ ∃ ty, val = .inst i ty := by
  obtain ⟨_, _, -, -, ⟨-, -, rfl⟩ | ⟨t, -, -, rfl⟩⟩ := addResult_eq_ok h
  · exact .inl hv
  · have hv : (g.addValue (.inst i t)).2.value v = .ok val := hv
    rw [value_addValue] at hv
    split at hv
    · cases hv
      exact .inr ⟨t, rfl⟩
    · exact .inl hv

/-- The value that a new instruction defines may be added. -/
theorem Attached.addResult (hg : g.Attached) (hnone : g.result? i = none) {r : Option ValueId}
    (h : g.addResult i = .ok (r, g')) : g'.Attached := by
  obtain ⟨inst, ty, hinst, -, ⟨-, -, rfl⟩ | ⟨t, -, -, rfl⟩⟩ := addResult_eq_ok h
  · exact hg
  · have hvalue : ∀ v, Graph.value { g with
          values := g.values.push (.inst i t)
          results := g.results.set i.index (some g.nextValue) } v =
        if v = g.nextValue then .ok (.inst i t) else g.value v := value_addValue g (.inst i t)
    refine ⟨fun j v => ?_, fun v j ty hv => ?_⟩
    · rw [hvalue]
      show (g.results.set i.index (some g.nextValue)).get j.index = some v ↔ _
      rw [Table.get_set]
      by_cases hij : i = j
      · subst hij
        rw [if_pos rfl]
        split
        · next hv => simp [hv]
        · next hv =>
            constructor
            · intro heq
              exact absurd (Option.some.inj heq).symm hv
            · intro hold
              rw [← hg.result_iff, hnone] at hold
              cases hold
      · rw [if_neg (fun heq => hij (InstId.ext heq))]
        show g.result? j = some v ↔ _
        rw [hg.result_iff]
        split
        · next hv =>
            subst hv
            constructor
            · rintro ⟨ty, hv⟩
              exact absurd (has_of_value hv) (Nat.lt_irrefl _)
            · rintro ⟨ty, hv⟩
              cases hv
              exact absurd rfl hij
        · exact Iff.rfl
    · rw [hvalue] at hv
      split at hv
      · cases hv
        exact inst_lt hinst
      · exact hg.defined_lt v j ty hv

theorem Sound.addResult (hg : g.Sound) (hnone : g.result? i = none) {r : Option ValueId}
    (h : g.addResult i = .ok (r, g')) : g'.Sound := by
  have hattached := hg.attached.addResult hnone h
  obtain ⟨inst, ty, hinst, -, ⟨-, -, rfl⟩ | ⟨t, -, -, rfl⟩⟩ := addResult_eq_ok h
  · exact hg
  · refine ⟨hattached.result_iff, hattached.defined_lt, hg.mem_users, hg.users_sorted, ?_⟩
    intro v e ty hv
    refine (keeps_addValue g (.inst i t)).resultType (hg.expr_type v e ty ?_)
    rcases value_addResult h hv with hold | ⟨t', hnew⟩
    · exact hold
    · cases hnew

/-! ## Changing instructions -/

theorem inst_of_set {new : Inst} (hi : i.index < g.insts.size)
    (hinsts : g'.insts = g.insts.setIfInBounds i.index new) (j : InstId) :
    g'.inst j = if j = i then .ok new else g.inst j := by
  simp only [Graph.inst, hinsts, Array.getElem?_setIfInBounds]
  split
  · next h => simp [InstId.ext h.symm]
  · next h => rw [if_neg (fun heq => h (congrArg InstId.index heq).symm)]

/-- Consumers stay tracked when one instruction changes and its consumers are recorded anew. -/
theorem Tracked.of_set (hg : g.Tracked) {new : Inst} (hi : i.index < g.insts.size)
    (hinsts : g'.insts = g.insts.setIfInBounds i.index new)
    (husers : ∀ w k, k ∈ g'.usersOf w ↔ k ≠ i ∧ k ∈ g.usersOf w ∨ k = i ∧ w ∈ new.operands)
    (hsorted : g'.UsersSorted) : g'.Tracked := by
  refine ⟨fun v j => ?_, hsorted⟩
  rw [husers, hg.mem_users, inst_of_set hi hinsts]
  by_cases hj : j = i
  · simp [hj]
  · simp [hj]

/-- A graph stays sound when instructions change and their consumers stay tracked. -/
theorem Sound.of_tracked (hg : g.Sound) (hvalues : g'.values = g.values)
    (hresults : g'.results = g.results) (hsize : g'.insts.size = g.insts.size)
    (htracked : g'.Tracked) : g'.Sound := by
  have hvalue : ∀ v, g'.value v = g.value v := fun v => by rw [value, hvalues]; rfl
  have hattached := hg.attached.congr hvalues hresults hsize
  refine ⟨hattached.result_iff, hattached.defined_lt, htracked.mem_users, htracked.users_sorted, ?_⟩
  intro v e ty hv
  refine Keeps.resultType (fun w val hw => ?_) (hg.expr_type v e ty (hvalue v ▸ hv))
  rw [hvalue]
  exact hw

/-- `g'` is `g` with `v` as operand `slot` of `i`. -/
structure Rewires (g : Graph) (i : InstId) (slot : Nat) (v : ValueId) (g' : Graph) : Prop where
  values : g'.values = g.values
  results : g'.results = g.results
  insts : ∃ inst, g.inst i = .ok inst ∧ slot < inst.operands.length ∧
    g'.insts = g.insts.setIfInBounds i.index (inst.setOperand slot v)
  sound : g.Sound → g'.Sound

namespace Rewires

variable {slot : Nat}

theorem value_eq (h : g.Rewires i slot v g') (w : ValueId) : g'.value w = g.value w := by
  rw [value, h.values]
  rfl

theorem result?_eq (h : g.Rewires i slot v g') (j : InstId) : g'.result? j = g.result? j := by
  rw [result?, h.results]
  rfl

theorem size_insts (h : g.Rewires i slot v g') : g'.insts.size = g.insts.size := by
  obtain ⟨inst, -, -, hinsts⟩ := h.insts
  rw [hinsts, Array.size_setIfInBounds]

theorem inst_of_ne (h : g.Rewires i slot v g') (hj : j ≠ i) : g'.inst j = g.inst j := by
  obtain ⟨inst, hinst, -, hinsts⟩ := h.insts
  rw [inst_of_set (inst_lt hinst) hinsts, if_neg hj]

theorem inst_self (h : g.Rewires i slot v g') (hinst : g.inst i = .ok inst) :
    slot < inst.operands.length ∧ g'.inst i = .ok (inst.setOperand slot v) := by
  obtain ⟨inst', hinst', hslot, hinsts⟩ := h.insts
  cases hinst.symm.trans hinst'
  exact ⟨hslot, by rw [inst_of_set (inst_lt hinst) hinsts, if_pos rfl]⟩

/-- The operand at the place is the new one, and all others stay. -/
theorem operand_eq (h : g.Rewires i slot v g') (j : InstId) (s : Nat) :
    g'.operand j s = if j = i ∧ s = slot then .ok v else g.operand j s := by
  obtain ⟨inst, hinst, hslot, -⟩ := h.insts
  by_cases hj : j = i
  · subst hj
    simp only [operand, (h.inst_self hinst).2, hinst]
    show require ((inst.setOperand slot v).operands[s]?) Fault.outOfBounds = _
    rw [Inst.operands_setOperand]
    by_cases hs : s = slot
    · subst hs
      rw [List.getElem?_set_self hslot]
      simp
    · rw [List.getElem?_set_ne (Ne.symm hs), if_neg (fun hand => hs hand.2)]
      rfl
  · rw [operand, h.inst_of_ne hj, if_neg (fun hand => hj hand.1)]
    rfl

/-- Every instruction keeps its kind and its fields. -/
theorem shape_eq (h : g.Rewires i slot v g') (j : InstId) :
    Inst.shape <$> g'.inst j = Inst.shape <$> g.inst j := by
  obtain ⟨inst, hinst, -⟩ := h.insts
  by_cases hj : j = i
  · subst hj
    rw [(h.inst_self hinst).2, hinst]
    exact congrArg Except.ok (Inst.shape_setOperand inst slot v)
  · rw [h.inst_of_ne hj]

end Rewires

theorem setIfInBounds_inst (hinst : g.inst i = .ok inst) :
    g.insts.setIfInBounds i.index inst = g.insts := by
  apply Array.ext_getElem?
  intro k
  rw [Array.getElem?_setIfInBounds]
  split
  · next heq =>
      subst heq
      rw [if_pos (inst_lt hinst), inst_eq_ok.1 hinst]
  · rfl

/-- What `setOperand` did: nothing if the operand is there already, else the instruction changes,
and it is a consumer of the old operand only as far as it has it elsewhere. -/
theorem setOperand_eq_ok {slot : Nat} (h : g.setOperand i slot v = .ok g') :
    ∃ inst old, g.inst i = .ok inst ∧ inst.operands[slot]? = some old ∧
      (old = v ∧ g' = g ∨ old ≠ v ∧ ∃ g₁,
        g₁ = { g with insts := g.insts.setIfInBounds i.index (inst.setOperand slot v) } ∧
        g' = (if old ∈ (inst.setOperand slot v).operands then g₁
          else g₁.removeUser old i).addUser v i) := by
  unfold setOperand at h
  obtain ⟨inst, hinst, hrest⟩ := bind_eq_ok_iff.1 h
  obtain ⟨old, hold, hrest⟩ := bind_eq_ok_iff.1 hrest
  refine ⟨inst, old, hinst, require_eq_ok_iff.1 hold, ?_⟩
  by_cases heq : old = v
  · rw [if_pos heq] at hrest
    exact .inl ⟨heq, (pure_eq_ok_iff.1 hrest).symm⟩
  · rw [if_neg heq] at hrest
    exact .inr ⟨heq, _, rfl, (pure_eq_ok_iff.1 hrest).symm⟩

/-- Setting an operand changes the instruction and nothing but its consumers. -/
theorem setOperand_frame {slot : Nat} (h : g.setOperand i slot v = .ok g') :
    g'.values = g.values ∧ g'.results = g.results ∧ ∃ inst, g.inst i = .ok inst ∧
      slot < inst.operands.length ∧
      g'.insts = g.insts.setIfInBounds i.index (inst.setOperand slot v) := by
  obtain ⟨inst, old, hinst, hold, ⟨rfl, rfl⟩ | ⟨-, g₁, rfl, rfl⟩⟩ := setOperand_eq_ok h
  · refine ⟨rfl, rfl, inst, hinst, (List.getElem?_eq_some_iff.1 hold).1, ?_⟩
    rw [Inst.setOperand_self hold, setIfInBounds_inst hinst]
  · have hslot := (List.getElem?_eq_some_iff.1 hold).1
    split <;> exact ⟨rfl, rfl, inst, hinst, hslot, rfl⟩

theorem Tracked.setOperand (hg : g.Tracked) {slot : Nat} (h : g.setOperand i slot v = .ok g') :
    g'.Tracked := by
  obtain ⟨inst, old, hinst, hold, ⟨-, rfl⟩ | ⟨-, g₁, rfl, rfl⟩⟩ := setOperand_eq_ok h
  · exact hg
  · have hslot : slot < inst.operands.length := (List.getElem?_eq_some_iff.1 hold).1
    refine hg.of_set (inst_lt hinst) (by split <;> rfl) ?_ ?_
    · intro w k
      have hself : i ∈ g.usersOf w ↔ w ∈ inst.operands := hg.mem_usersOf_iff hinst
      have hset : w ∈ (inst.setOperand slot v).operands → w ∈ inst.operands ∨ w = v := by
        rw [Inst.operands_setOperand]
        exact List.mem_or_eq_of_mem_set
      have hnew : v ∈ (inst.setOperand slot v).operands := by
        rw [Inst.operands_setOperand]
        exact List.mem_set hslot v
      -- Another operand than the replaced one is an operand of the new instruction as well.
      have hkept : w ∈ inst.operands → w ≠ old → w ∈ (inst.setOperand slot v).operands := by
        intro hw hne
        obtain ⟨n, hn⟩ := List.mem_iff_getElem?.1 hw
        have hnslot : slot ≠ n := by
          rintro rfl
          exact hne (Option.some.inj (hn.symm.trans hold))
        rw [Inst.operands_setOperand]
        exact List.mem_iff_getElem?.2 ⟨n, by rw [List.getElem?_set_ne hnslot, hn]⟩
      rw [mem_usersOf_addUser]
      split
      · next hmem =>
          show k ∈ g.usersOf w ∨ _ ↔ _
          by_cases hk : k = i
          · subst hk
            rw [hself]
            grind
          · simp [hk]
      · next hmem =>
          rw [mem_usersOf_removeUser]
          show k ∈ g.usersOf w ∧ _ ∨ _ ↔ _
          by_cases hk : k = i
          · subst hk
            rw [hself]
            grind
          · simp [hk]
    · split
      · exact UsersSorted.addUser (fun w => hg.users_sorted w)
      · exact UsersSorted.addUser (UsersSorted.removeUser (fun w => hg.users_sorted w))

/-- Setting an operand rewires it. -/
theorem setOperand_rewires {slot : Nat} (h : g.setOperand i slot v = .ok g') :
    g.Rewires i slot v g' := by
  obtain ⟨hvalues, hresults, inst, hinst, hslot, hinsts⟩ := setOperand_frame h
  refine ⟨hvalues, hresults, ⟨inst, hinst, hslot, hinsts⟩, fun hg => ?_⟩
  refine hg.of_tracked hvalues hresults ?_ (hg.tracked.setOperand h)
  rw [hinsts, Array.size_setIfInBounds]

/-- An operand that exists can be set. -/
theorem setOperand_isOk {slot : Nat} (hinst : g.inst i = .ok inst)
    (hslot : slot < inst.operands.length) : ∃ g', g.setOperand i slot v = .ok g' := by
  unfold setOperand
  rw [hinst]
  show ∃ g', (require inst.operands[slot]? Fault.outOfBounds >>= _) = .ok g'
  rw [List.getElem?_eq_getElem hslot]
  show ∃ g', ite _ _ _ = _
  split
  · exact ⟨_, rfl⟩
  · exact ⟨_, rfl⟩

/-- Replacing an instruction changes the instruction and nothing but its consumers. -/
theorem replaceInst_frame {new : Inst} (h : g.replaceInst i new = .ok g') :
    i.index < g.insts.size ∧ g'.values = g.values ∧ g'.results = g.results ∧
      g'.insts = g.insts.setIfInBounds i.index new := by
  unfold replaceInst untrack at h
  obtain ⟨g₁, hg₁, hrest⟩ := bind_eq_ok_iff.1 h
  obtain ⟨old, hold, hg₁⟩ := bind_eq_ok_iff.1 hg₁
  cases pure_eq_ok_iff.1 hg₁
  rw [← pure_eq_ok_iff.1 hrest]
  simp [inst_lt hold]

theorem Tracked.replaceInst (hg : g.Tracked) {new : Inst} (h : g.replaceInst i new = .ok g') :
    g'.Tracked := by
  obtain ⟨hi, -, -, hinsts⟩ := replaceInst_frame h
  unfold Graph.replaceInst untrack at h
  obtain ⟨g₁, hg₁, hrest⟩ := bind_eq_ok_iff.1 h
  obtain ⟨old, hold, hg₁⟩ := bind_eq_ok_iff.1 hg₁
  cases pure_eq_ok_iff.1 hg₁
  replace hrest := pure_eq_ok_iff.1 hrest
  refine hg.of_set hi hinsts ?_ ?_
  · intro w k
    have hself : i ∈ g.usersOf w ↔ w ∈ old.operands := hg.mem_usersOf_iff hold
    rw [← hrest, mem_usersOf_addUses]
    show k ∈ (g.removeUses i old.operands).usersOf w ∨ _ ↔ _
    rw [mem_usersOf_removeUses]
    by_cases hk : k = i
    · subst hk
      rw [hself]
      simp
    · simp [hk]
  · rw [← hrest]
    have hsorted : (g.removeUses i old.operands).UsersSorted :=
      UsersSorted.removeUses hg.users_sorted _
    apply UsersSorted.addUses
    exact hsorted

/-- Another instruction may take the place of `i`. -/
theorem replaceInst_eq_ok {new : Inst} (h : g.replaceInst i new = .ok g') :
    i.index < g.insts.size ∧ g'.values = g.values ∧ g'.results = g.results ∧
      g'.insts = g.insts.setIfInBounds i.index new ∧ (g.Sound → g'.Sound) := by
  obtain ⟨hi, hvalues, hresults, hinsts⟩ := replaceInst_frame h
  refine ⟨hi, hvalues, hresults, hinsts, fun hg => ?_⟩
  refine hg.of_tracked hvalues hresults ?_ (hg.tracked.replaceInst h)
  rw [hinsts, Array.size_setIfInBounds]

/-- Replacing an instruction by itself with another operand rewires the operand. -/
theorem replaceInst_rewires {slot : Nat} (hinst : g.inst i = .ok inst)
    (hslot : slot < inst.operands.length)
    (h : g.replaceInst i (inst.setOperand slot v) = .ok g') : g.Rewires i slot v g' := by
  obtain ⟨-, hvalues, hresults, hinsts, hsound⟩ := replaceInst_eq_ok h
  exact ⟨hvalues, hresults, ⟨inst, hinst, hslot, hinsts⟩, hsound⟩

/-- What `appendIncoming` did: the phi has one operand more, and is a consumer of it. -/
theorem appendIncoming_eq_ok {b : BlockId} (h : g.appendIncoming i v b = .ok g') :
    ∃ ty incoming, g.inst i = .ok (.phi ty incoming) ∧
      g' = { g with
        insts := g.insts.setIfInBounds i.index (.phi ty (incoming ++ [(v, b)])) }.addUser v i := by
  unfold Graph.appendIncoming at h
  obtain ⟨inst, hinst, hrest⟩ := bind_eq_ok_iff.1 h
  cases inst with
  | phi ty incoming => exact ⟨ty, incoming, hinst, (pure_eq_ok_iff.1 hrest).symm⟩
  | _ => cases hrest

theorem Tracked.appendIncoming (hg : g.Tracked) {b : BlockId}
    (h : g.appendIncoming i v b = .ok g') : g'.Tracked := by
  obtain ⟨ty, incoming, hinst, rfl⟩ := appendIncoming_eq_ok h
  refine hg.of_set (inst_lt hinst) rfl ?_ (UsersSorted.addUser fun w => hg.users_sorted w)
  intro w k
  have hself : i ∈ g.usersOf w ↔ w ∈ (Inst.phi ty incoming).operands := hg.mem_usersOf_iff hinst
  rw [mem_usersOf_addUser]
  show k ∈ g.usersOf w ∨ _ ↔ _
  by_cases hk : k = i
  · subst hk
    rw [hself]
    simp [Inst.operands]
  · simp [hk]

theorem Sound.appendIncoming (hg : g.Sound) {b : BlockId}
    (h : g.appendIncoming i v b = .ok g') : g'.insts.size = g.insts.size ∧ g'.Sound := by
  have htracked := hg.tracked.appendIncoming h
  obtain ⟨ty, incoming, -, rfl⟩ := appendIncoming_eq_ok h
  have hsize : (g.insts.setIfInBounds i.index (.phi ty (incoming ++ [(v, b)]))).size =
      g.insts.size := Array.size_setIfInBounds
  exact ⟨hsize, hg.of_tracked rfl rfl hsize htracked⟩

end Graph

end Pointee
