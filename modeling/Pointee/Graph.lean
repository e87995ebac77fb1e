import Pointee.Fault
import Pointee.Table
import Pointee.Value

/-!
# The data-flow graph

The graph holds a function's values and instructions, which value each instruction defines, and
which instructions consume each value. Consumers are kept as a set in order of instruction, for
values that do not exist yet as well: an instruction may name a value made later. An index of the
constants beside the values finds a constant that was made before.
-/

namespace Pointee

/-- Values, instructions, and who defines and consumes what. -/
structure Graph where
  /-- How many blocks were made. -/
  blockCount : Nat
  values : Array Value
  insts : Array Inst
  /-- The value that an instruction defines. -/
  results : Table (Option ValueId)
  /-- The values of constants, all but constant expressions. -/
  constants : List (Value × ValueId)
  /-- The instructions that consume a value, in order. -/
  users : Table (List InstId)

namespace Graph

/-- The graph that holds nothing. -/
def empty : Graph := ⟨0, #[], #[], .empty, [], .empty⟩

instance : Inhabited Graph := ⟨empty⟩

/-! ## Queries -/

/-- The value behind an id. -/
def value (g : Graph) (v : ValueId) : Except Fault Value := require g.values[v.index]? .outOfBounds

/-- The instruction behind an id. -/
def inst (g : Graph) (i : InstId) : Except Fault Inst := require g.insts[i.index]? .outOfBounds

/-- The static type of a value. -/
def typeOf (g : Graph) (v : ValueId) : Except Fault Ty := Value.ty <$> g.value v

/-- The address space of a pointer value; other values have none. -/
def spaceOf (g : Graph) (v : ValueId) : Except Fault (Option AddrSpace) := Ty.space? <$> g.typeOf v

/-- The value that an instruction defines. -/
def result? (g : Graph) (i : InstId) : Option ValueId := g.results.get i.index

/-- The instructions that consume a value, in order. -/
def usersOf (g : Graph) (v : ValueId) : List InstId := g.users.get v.index

/-- Operand `slot` of an instruction. -/
def operand (g : Graph) (i : InstId) (slot : Nat) : Except Fault ValueId := do
  require (← g.inst i).operands[slot]? .outOfBounds

/-- The values with their ids, in order of creation. -/
def valueList (g : Graph) : List (ValueId × Value) :=
  g.values.toList.zipIdx.map fun (value, i) => (⟨i⟩, value)

/-- The type of the result that an instruction computes. -/
def resultType (g : Graph) : Inst → Except Fault (Option Ty)
  | .unary _ arg => some <$> g.typeOf arg
  | .binary op lhs _ => if op.isComparison then .ok (some .i1) else some <$> g.typeOf lhs
  | .cast _ _ ty => .ok (some ty)
  | .load _ ty => .ok (some ty)
  | .phi ty _ => .ok (some ty)
  | .rmw _ _ value => some <$> g.typeOf value
  | .cmpxchg _ _ replacement => some <$> g.typeOf replacement
  | .gep _ _ [] => .error .outOfBounds
  | .gep _ _ (base :: _) => some <$> g.typeOf base
  | .alloca _ space => .ok (some (.ptr space))
  | .call _ _ retTy => .ok (if retTy.isUnit then none else some retTy)
  | .select _ onTrue _ => some <$> g.typeOf onTrue
  | .store .. | .jump .. | .branch .. | .ret .. => .ok none

/-! ## Consumers -/

/-- Adds an instruction to an ordered set of them. -/
def insertUser (i : InstId) : List InstId → List InstId
  | [] => [i]
  | j :: rest =>
      if i.index < j.index then i :: j :: rest
      else if i = j then j :: rest
      else j :: insertUser i rest

theorem mem_insertUser {i k : InstId} {users : List InstId} :
    k ∈ insertUser i users ↔ k = i ∨ k ∈ users := by
  induction users with
  | nil => simp [insertUser]
  | cons j rest ih =>
      unfold insertUser
      split
      · simp
      · split
        · next h => subst h; simp
        · simp only [List.mem_cons, ih]
          constructor
          · rintro (h | h | h) <;> simp [h]
          · rintro (h | h | h) <;> simp [h]

/-- Records that `i` consumes `v`. -/
def addUser (g : Graph) (v : ValueId) (i : InstId) : Graph :=
  { g with users := g.users.modify v.index (insertUser i) }

/-- Records that `i` does not consume `v`. -/
def removeUser (g : Graph) (v : ValueId) (i : InstId) : Graph :=
  { g with users := g.users.modify v.index (·.filter (· ≠ i)) }

theorem usersOf_addUser (g : Graph) (v w : ValueId) (i : InstId) :
    (g.addUser v i).usersOf w = if v = w then insertUser i (g.usersOf w) else g.usersOf w := by
  simp [usersOf, addUser, Table.get_modify, ValueId.ext_iff]

theorem usersOf_removeUser (g : Graph) (v w : ValueId) (i : InstId) :
    (g.removeUser v i).usersOf w =
      if v = w then (g.usersOf w).filter (· ≠ i) else g.usersOf w := by
  simp [usersOf, removeUser, Table.get_modify, ValueId.ext_iff]

/-- Records that `i` consumes each of `vs`. -/
def addUses (g : Graph) (i : InstId) (vs : List ValueId) : Graph :=
  vs.foldl (fun g v => g.addUser v i) g

/-- Records that `i` consumes none of `vs`. -/
def removeUses (g : Graph) (i : InstId) (vs : List ValueId) : Graph :=
  vs.foldl (fun g v => g.removeUser v i) g

/-- Records `i` with all its operands. -/
def track (g : Graph) (i : InstId) : Except Fault Graph := do
  return g.addUses i (← g.inst i).operands

/-- Forgets `i` at all its operands. -/
def untrack (g : Graph) (i : InstId) : Except Fault Graph := do
  return g.removeUses i (← g.inst i).operands

/-! ## Making values and instructions -/

/-- Makes a new block. -/
def addBlock (g : Graph) : BlockId × Graph :=
  (⟨g.blockCount⟩, { g with blockCount := g.blockCount + 1 })

/-- Makes a new value. -/
def addValue (g : Graph) (value : Value) : ValueId × Graph :=
  (⟨g.values.size⟩, { g with values := g.values.push value })

/-- The value of a constant, which is made unless the index has it. -/
def intern (g : Graph) (value : Value) : ValueId × Graph :=
  match g.constants.lookup value with
  | some v => (v, g)
  | none =>
      let (v, g) := g.addValue value
      (v, { g with constants := (value, v) :: g.constants })

/-- Makes a constant expression, a new value each time. -/
def addExpr (g : Graph) (e : ConstExpr) : Except Fault (ValueId × Graph) := do
  let ty ← match e with
    | .gep _ _ args => do g.typeOf (← require args[0]? .outOfBounds)
    | .cast _ _ ty => pure ty
  return g.addValue (.expr e ty)

/-- Makes an instruction. -/
def addInst (g : Graph) (inst : Inst) : InstId × Graph :=
  let i : InstId := ⟨g.insts.size⟩
  (i, { g with insts := g.insts.push inst }.addUses i inst.operands)

/-- Makes the value that `i` defines, if it computes one. -/
def addResult (g : Graph) (i : InstId) : Except Fault (Option ValueId × Graph) := do
  match ← g.resultType (← g.inst i) with
  | none => return (none, g)
  | some ty =>
      let (v, g) := g.addValue (.inst i ty)
      return (some v, { g with results := g.results.set i.index (some v) })

/-! ## Changing instructions -/

/-- Puts another instruction in the place of `i`, which keeps its result. -/
def replaceInst (g : Graph) (i : InstId) (inst : Inst) : Except Fault Graph := do
  let g ← g.untrack i
  return { g with insts := g.insts.setIfInBounds i.index inst }.addUses i inst.operands

/-- Makes `new` operand `slot` of `i`. -/
def setOperand (g : Graph) (i : InstId) (slot : Nat) (new : ValueId) : Except Fault Graph := do
  let inst ← g.inst i
  let old ← require inst.operands[slot]? .outOfBounds
  if old = new then return g
  let inst := inst.setOperand slot new
  let g := { g with insts := g.insts.setIfInBounds i.index inst }
  let g := if old ∈ inst.operands then g else g.removeUser old i
  return g.addUser new i

/-- Appends an incoming value to a phi. -/
def appendIncoming (g : Graph) (i : InstId) (v : ValueId) (b : BlockId) : Except Fault Graph := do
  match ← g.inst i with
  | .phi ty incoming =>
      let inst := Inst.phi ty (incoming ++ [(v, b)])
      return { g with insts := g.insts.setIfInBounds i.index inst }.addUser v i
  | _ => throw .notPhi

end Graph

end Pointee
