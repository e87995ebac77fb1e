import Pointee.Ty

/-!
# Instructions

An instruction names its operands by value. Reading and writing the operands of any instruction
goes through `Inst.operands` and `Inst.mapOperands`, which agree by `operands_mapOperands`.
-/

namespace Pointee

/-- An operation on one value. -/
inductive UnaryOp where
  | not
  | neg
deriving DecidableEq

namespace UnaryOp

/-- The written name of an operation. -/
def name : UnaryOp → String
  | not => "not"
  | neg => "neg"

/-- All operations. -/
def all : List UnaryOp := [not, neg]

/-- The operation with the given name. -/
def named? (s : String) : Option UnaryOp := all.find? (·.name = s)

end UnaryOp

/-- An operation on two values. -/
inductive BinaryOp where
  | add
  | sub
  | mul
  | udiv
  | sdiv
  | lt
  | gt
  | slt
  | sgt
  | eq
  | ne
  | and
  | or
  | xor
deriving DecidableEq

namespace BinaryOp

/-- The written name of an operation. -/
def name : BinaryOp → String
  | add => "add"
  | sub => "sub"
  | mul => "mul"
  | udiv => "udiv"
  | sdiv => "sdiv"
  | lt => "lt"
  | gt => "gt"
  | slt => "slt"
  | sgt => "sgt"
  | eq => "eq"
  | ne => "ne"
  | and => "and"
  | or => "or"
  | xor => "xor"

/-- All operations. -/
def all : List BinaryOp :=
  [add, sub, mul, udiv, sdiv, lt, gt, slt, sgt, eq, ne, and, or, xor]

/-- The operation with the given name. -/
def named? (s : String) : Option BinaryOp := all.find? (·.name = s)

/-- Whether the operation compares its operands. -/
def isComparison : BinaryOp → Bool
  | eq | ne | lt | gt | slt | sgt => true
  | _ => false

end BinaryOp

/-- A change of type. -/
inductive CastOp where
  | sext
  | zext
  | trunc
  | bitcast
  /-- Moves a pointer to another address space. -/
  | spaceCast
  | ptrToInt
  | intToPtr
deriving DecidableEq

namespace CastOp

/-- The written name of an operation. -/
def name : CastOp → String
  | sext => "sext"
  | zext => "zext"
  | trunc => "trunc"
  | bitcast => "bitcast"
  | spaceCast => "addrspacecast"
  | ptrToInt => "ptrtoint"
  | intToPtr => "inttoptr"

/-- All operations. -/
def all : List CastOp := [sext, zext, trunc, bitcast, spaceCast, ptrToInt, intToPtr]

/-- The operation with the given name. -/
def named? (s : String) : Option CastOp := all.find? (·.name = s)

end CastOp

/-- The operation of an atomic read-modify-write. -/
inductive RmwOp where
  | xchg
  | add
  | sub
  | and
  | or
  | xor
deriving DecidableEq

namespace RmwOp

/-- The written name of an operation. -/
def name : RmwOp → String
  | xchg => "xchg"
  | add => "add"
  | sub => "sub"
  | and => "and"
  | or => "or"
  | xor => "xor"

/-- All operations. -/
def all : List RmwOp := [xchg, add, sub, and, or, xor]

/-- The operation with the given name. -/
def named? (s : String) : Option RmwOp := all.find? (·.name = s)

end RmwOp

/-- An instruction. -/
inductive Inst where
  | unary (op : UnaryOp) (arg : ValueId)
  | binary (op : BinaryOp) (lhs rhs : ValueId)
  | cast (op : CastOp) (arg : ValueId) (ty : Ty)
  /-- Reads a value of type `ty` through `ptr`. -/
  | load (ptr : ValueId) (ty : Ty)
  | store (value ptr : ValueId)
  /-- Atomic read-modify-write. -/
  | rmw (op : RmwOp) (ptr value : ValueId)
  /-- Atomic compare and exchange. -/
  | cmpxchg (ptr expected replacement : ValueId)
  /-- Address computation: the base pointer, the first operand, is stepped over `source`, and the
  result points at a `result`. -/
  | gep (source result : Ty) (args : List ValueId)
  /-- Stack allocation of a `ty`. -/
  | alloca (ty : Ty) (space : AddrSpace)
  | call (callee : FuncId) (args : List ValueId) (retTy : Ty)
  | select (cond onTrue onFalse : ValueId)
  /-- The value that comes with the block control came from. Values and blocks are two vectors,
  parallel to each other, and the pairs stand for both. A phi with more of the one than of the other
  is left out. -/
  | phi (ty : Ty) (incoming : List (ValueId × BlockId))
  | jump (dest : BlockId)
  | branch (cond : ValueId) (onTrue onFalse : BlockId)
  | ret (value : Option ValueId)
deriving DecidableEq

namespace Inst

/-- A cast of a pointer to its own type. It computes nothing; it is there to be found. -/
def marker (arg : ValueId) (ty : Ty) : Inst := .cast .bitcast arg ty

/-- The values that an instruction consumes, in order. -/
def operands : Inst → List ValueId
  | unary _ arg => [arg]
  | binary _ lhs rhs => [lhs, rhs]
  | cast _ arg _ => [arg]
  | load ptr _ => [ptr]
  | store value ptr => [value, ptr]
  | rmw _ ptr value => [ptr, value]
  | cmpxchg ptr expected replacement => [ptr, expected, replacement]
  | gep _ _ args => args
  | alloca _ _ => []
  | call _ args _ => args
  | select cond onTrue onFalse => [cond, onTrue, onFalse]
  | phi _ incoming => incoming.map (·.1)
  | jump _ => []
  | branch cond _ _ => [cond]
  | ret value => value.toList

/-- The same instruction over other operands: `f` maps each from its position. -/
def mapOperands (f : Nat → ValueId → ValueId) : Inst → Inst
  | unary op arg => unary op (f 0 arg)
  | binary op lhs rhs => binary op (f 0 lhs) (f 1 rhs)
  | cast op arg ty => cast op (f 0 arg) ty
  | load ptr ty => load (f 0 ptr) ty
  | store value ptr => store (f 0 value) (f 1 ptr)
  | rmw op ptr value => rmw op (f 0 ptr) (f 1 value)
  | cmpxchg ptr expected replacement => cmpxchg (f 0 ptr) (f 1 expected) (f 2 replacement)
  | gep source result args => gep source result (args.mapIdx f)
  | alloca ty space => alloca ty space
  | call callee args retTy => call callee (args.mapIdx f) retTy
  | select cond onTrue onFalse => select (f 0 cond) (f 1 onTrue) (f 2 onFalse)
  | phi ty incoming => phi ty (incoming.mapIdx fun i (v, b) => (f i v, b))
  | jump dest => jump dest
  | branch cond onTrue onFalse => branch (f 0 cond) onTrue onFalse
  | ret value => ret (value.map (f 0))

/-- Replaces operand `i`. An instruction without such an operand stays as it is. -/
def setOperand (inst : Inst) (i : Nat) (v : ValueId) : Inst :=
  inst.mapOperands fun j w => if j = i then v else w

/-- The position of the operand that is dereferenced or offset. -/
def pointerSlot? : Inst → Option Nat
  | load .. | rmw .. | cmpxchg .. | gep .. => some 0
  | store .. => some 1
  | _ => none

/-- Whether the instruction merges values where control flow meets. -/
def isPhi : Inst → Bool
  | phi .. => true
  | _ => false

/-- Whether the instruction ends its block. -/
def isTerminator : Inst → Bool
  | jump .. | branch .. | ret .. => true
  | _ => false

theorem operands_mapOperands (f : Nat → ValueId → ValueId) (inst : Inst) :
    (inst.mapOperands f).operands = inst.operands.mapIdx f := by
  cases inst with
  | phi ty incoming =>
      simp only [mapOperands, operands]
      apply List.ext_getElem?
      intro i
      simp only [List.getElem?_map, List.getElem?_mapIdx, Option.map_map]
      rfl
  | ret value => cases value <;> simp [mapOperands, operands]
  | _ => simp [mapOperands, operands]

/-- Replacing an operand changes the operand list at that position and nowhere else. -/
theorem operands_setOperand (inst : Inst) (i : Nat) (v : ValueId) :
    (inst.setOperand i v).operands = inst.operands.set i v := by
  rw [setOperand, operands_mapOperands]
  apply List.ext_getElem?
  intro j
  rw [List.getElem?_mapIdx, List.getElem?_set]
  by_cases h : i = j
  · subst h
    by_cases hi : i < inst.operands.length
    · simp [hi]
    · simp [hi]
  · have h' : j ≠ i := fun e => h e.symm
    simp [h, h']

end Inst

end Pointee
