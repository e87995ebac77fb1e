import Pointee.Immediate
import Pointee.Inst

/-!
# Values

The values of a function: instruction results, arguments, and constants that stand as operands.
A constant expression folds an address computation or a cast over other constants into an operand;
`ConstExpr.toInst` is the instruction that computes the same thing.
-/

namespace Pointee

/-- A constant computation that stands as an operand. -/
inductive ConstExpr where
  | gep (source result : Ty) (args : List ValueId)
  | cast (op : CastOp) (arg : ValueId) (ty : Ty)
deriving DecidableEq

namespace ConstExpr

/-- The instruction that computes the expression. -/
def toInst : ConstExpr → Inst
  | gep source result args => .gep source result args
  | cast op arg ty => .cast op arg ty

/-- The values that the expression is built over. -/
def operands : ConstExpr → List ValueId
  | gep _ _ args => args
  | cast _ arg _ => [arg]

theorem operands_toInst (e : ConstExpr) : e.toInst.operands = e.operands := by
  cases e <;> rfl

end ConstExpr

/-- A value, with its static type. -/
inductive Value where
  /-- The result of an instruction. -/
  | inst (id : InstId) (ty : Ty)
  /-- A function argument, by position. -/
  | arg (ty : Ty) (position : Nat)
  | imm (value : Immediate)
  /-- The address of a global variable. -/
  | global (id : GlobalId) (ty : Ty)
  /-- The address of a function. -/
  | func (id : FuncId)
  /-- The null pointer of an address space. -/
  | null (space : AddrSpace)
  | undef (ty : Ty)
  | expr (e : ConstExpr) (ty : Ty)
deriving DecidableEq

namespace Value

/-- The static type of a value. -/
def ty : Value → Ty
  | inst _ ty => ty
  | arg ty _ => ty
  | imm value => value.ty
  | global _ ty => ty
  | func _ => .genericPtr
  | null space => .ptr space
  | undef ty => ty
  | expr _ ty => ty

/-- The instruction that defines the value. -/
def inst? : Value → Option InstId
  | inst id _ => some id
  | _ => none

/-- The immediate that the value is. -/
def imm? : Value → Option Immediate
  | imm value => some value
  | _ => none

/-- The global whose address the value is. -/
def global? : Value → Option GlobalId
  | global id _ => some id
  | _ => none

/-- Whether the value is computed at run time: an instruction result or an argument. -/
def isLocal : Value → Bool
  | inst .. | arg .. => true
  | _ => false

end Value

end Pointee
