import Pointee.Immediate
import Pointee.Ty.Store

/-!
# Constants

Module-level constants are trees. They initialise global variables, and they serve as samples in
the element type annotation of a function.
-/

namespace Pointee

/-- A module-level constant. -/
inductive Constant where
  | imm (value : Immediate)
  /-- The null pointer of an address space. -/
  | null (space : AddrSpace)
  | undef (ty : Ty)
  /-- The all-zero value of a type. -/
  | zero (ty : Ty)
  /-- The address of a global variable. -/
  | global (id : GlobalId)
  /-- The address of a function. -/
  | func (id : FuncId)
  | array (elemTy : Ty) (elems : List Constant)
  | vector (elemTy : Ty) (elems : List Constant)
  | struct (ty : Ty) (fields : List Constant)

namespace Constant

instance : Inhabited Constant := ⟨null .generic⟩

/-- The constants that an aggregate is made of. -/
def elems : Constant → List Constant
  | array _ elems => elems
  | vector _ elems => elems
  | struct _ fields => fields
  | _ => []

/-- Whether a constant is made of others. -/
def isAggregate : Constant → Bool
  | array .. | vector .. | struct .. => true
  | _ => false

end Constant

end Pointee
