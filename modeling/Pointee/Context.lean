import Pointee.Declaration
import Pointee.Target

/-!
# The module context

What all functions of a module share: the target, the type store, the global variables and the
declared signatures. Globals and functions are told apart by name: a symbol is defined once, and a
function name stands for its first declaration.
-/

namespace Pointee

/-- What the functions of a module share. -/
structure Context where
  target : Target
  types : TypeStore
  globals : Array Global
  signatures : Array Signature

namespace Context

/-- The context of a module in which nothing is declared. -/
def empty (target : Target) : Context := ⟨target, .empty, #[], #[]⟩

/-- A global variable. -/
def global (ctx : Context) (g : GlobalId) : Except Fault Global :=
  require ctx.globals[g.index]? .outOfBounds

/-- The signature of a function. -/
def signature (ctx : Context) (f : FuncId) : Except Fault Signature :=
  require ctx.signatures[f.index]? (.undeclared f)

/-- The global of the given symbol. -/
def globalNamed? (ctx : Context) (symbol : String) : Option GlobalId :=
  (ctx.globals.toList.findIdx? (·.symbol = symbol)).map GlobalId.mk

/-- The function of the given name. -/
def functionNamed? (ctx : Context) (name : String) : Option FuncId :=
  (ctx.signatures.toList.findIdx? (·.name = name)).map FuncId.mk

/-- Adds a global variable, whose symbol must be new. -/
def addGlobal (ctx : Context) (global : Global) : Except Fault (GlobalId × Context) :=
  if (ctx.globalNamed? global.symbol).isSome then .error (.duplicateSymbol global.symbol)
  else .ok (⟨ctx.globals.size⟩, { ctx with globals := ctx.globals.push global })

/-- The globals with their ids, in order of declaration. -/
def globalList (ctx : Context) : List (GlobalId × Global) :=
  ctx.globals.toList.zipIdx.map fun (global, i) => (⟨i⟩, global)

/-- The text of a type. -/
def typeText (ctx : Context) (t : Ty) : Except Fault String := ctx.types.text t

/-- Changes the type store by an operation that also gives a type. -/
def withTypes {α : Type} (ctx : Context) (make : TypeStore → α × TypeStore) : α × Context :=
  let (a, types) := make ctx.types
  (a, { ctx with types })

end Context

namespace Constant

/-- The type of a constant. The types of arrays and vectors enter the type store. -/
def typeOf (ctx : Context) : Constant → StateT TypeStore (Except Fault) Ty
  | imm value => return value.ty
  | null space => return .ptr space
  | undef ty => return ty
  | zero ty => return ty
  | global id => return .ptr (← ctx.global id).space
  | func _ => return .genericPtr
  | array elemTy elems => modifyGet (·.array elemTy elems.length)
  | vector elemTy elems => modifyGet (·.vector elemTy elems.length)
  | struct ty _ => return ty

end Constant

end Pointee
