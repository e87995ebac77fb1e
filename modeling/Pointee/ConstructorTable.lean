import Pointee.Symbols

/-!
# The constructor table

The table that registers constructors is an aggregate of opaque pointers whose type is rebuilt with
typed ones: each constant of its initialiser is given the type it has once its pointers are typed.
All elements of an array or a vector must come out the same. An array or vector without elements
keeps its declared element type, where a constructor entry still is a priority, a function that
takes and returns nothing, and some data.
-/

namespace Pointee

namespace Config

/-- The typed pointer type of a pointer about which nothing is known. -/
def fallbackPtr (config : Config) (space : AddrSpace) (types : TypeStore) : Ty × TypeStore :=
  (config.fallbackIn space).typedPtr types

/-- The type with fallback pointers for the opaque ones that are found in it through arrays,
vectors and structs, nested at most `depth` deep. Names of structs are lost. -/
def retypeWithin (config : Config) : Nat → Ty → StateT TypeStore (Except Fault) Ty
  | _, .ptr space => modifyGet (config.fallbackPtr space)
  | 0, .compound _ => throw .outOfBounds
  | depth + 1, .compound id => do
      match ← (← get).get id with
      | .array elem len =>
          let elem ← config.retypeWithin depth elem
          modifyGet (·.array elem len)
      | .vector elem len =>
          let elem ← config.retypeWithin depth elem
          modifyGet (·.vector elem len)
      | .struct d =>
          let fields ← d.fields.mapM (config.retypeWithin depth)
          modifyGet (·.literalStruct fields d.packed)
      | .func .. => return .compound id
      | .typedPtr .. => return .compound id
  | _, ty => return ty

/-- The type with fallback pointers for the opaque ones in it. -/
def retype (config : Config) (ty : Ty) : StateT TypeStore (Except Fault) Ty := do
  config.retypeWithin (← get).size ty

/-- The element type of an aggregate without elements. -/
def emptyElement (config : Config) (elemTy : Ty) : StateT TypeStore (Except Fault) Ty := do
  match ← (← get).resolve elemTy with
  | some (.struct ⟨_, [priority, .ptr ctorSpace, .ptr dataSpace], packed⟩) =>
      if priority.isIntegral then
        let ctor ← modifyGet (·.func [] .unit)
        let ctor ← modifyGet (Descriptor.typedPtr ⟨ctor, ctorSpace⟩)
        let data ← modifyGet (config.fallbackPtr dataSpace)
        modifyGet (·.literalStruct [priority, ctor, data] packed)
      else config.retype elemTy
  | _ => config.retype elemTy

end Config

/-- What the constants of a table are typed against. -/
structure TableTyping where
  ctx : Context
  config : Config
  map : PtrMap

namespace TableTyping

variable (t : TableTyping)

/-- The typed pointer type of a function's address. A function that the map knows has been typed
already; any other is typed by its annotation. -/
def functionType (f : FuncId) : Pass TypeStore Ty := do
  match t.map.get? (.func f) with
  | some d => modifyGet d.typedPtr
  | none =>
      let sig ← t.ctx.signature f
      let typed ← sig.typed t.ctx (some t.config.fallback) .none
      let d ← modifyGet (typed.funcDescriptor sig)
      modifyGet d.typedPtr

/-- The refusal of element `position` of an aggregate, whose type differs from that of the
elements before it. -/
def elementRefusal (position : Nat) (expected found : Ty) : Pass TypeStore Refusal := do
  let types : TypeStore ← get
  let expected ← types.text expected
  let found ← types.text found
  return .inconsistentAggregate t.config.ctorTable position expected found

mutual

/-- The type of a constant with its pointers typed. -/
def constantType : Constant → Pass TypeStore Ty
  | .imm value => return value.ty
  | .null space => modifyGet (t.config.fallbackPtr space)
  | .undef ty => t.config.retype ty
  | .zero ty => t.config.retype ty
  | .global id => do
      let g ← t.ctx.global id
      modifyGet (Descriptor.typedPtr ⟨g.ty, g.space⟩)
  | .func id => t.functionType id
  | .array elemTy elems => do
      let elem ← elementType elemTy 0 none elems
      modifyGet (·.array elem elems.length)
  | .vector elemTy elems => do
      let elem ← elementType elemTy 0 none elems
      modifyGet (·.vector elem elems.length)
  | .struct ty fields => do
      let packed := match ← (← get).resolve ty with
        | some (.struct d) => d.packed
        | _ => false
      let fields ← fieldTypes fields
      modifyGet (·.literalStruct fields packed)

/-- The one type that the elements from `position` on have, beside the one found before. -/
def elementType (elemTy : Ty) (position : Nat) : Option Ty → List Constant → Pass TypeStore Ty
  | some found, [] => return found
  | none, [] => t.config.emptyElement elemTy
  | found, c :: rest => do
      let ty ← constantType c
      match found with
      | none => elementType elemTy (position + 1) (some ty) rest
      | some expected =>
          if expected = ty then elementType elemTy (position + 1) found rest
          else throw (← t.elementRefusal position expected ty)

/-- The types of the fields of a struct, in order. -/
def fieldTypes : List Constant → Pass TypeStore (List Ty)
  | [] => return []
  | c :: rest => do
      let ty ← constantType c
      return ty :: (← fieldTypes rest)

end

end TableTyping

namespace Module

/-- Types the constructor table, if there is one with an initialiser, and records its content and
its address. -/
def classifyTable (m : Module) (config : Config) (map : PtrMap) : Pass TypeStore PtrMap := do
  match m.ctx.globalNamed? config.ctorTable with
  | none => return map
  | some id =>
      let g ← m.ctx.global id
      match g.init with
      | none => return map
      | some init =>
          let ty ← TableTyping.constantType ⟨m.ctx, config, map⟩ init
          return (map.setContent id ty).insert (.global id) ⟨ty, g.space⟩

end Module

end Pointee
