import Pointee.Ident

/-!
# Types

A type is a small handle: a scalar, an opaque pointer that knows only its address space, or a
compound type held by the type store. Typed pointers are compound types that no value of a program
carries; they describe pointers to a writer that has no opaque ones.
-/

namespace Pointee

/-- The address space of a pointer. Space 0 is the generic one. -/
structure AddrSpace where
  number : Nat
deriving DecidableEq, Inhabited

namespace AddrSpace

/-- The space of pointers that name none. -/
def generic : AddrSpace := ⟨0⟩

/-- The address space as it follows a pointer type; the generic one is left out. -/
def mark (s : AddrSpace) : String :=
  if s = generic then "" else "(" ++ toString s.number ++ ")"

end AddrSpace

/-- The width of an integer type. -/
inductive IntWidth where
  | w1
  | w8
  | w16
  | w32
  | w64
  | w128
deriving DecidableEq

namespace IntWidth

/-- The number of bits. -/
def bits : IntWidth → Nat
  | w1 => 1
  | w8 => 8
  | w16 => 16
  | w32 => 32
  | w64 => 64
  | w128 => 128

/-- The name of the integer type of this width. -/
def text : IntWidth → String
  | w1 => "i1"
  | w8 => "i8"
  | w16 => "i16"
  | w32 => "i32"
  | w64 => "i64"
  | w128 => "i128"

end IntWidth

/-- A type. -/
inductive Ty where
  | int (width : IntWidth)
  | f32
  | f64
  /-- An opaque pointer. -/
  | ptr (space : AddrSpace)
  /-- A compound type of the type store. -/
  | compound (id : TypeId)
  | unit
deriving DecidableEq

namespace Ty

instance : Inhabited Ty := ⟨unit⟩

/-! The integer types by name. -/

def i1 : Ty := int .w1
def i8 : Ty := int .w8
def i16 : Ty := int .w16
def i32 : Ty := int .w32
def i64 : Ty := int .w64
def i128 : Ty := int .w128

/-- The opaque pointer into the generic address space. -/
def genericPtr : Ty := ptr .generic

/-- Whether the type is an integer type. -/
def isIntegral : Ty → Bool
  | int _ => true
  | _ => false

/-- Whether the type is a floating-point type. -/
def isFloat : Ty → Bool
  | f32 | f64 => true
  | _ => false

/-- The address space of an opaque pointer type. -/
def space? : Ty → Option AddrSpace
  | ptr space => some space
  | _ => none

/-- Whether the type is an opaque pointer. -/
def isPointer (t : Ty) : Bool := t.space?.isSome

/-- Whether the type is held by the type store. -/
def isCompound : Ty → Bool
  | compound _ => true
  | _ => false

/-- Whether the type is that of no value. -/
def isUnit : Ty → Bool
  | unit => true
  | _ => false

theorem space?_eq_some_iff {t : Ty} {s : AddrSpace} : t.space? = some s ↔ t = ptr s := by
  cases t <;> simp [space?]

end Ty

/-- A struct: literal ones have no name and are told apart by their fields. -/
structure StructDef where
  name : Option String
  fields : List Ty
  packed : Bool
deriving DecidableEq

/-- A type built from other types. -/
inductive Compound where
  | array (elem : Ty) (len : Nat)
  | vector (elem : Ty) (len : Nat)
  | struct (definition : StructDef)
  | func (args : List Ty) (ret : Ty)
  /-- A pointer that knows what it points to. -/
  | typedPtr (pointee : Ty) (space : AddrSpace)
deriving DecidableEq

namespace Compound

/-- The types that a compound type is built from. -/
def parts : Compound → List Ty
  | array elem _ => [elem]
  | vector elem _ => [elem]
  | struct d => d.fields
  | func args ret => args ++ [ret]
  | typedPtr pointee _ => [pointee]

/-- The name of a named struct. -/
def structName? : Compound → Option String
  | struct d => d.name
  | _ => none

end Compound

end Pointee
