import Pointee.Function

/-!
# Descriptors

A descriptor says what a pointer points to and in which address space. Pointers are named by keys:
a value of a function, or a symbol, whose address is the same pointer wherever it is used.
-/

namespace Pointee

/-- What a pointer points to, and in which address space. -/
structure Descriptor where
  pointee : Ty
  space : AddrSpace
deriving DecidableEq

namespace Descriptor

/-- The same pointee seen through another address space. -/
def inSpace (d : Descriptor) (space : AddrSpace) : Descriptor := ⟨d.pointee, space⟩

/-- The typed pointer type that the descriptor stands for. -/
def typedPtr (d : Descriptor) (types : TypeStore) : Ty × TypeStore :=
  types.typedPtr d.pointee d.space

/-- The text of a descriptor, which is that of its typed pointer type. -/
def text (types : TypeStore) (d : Descriptor) : Except Fault String := do
  return "*" ++ d.space.mark ++ (← types.text d.pointee)

end Descriptor

/-- A pointer of a module. The address of a symbol is the same pointer in every function. -/
inductive PtrKey where
  | value (func : FuncId) (v : ValueId)
  | global (id : GlobalId)
  | func (id : FuncId)
deriving DecidableEq

namespace PtrKey

/-- The pointer that a value of function `f` is. -/
def ofValue (f : FuncId) (g : Graph) (v : ValueId) : Except Fault PtrKey := do
  match ← g.value v with
  | .global id _ => return global id
  | .func id => return func id
  | _ => return value f v

/-- Values come first, by function and number, then globals, then functions. -/
def rank : PtrKey → Nat × Nat × Nat
  | value f v => (0, f.index, v.index)
  | global id => (1, id.index, 0)
  | func id => (2, id.index, 0)

/-- Whether a pointer comes before another one or is the same. -/
def le (a b : PtrKey) : Bool :=
  let (a₁, a₂, a₃) := a.rank
  let (b₁, b₂, b₃) := b.rank
  a₁ < b₁ || (a₁ = b₁ && (a₂ < b₂ || (a₂ = b₂ && a₃ ≤ b₃)))

end PtrKey

end Pointee
