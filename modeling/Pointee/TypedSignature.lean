import Pointee.Descriptor

/-!
# Typed signatures

A typed signature puts descriptors into the pointer slots of a signature: its return value and its
arguments. The function type with those slots typed is what the function's own address points to.
-/

namespace Pointee

/-- A function's signature with descriptors in its pointer slots. A slot without one keeps the
declared type. -/
structure TypedSignature where
  ret : Option Descriptor
  args : List (Option Descriptor)
deriving DecidableEq

namespace TypedSignature

/-- The descriptor of argument `i`. -/
def arg? (t : TypedSignature) (i : Nat) : Option Descriptor := t.args[i]?.join

/-- The type of a slot: its typed pointer type, or the declared one. -/
def slotType (declared : Ty) (slot : Option Descriptor) (types : TypeStore) : Ty × TypeStore :=
  match slot with
  | some d => d.typedPtr types
  | none => (declared, types)

/-- The types of the arguments from position `i` on. -/
def argTypes (t : TypedSignature) : Nat → List Ty → TypeStore → List Ty × TypeStore
  | _, [], types => ([], types)
  | i, ty :: rest, types =>
      let (ty, types) := slotType ty (t.arg? i) types
      let (rest, types) := t.argTypes (i + 1) rest types
      (ty :: rest, types)

/-- The function type of a signature with its slots typed. -/
def funcType (t : TypedSignature) (sig : Signature) (types : TypeStore) : Ty × TypeStore :=
  let (args, types) := t.argTypes 0 sig.args types
  let (ret, types) := slotType sig.ret t.ret types
  types.func args ret

/-- The descriptor of the function's own address. -/
def funcDescriptor (t : TypedSignature) (sig : Signature) (types : TypeStore) :
    Descriptor × TypeStore :=
  let (ty, types) := t.funcType sig types
  (⟨ty, .generic⟩, types)

end TypedSignature

end Pointee
