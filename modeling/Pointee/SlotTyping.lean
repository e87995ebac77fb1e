import Pointee.Module
import Pointee.Pass
import Pointee.PtrMap

/-!
# Typing the slots of signatures

Each pointer slot of a signature is filled from the first source that has something to say: the
sample of its annotation, then a source of descriptors such as a pointer map, then a fallback
pointee. An annotation that does not fit its signature is refused; `Annotation.misfit?` names the
first entry that does not fit.
-/

namespace Pointee

/-- The first part of an annotation that does not fit: a sample for a return value or an argument
that is no pointer, or for an argument that does not exist. -/
def Annotation.misfit? (a : Annotation) (sig : Signature) : Option Refusal :=
  if a.ret.isSome && !sig.ret.isPointer then some (.annotationNotPointer sig.name .ret)
  else
    a.args.findSome? fun (i, _) =>
      match sig.args[i]? with
      | none => some (.annotationOutOfRange sig.name i sig.args.length)
      | some ty => if ty.isPointer then none else some (.annotationNotPointer sig.name (.arg i))

/-- Where descriptors come from for the slots of a function that have no sample. -/
structure SlotSource where
  ret : Except Fault (Option Descriptor)
  arg : Nat → Except Fault (Option Descriptor)

namespace SlotSource

/-- The source that knows nothing. -/
def none : SlotSource := ⟨.ok .none, fun _ => .ok .none⟩

/-- The descriptor that the returned values among `insts` share, beside one found before. Returned
values without a descriptor do not count; two that differ leave none. -/
def sharedReturn (map : PtrMap) (f : FuncId) (g : Graph) :
    Option Descriptor → List InstId → Except Fault (Option Descriptor)
  | found, [] => .ok found
  | found, i :: rest => do
      match ← g.inst i with
      | .ret (some v) =>
          match ← map.ofValue? f g v with
          | .none => sharedReturn map f g found rest
          | some d =>
              match found with
              | .none => sharedReturn map f g (some d) rest
              | some shared =>
                  if shared = d then sharedReturn map f g found rest else return .none
      | _ => sharedReturn map f g found rest

/-- The descriptors that a pointer map holds for what a function returns and takes. -/
def ofMap (m : Module) (map : PtrMap) (f : FuncId) : SlotSource where
  ret := do
    let func ← m.func f
    sharedReturn map f func.graph .none func.insts
  arg i := do
    let func ← m.func f
    return func.args[i]?.bind fun v => map.get? (.value f v)

end SlotSource

namespace Signature

variable (ctx : Context) (fallback : Option Ty)

/-- The descriptor of one slot. A slot that is declared with another type than a pointer has
none. -/
def typeSlot (declared : Ty) (sample : Option Constant)
    (source : Except Fault (Option Descriptor)) :
    StateT TypeStore (Except Fault) (Option Descriptor) := do
  match declared.space? with
  | none => return none
  | some space =>
      match sample with
      | some c => return some ⟨← c.typeOf ctx, space⟩
      | none => return (← source).or (fallback.map (⟨·, space⟩))

/-- Fills the slots of a signature: the return slot, then the arguments in order. -/
def typeSlots (sig : Signature) (source : SlotSource) :
    StateT TypeStore (Except Fault) TypedSignature := do
  let ret ← typeSlot ctx fallback sig.ret (sig.annotation.bind (·.ret)) source.ret
  let args ← sig.args.zipIdx.mapM fun (ty, i) =>
    typeSlot ctx fallback ty (sig.annotation.bind (·.arg? i)) (source.arg i)
  return ⟨ret, args⟩

/-- Types a signature, or refuses its annotation. -/
def typed (sig : Signature) (source : SlotSource) : Pass TypeStore TypedSignature := do
  match sig.annotation.bind (·.misfit? sig) with
  | some refusal => throw refusal
  | none => sig.typeSlots ctx fallback source

end Signature

/-- The signature of a declared function, typed by its annotation alone. -/
def TypedSignature.annotated (ctx : Context) (f : FuncId) : Pass TypeStore TypedSignature := do
  let sig ← ctx.signature f
  sig.typed ctx none .none

end Pointee
