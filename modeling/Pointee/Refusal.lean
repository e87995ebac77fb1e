/-!
# Refusals

A refusal says why a module cannot be retyped: no marker wraps a pointer where one must, an
annotation does not fit its function, the elements of a table disagree. That nothing is known about
a pointer is never a refusal.
-/

namespace Pointee

/-- The part of a signature that an annotation is about. -/
inductive Slot where
  | ret
  | arg (position : Nat)
deriving DecidableEq

/-- The name of a slot. -/
def Slot.text : Slot → String
  | ret => "return value"
  | arg position => "argument " ++ toString position

/-- Why a module cannot be retyped. Instructions and types are given by their texts. -/
inductive Refusal where
  | unmarkedOperand (func inst : String)
  | unmarkedResult (func inst : String)
  | inconsistentAggregate (symbol : String) (position : Nat) (expected found : String)
  | notPointer (func inst ty : String)
  | annotationOutOfRange (func : String) (position arity : Nat)
  | annotationNotPointer (func : String) (slot : Slot)
deriving DecidableEq

/-- The wording of a refusal. -/
def Refusal.message : Refusal → String
  | unmarkedOperand func inst =>
      "pointer operand of `" ++ inst ++ "` in `%" ++ func ++ "` is not defined by a marker"
  | unmarkedResult func inst =>
      "result of `" ++ inst ++ "` in `%" ++ func ++ "` is not consumed by exactly one marker"
  | inconsistentAggregate symbol position expected found =>
      "element " ++ toString position ++ " of `%" ++ symbol ++ "` retypes to `" ++ found ++
        "`, but `" ++ expected ++ "` was expected"
  | notPointer func inst ty =>
      "pointer operand of `" ++ inst ++ "` in `%" ++ func ++ "` has non-pointer type `" ++ ty ++ "`"
  | annotationOutOfRange func position arity =>
      "element type annotation of `%" ++ func ++ "` names argument " ++ toString position ++
        ", but it takes " ++ toString arity
  | annotationNotPointer func slot =>
      "element type annotation of `%" ++ func ++ "` targets the non-pointer " ++ slot.text

end Pointee
