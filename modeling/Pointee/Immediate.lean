import Pointee.Fault
import Pointee.Ty

/-!
# Immediates

An immediate is an integer of a fixed width, held as its bits. Reading it back gives the signed
number, except at width one, where it is zero or one.
-/

namespace Pointee

/-- An integer constant of an integer type. -/
structure Immediate where
  width : IntWidth
  bits : BitVec width.bits
deriving DecidableEq

namespace Immediate

/-- The type of an immediate. -/
def ty (imm : Immediate) : Ty := .int imm.width

/-- The low bits of `value`. -/
def ofInt (width : IntWidth) (value : Int) : Immediate := ⟨width, BitVec.ofInt width.bits value⟩

/-- The immediate of type `ty` that keeps the low bits of `value`. -/
def ofType (ty : Ty) (value : Int) : Except Fault Immediate :=
  match ty with
  | .int width => .ok (ofInt width value)
  | _ => .error .nonIntegral

/-- The number that an immediate stands for: signed, but zero or one at width one. -/
def toInt (imm : Immediate) : Int :=
  match imm.width with
  | .w1 => imm.bits.toNat
  | _ => imm.bits.toInt

/-- The immediate as a position: a number below `2 ^ 64`. -/
def toIndex? (imm : Immediate) : Option Nat :=
  if 0 ≤ imm.toInt ∧ imm.toInt.toNat < UInt64.size then some imm.toInt.toNat else none

/-- Whether the number is zero. -/
def isZero (imm : Immediate) : Bool := imm.toInt = 0

/-- The number in decimal. -/
def text (imm : Immediate) : String := toString imm.toInt

end Immediate

end Pointee
