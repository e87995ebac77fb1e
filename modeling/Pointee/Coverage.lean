import Pointee.Function.Refusal
import Pointee.Site
import Pointee.SlotTyping

/-!
# Marker coverage

A function is covered if every pointer that marking wraps is wrapped: no operand is the bare
address of a global, the pointer operand of every access and every annotated call argument is
defined by a marker, and one marker is the only consumer of every computed address and every
allocation. Markers themselves are exempt.
-/

namespace Pointee

namespace Function

/-- Whether an operand of `i` is the address of a global. -/
def usesGlobal (f : Function) (i : InstId) : Except Fault Bool := do
  (← f.graph.inst i).operands.anyM fun v => return (← f.graph.value v).global?.isSome

/-- Whether `i` has a pointer operand that no marker defines. -/
def pointerUnmarked (f : Function) (i : InstId) : Except Fault Bool := do
  match (← f.graph.inst i).pointerSlot? with
  | none => return false
  | some slot => return (← f.graph.markedOperand (← f.graph.operand i slot)).isNone

/-- Whether an argument that the callee types is defined by no marker. -/
def argumentUnmarked (f : Function) (typed : TypedSignature) (args : List ValueId) :
    Except Fault Bool :=
  args.zipIdx.anyM fun (v, slot) => do
    if (typed.arg? slot).isSome then return (← f.graph.markedOperand v).isNone else return false

/-- Whether `i` computes or allocates an address that is not consumed by one marker alone. -/
def resultUnmarked (f : Function) (i : InstId) : Except Fault Bool := do
  match ← f.graph.inst i with
  | .gep .. => return (← f.graph.soleMarker i).isNone
  | .alloca .. => return (← f.graph.soleMarker i).isNone
  | _ => return false

/-- Checks one instruction of the function `id`. -/
def checkInst (ctx : Context) (f : Function) (id : FuncId) (i : InstId) : Pass TypeStore Unit := do
  if ← f.graph.isMarker i then return
  if ← f.usesGlobal i then f.refuse ctx id i .unmarkedOperand
  if ← f.pointerUnmarked i then f.refuse ctx id i .unmarkedOperand
  match ← f.graph.site i with
  | .call callee args =>
      let typed ← TypedSignature.annotated ctx callee
      if ← f.argumentUnmarked typed args then f.refuse ctx id i .unmarkedOperand
  | _ => pure ()
  if ← f.resultUnmarked i then f.refuse ctx id i .unmarkedResult

end Function

namespace Module

/-- Checks the instructions of all functions in order, and refuses the first that is not
covered. -/
def checkCoverage (m : Module) : Pass TypeStore Unit :=
  m.funcList.forM fun (id, f) => f.insts.forM (f.checkInst m.ctx id)

end Module

end Pointee
