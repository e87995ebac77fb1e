import Pointee.Site
import Pointee.SlotTyping

/-!
# Marking

Marking wraps every pointer that a writer must find with a marker: operands that are the address
of a global, pointer operands of memory accesses and address computations, call arguments that the
callee's annotation types, and the results of address computations and allocations. It takes no
notice of markers that are there already. A callee with an annotation that does not fit ends the
run; what was marked before stays.
-/

namespace Pointee

namespace Function

/-- Wraps operand `slot` of `user` with a marker. -/
def wrapOperand (user : InstId) (f : Function) (slot : Nat) : Except Fault Function := do
  let arg ← f.graph.operand user slot
  let ty ← f.graph.typeOf arg
  let loc ← f.operandLocation user slot
  let (ins, f) ← f.insert loc (.marker arg ty)
  match ins.result with
  | none => return f
  | some v => f.setOperand user slot v

/-- Wraps operand `slot` of `user` if it is the address of a global. The slots wrapped so far are
given and returned with the function. -/
def wrapGlobal (user : InstId) (state : List Nat × Function) (slot : Nat) :
    Except Fault (List Nat × Function) := do
  let (wrapped, f) := state
  let arg ← f.graph.operand user slot
  match (← f.graph.value arg).global? with
  | some _ => return (wrapped ++ [slot], ← f.wrapOperand user slot)
  | none => return (wrapped, f)

/-- Wraps the operands of `user` that are addresses of globals. -/
def wrapGlobals (f : Function) (user : InstId) : Except Fault (List Nat × Function) := do
  let inst ← f.graph.inst user
  (List.range inst.operands.length).foldlM (wrapGlobal user) ([], f)

/-- Wraps the pointer operand of `user`, if it has one that is not among the wrapped slots. -/
def wrapPointer (f : Function) (user : InstId) (wrapped : List Nat) :
    Except Fault (List Nat × Function) := do
  match (← f.graph.inst user).pointerSlot? with
  | none => return (wrapped, f)
  | some slot =>
      if slot ∈ wrapped then return (wrapped, f)
      else return (wrapped ++ [slot], ← f.wrapOperand user slot)

/-- Makes `user` consume `new` at `slot` if it consumes `old` there. -/
def redirectSlot (old new : ValueId) (user : InstId) (f : Function) (slot : Nat) :
    Except Fault Function := do
  if (← f.graph.operand user slot) = old then f.setOperand user slot new else return f

/-- Makes `user` consume `new` wherever it consumes `old`. -/
def redirect (old new : ValueId) (f : Function) (user : InstId) : Except Fault Function := do
  let inst ← f.graph.inst user
  (List.range inst.operands.length).foldlM (redirectSlot old new user) f

/-- Wraps the value that `i` defines with a marker directly behind it, which all other consumers
take instead. Returns the number of markers made. -/
def wrapResult (f : Function) (i : InstId) : Except Fault (Nat × Function) := do
  match f.graph.result? i with
  | none => return (0, f)
  | some v =>
      let ty ← f.graph.typeOf v
      let (ins, f) ← f.insert (.inst i) (.marker v ty)
      match ins.result with
      | none => return (0, f)
      | some marker =>
          let users := (f.graph.usersOf v).filter (· ≠ ins.inst)
          return (1, ← users.foldlM (redirect v marker) f)

end Function

/-- A function under marking, with the type store of its module. -/
structure Marking where
  types : TypeStore
  func : Function

namespace Marking

variable (ctx : Context)

/-- Applies an edit of the function. -/
def edit {α : Type} (step : Function → Except Fault (α × Function)) : Pass Marking α := do
  let s ← get
  let (a, func) ← step s.func
  set { s with func }
  return a

/-- The annotated signature of a callee. -/
def annotated (callee : FuncId) : Pass Marking TypedSignature :=
  Pass.of fun s => do
    let (typed, types) ← (TypedSignature.annotated ctx callee).exec s.types
    return (typed, { s with types })

/-- Wraps the arguments of a call that the callee's annotation types, but for the wrapped slots.
Returns the number of markers made. -/
def markCall (i : InstId) (wrapped : List Nat) : Pass Marking Nat := do
  match ← (← get).func.graph.site i with
  | .call callee args =>
      let typed ← annotated ctx callee
      let slots := (List.range args.length).filter fun slot =>
        (typed.arg? slot).isSome && slot ∉ wrapped
      edit fun f => return (slots.length, ← slots.foldlM (Function.wrapOperand i) f)
  | _ => return 0

/-- Wraps what an address computation or an allocation defines. Returns the number of markers
made. -/
def markResult (i : InstId) : Pass Marking Nat := do
  match ← (← get).func.graph.inst i with
  | .gep .. => edit (·.wrapResult i)
  | .alloca .. => edit (·.wrapResult i)
  | _ => return 0

/-- Marks one instruction. Returns the number of markers made. -/
def markInst (i : InstId) : Pass Marking Nat := do
  let wrapped ← edit (·.wrapGlobals i)
  let wrapped ← edit (·.wrapPointer i wrapped)
  let arguments ← markCall ctx i wrapped
  let results ← markResult i
  return wrapped.length + arguments + results

/-- Marks the instructions that the function has at the start. Returns the number of markers
made. -/
def markFunction : Pass Marking Nat := do
  let insts := (← get).func.insts
  insts.foldlM (fun count i => return count + (← markInst ctx i)) 0

end Marking

namespace Module

/-- Marks function `f` of the module. -/
def markFunction (f : FuncId) : Pass Module Nat :=
  Pass.of fun m => do
    let (count, s) ← (Marking.markFunction m.ctx).exec ⟨m.ctx.types, ← m.func f⟩
    return (count, (m.setTypes s.types).setFunc f s.func)

/-- Marks function after function. Returns whether any marker was made. -/
def mark : Pass Module Bool := do
  let count ← (← get).funcIds.foldlM (fun count f => return count + (← markFunction f)) 0
  return count > 0

end Module

end Pointee
