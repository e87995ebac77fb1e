import Pointee.Module

/-!
# Demotion

Demotion turns every operand that is a constant expression into an instruction of its own, placed
where the operand is computed. Each occurrence is turned on its own. The new instructions may have
constant expressions as operands in turn, so demotion goes in rounds: each round works on the
instructions that the one before it made. Constant expressions that do not contain themselves are
nested at most as deep as there are values, which bounds the number of rounds.
-/

namespace Pointee.Function

/-- Demotes operand `slot` of `user`, if it is a constant expression. The instructions made so far
are given and returned with the function. -/
def demoteOperand (user : InstId) (state : List InstId × Function) (slot : Nat) :
    Except Fault (List InstId × Function) := do
  let (made, f) := state
  let arg ← f.graph.operand user slot
  match ← f.graph.value arg with
  | .expr e _ =>
      let loc ← f.operandLocation user slot
      let (ins, f) ← f.insert loc e.toInst
      match ins.result with
      | none => return (made, f)
      | some v => return (made ++ [ins.inst], ← f.setOperand user slot v)
  | _ => return (made, f)

/-- Demotes the operands of one instruction, in order. -/
def demoteInst (state : List InstId × Function) (user : InstId) :
    Except Fault (List InstId × Function) := do
  let inst ← state.2.graph.inst user
  (List.range inst.operands.length).foldlM (demoteOperand user) state

/-- Demotes the operands of `insts`, then those of the instructions made on the way, for at most
`rounds` rounds. Returns how many operands were demoted. -/
def demoteRounds : Nat → List InstId → Function → Except Fault (Nat × Function)
  | _, [], f => .ok (0, f)
  | 0, _ :: _, _ => .error .circularConstant
  | rounds + 1, insts, f => do
      let (made, f) ← insts.foldlM demoteInst ([], f)
      let (rest, f) ← demoteRounds rounds made f
      return (made.length + rest, f)

/-- Demotes every constant expression. Returns whether there was one. -/
def demote (f : Function) : Except Fault (Bool × Function) := do
  let (demoted, f) ← demoteRounds (f.graph.values.size + 1) f.insts f
  return (demoted > 0, f)

end Pointee.Function

namespace Pointee.Module

/-- Demotes function after function. Returns whether any of them changed. -/
def demote (m : Module) : Except Fault (Bool × Module) := do
  let results ← m.funcs.toList.mapM Function.demote
  return (results.any (·.1), { m with funcs := (results.map (·.2)).toArray })

end Pointee.Module
