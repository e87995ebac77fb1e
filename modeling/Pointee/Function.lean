import Pointee.Context
import Pointee.Graph
import Pointee.Layout.Location

/-!
# Functions

A function is a data-flow graph and a layout of its instructions. A function without a block is a
declaration. New instructions are made and placed in one step by `Function.insert`, which also
makes the value they define.
-/

namespace Pointee

/-- A function, without its signature. -/
structure Function where
  /-- The argument values, in order. -/
  args : List ValueId
  graph : Graph
  layout : Layout

namespace Function

/-- A function that has its arguments and nothing else. -/
def ofSignature (sig : Signature) : Function :=
  { args := (List.range sig.args.length).map ValueId.mk
    graph := { Graph.empty with values := (sig.args.mapIdx fun i ty => Value.arg ty i).toArray }
    layout := .empty }

instance : Inhabited Function := ⟨[], .empty, .empty⟩

/-- Whether the function has no body. -/
def isDeclaration (f : Function) : Bool := f.layout.entry.isNone

/-- All instructions in layout order. -/
def insts (f : Function) : List InstId := f.layout.allInsts

/-- An instruction that was made and placed, with the value it defines. -/
structure Insertion where
  inst : InstId
  result : Option ValueId
deriving DecidableEq

/-- Makes an instruction and places it, without a value for its result. -/
def place (f : Function) (loc : Location) (inst : Inst) : Except Fault (InstId × Function) := do
  let (i, graph) := f.graph.addInst inst
  let layout ← f.layout.insertAt i loc
  return (i, { f with graph, layout })

/-- Makes an instruction, places it, and makes the value it defines. The next instruction belongs
behind it, at `Location.inst`. -/
def insert (f : Function) (loc : Location) (inst : Inst) : Except Fault (Insertion × Function) := do
  let (i, f) ← f.place loc inst
  let (result, graph) ← f.graph.addResult i
  return (⟨i, result⟩, { f with graph })

/-- Makes `v` operand `slot` of an instruction. -/
def setOperand (f : Function) (i : InstId) (slot : Nat) (v : ValueId) : Except Fault Function := do
  return { f with graph := ← f.graph.setOperand i slot v }

/-- The location where operand `slot` of `user` is computed: directly before the user, or, for a
phi, at the exit of the incoming block, before its terminator. -/
def operandLocation (f : Function) (user : InstId) (slot : Nat) : Except Fault Location := do
  match ← f.graph.inst user with
  | .phi _ incoming =>
      let (_, source) ← require incoming[slot]? .outOfBounds
      match ← f.layout.lastInst source with
      | none => return .bottom source
      | some last =>
          if (← f.graph.inst last).isTerminator then Location.before f.layout last
          else return .bottom source
  | _ => Location.before f.layout user

end Function

end Pointee
