import Pointee.Config
import Pointee.Module
import Pointee.PtrMap
import Pointee.Site

/-!
# Patching mismatches

A binding site whose pointer is not known to point to what the site accesses gets a cast of the
pointer to its own type directly before it, and accesses memory through the cast. The cast is
recorded with the fallback pointee: what it points to is for the writer to settle. All other
instructions stay as they are.
-/

namespace Pointee

/-- A function under patching, with the pointer map of its module. -/
structure Patching where
  func : Function
  map : PtrMap
  /-- The number of sites patched. -/
  patched : Nat

namespace Patching

variable (config : Config) (id : FuncId)

/-- Whether a pointer is known to point to `elem`. -/
def pointsTo (s : Patching) (ptr : ValueId) (elem : Ty) : Except Fault Bool := do
  return (← s.map.ofValue? id s.func.graph ptr).map (·.pointee) = some elem

/-- Casts the pointer operand `ptr` of `i`, which stands at `slot`. -/
def castPointer (s : Patching) (i : InstId) (slot : Nat) (ptr : ValueId) (space : AddrSpace) :
    Except Fault Patching := do
  let loc ← Location.before s.func.layout i
  let (ins, func) ← s.func.insert loc (.marker ptr (.ptr space))
  match ins.result with
  | none => return { s with func }
  | some v =>
      let inst ← func.graph.inst i
      let graph ← func.graph.replaceInst i (inst.setOperand slot v)
      return ⟨{ func with graph }, s.map.insert (.value id v) (config.fallbackIn space),
        s.patched + 1⟩

/-- Patches one instruction, if it is a binding site that needs it. -/
def patchInst (s : Patching) (i : InstId) : Except Fault Patching := do
  match (← s.func.graph.inst i).pointerSlot? with
  | none => return s
  | some slot =>
      match ← (← s.func.graph.site i).binding s.func.graph with
      | none => return s
      | some (ptr, elem) =>
          match ← s.func.graph.spaceOf ptr with
          | none => return s
          | some space =>
              if ← s.pointsTo id ptr elem then return s
              else s.castPointer config id i slot ptr space

/-- Patches the instructions that the function has at the start. -/
def patchFunction (s : Patching) : Except Fault Patching :=
  s.func.insts.foldlM (patchInst config id) s

end Patching

namespace Module

/-- Patches one function of the module, beside the map and the number of sites patched. -/
def patchFunction (config : Config) (state : PtrMap × Nat × Module) (func : FuncId × Function) :
    Except Fault (PtrMap × Nat × Module) := do
  let (map, patched, m) := state
  let s ← Patching.patchFunction config func.1 ⟨func.2, map, patched⟩
  return (s.map, s.patched, m.setFunc func.1 s.func)

/-- Patches function after function against a pointer map. Returns whether any site was patched,
with the map that knows the casts. -/
def patch (m : Module) (config : Config) (map : PtrMap) :
    Except Fault (Bool × PtrMap × Module) := do
  let (map, patched, m) ← m.funcList.foldlM (patchFunction config) (map, 0, m)
  return (patched > 0, map, m)

end Module

end Pointee
