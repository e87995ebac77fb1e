import Pointee.Coverage
import Pointee.Demotion
import Pointee.Extraction
import Pointee.Inference
import Pointee.Marking
import Pointee.Patching

/-!
# Retyping a module

Retyping prepares a module for a writer that has no opaque pointers. Both strategies demote
constant expressions first, so that every pointer is computed by an instruction, and both end with
a pointer map: the eager strategy marks the module and reads the map off the markers, the analytical
one infers the map and patches the sites that disagree with it.
-/

namespace Pointee

/-- What retyping gives: the pointer map, and whether the module was changed. -/
structure Retyped where
  map : PtrMap
  changed : Bool

namespace Module

/-- The pass that reads the module and changes nothing but its type store. -/
def reading {α : Type} (pass : Module → Pass TypeStore α) : Pass Module α :=
  Pass.of fun m => do
    let (a, types) ← (pass m).exec m.ctx.types
    return (a, m.setTypes types)

/-- Demotes, as a pass over the module. -/
def demotePass : Pass Module Bool := do
  let (demoted, m) ← (← get).demote
  set m
  return demoted

/-- Patches against a pointer map, as a pass over the module. -/
def patchPass (config : Config) (map : PtrMap) : Pass Module (Bool × PtrMap) := do
  let (patched, map, m) ← (← get).patch config map
  set m
  return (patched, map)

/-- Refuses a module that is not covered by markers. -/
def checkPass : Pass Module Unit := reading checkCoverage

/-- The pointer map of a marked module, as a pass over the module. -/
def extractPass (config : Config) : Pass Module PtrMap := reading (·.extract config)

/-- The inferred pointer map, as a pass over the module. -/
def inferPass (config : Config) : Pass Module PtrMap := reading (·.infer config)

/-- Marks the module and reads the pointer map off the markers. -/
def retypeEagerly (config : Config) : Pass Module Retyped := do
  let demoted ← demotePass
  let marked ← mark
  if config.shouldCheckMarkers then checkPass
  let map ← extractPass config
  return ⟨map, demoted || marked⟩

/-- Infers the pointer map and patches the sites that disagree with it. -/
def retypeAnalytically (config : Config) : Pass Module Retyped := do
  let demoted ← demotePass
  let map ← inferPass config
  let (patched, map) ← patchPass config map
  return ⟨map, demoted || patched⟩

/-- Retypes the module by the strategy of the configuration. A target that takes opaque pointers
needs no retyping. -/
def retype (config : Config) : Pass Module Retyped := do
  if (← get).ctx.target.requiresTypedPointers then
    match config.strategy with
    | .eager => retypeEagerly config
    | .analytical => retypeAnalytically config
  else return ⟨.empty, false⟩

end Module

end Pointee
