import Pointee.ConstructorTable
import Pointee.Site

/-!
# Inferring descriptors

Inference works on a module that has no markers and leaves its functions as they are. Descriptors
start at seeds: annotated arguments, allocations, address computations that do not land on a
pointer, and symbols. They spread forward through pass-through sites, where the operands that have
one must agree. Then each binding site that accesses something other than a pointer walks back,
through the same sites, to every value that reaches it. A value is recorded once, so the forward
phase visits each value at most once more than it was seeded, and every backward walk visits each
value at most once.
-/

namespace Pointee

/-- The types of the samples that a signature has for arguments, with their positions, in order. -/
def Signature.samplePointees (ctx : Context) (sig : Signature) :
    StateT TypeStore (Except Fault) (List (Nat × Ty)) :=
  ((sig.annotation.map (·.args)).getD []).mapM fun (i, c) => return (i, ← c.typeOf ctx)

namespace Function

variable (f : Function) (id : FuncId)

/-! ## Seeds -/

/-- Records an argument with the pointee that a sample gives it. A sample for no argument, or for
one that is no pointer, is passed over here; typing the signature refuses it. -/
def seedArgument (map : PtrMap) (sample : Nat × Ty) : Except Fault PtrMap := do
  match f.args[sample.1]? with
  | none => return map
  | some v =>
      match ← f.graph.spaceOf v with
      | none => return map
      | some space => return map.insert (.value id v) ⟨sample.2, space⟩

/-- Records the annotated arguments of a function. -/
def seedAnnotated (ctx : Context) (map : PtrMap) : StateT TypeStore (Except Fault) PtrMap := do
  let sig ← ctx.signature id
  let pointees ← sig.samplePointees ctx
  (pointees.foldlM (f.seedArgument id) map : Except Fault PtrMap)

/-- The pointee that an instruction fixes for its own result. An address computation that lands on
a pointer fixes none. -/
def seedPointee? : Site → Option Ty
  | .alloc ty => some ty
  | .address _ _ result => if result.isPointer then none else some result
  | _ => none

/-- Records the result of an instruction that is a seed, and queues it. -/
def seedInst (state : List ValueId × PtrMap) (i : InstId) :
    Except Fault (List ValueId × PtrMap) := do
  let (queue, map) := state
  match f.graph.result? i with
  | none => return (queue, map)
  | some v =>
      match ← f.graph.spaceOf v with
      | none => return (queue, map)
      | some space =>
          match seedPointee? (← f.graph.site i) with
          | none => return (queue, map)
          | some pointee =>
              if map.contains (.value id v) then return (queue, map)
              else return (queue ++ [v], map.insert (.value id v) ⟨pointee, space⟩)

/-- The addresses of globals that are used. -/
def usedGlobals : List ValueId :=
  f.graph.valueList.filterMap fun (v, value) =>
    if value.global?.isSome && !(f.graph.usersOf v).isEmpty then some v else none

/-- The arguments that have a descriptor. -/
def knownArgs (map : PtrMap) : List ValueId := f.args.filter fun v => map.contains (.value id v)

/-! ## Forward -/

/-- The descriptor that the operands with one agree on, beside one found before. -/
def agreed (map : PtrMap) : Option Descriptor → List ValueId → Except Fault (Option Descriptor)
  | found, [] => .ok found
  | found, v :: rest => do
      match ← map.ofValue? id f.graph v with
      | none => agreed map found rest
      | some d =>
          match found with
          | none => agreed map (some d) rest
          | some first => if first.pointee = d.pointee then agreed map found rest else return none

/-- The descriptor that flows into `user`, if `v` passes through it and its operands agree. -/
def flowing (map : PtrMap) (user : InstId) (v : ValueId) : Except Fault (Option Descriptor) := do
  let operands := (← f.graph.site user).passThrough
  if v ∈ operands then f.agreed id map none operands else return none

/-- Records the result of `user` if the descriptor of `v` flows into it, and queues it. -/
def spreadTo (v : ValueId) (state : List ValueId × PtrMap) (user : InstId) :
    Except Fault (List ValueId × PtrMap) := do
  let (queue, map) := state
  match f.graph.result? user with
  | none => return (queue, map)
  | some result =>
      match ← f.graph.spaceOf result with
      | none => return (queue, map)
      | some space =>
          if map.contains (.value id result) then return (queue, map)
          else
            match ← f.flowing id map user v with
            | none => return (queue, map)
            | some d => return (queue ++ [result], map.insert (.value id result) (d.inSpace space))

/-- Spreads the descriptors of the queued values, and of those they reach. There must be a step for
each value that is queued. -/
def spread : Nat → List ValueId → PtrMap → Except Fault PtrMap
  | _, [], map => .ok map
  | 0, _ :: _, _ => .error .outOfSteps
  | steps + 1, v :: queue, map => do
      let (queue, map) ← (f.graph.usersOf v).foldlM (f.spreadTo id v) (queue, map)
      spread steps queue map

/-- The forward phase: seeds, then all that they flow into. A value is queued when it is seeded or
when it is recorded, so there are no more steps than seeds and values. -/
def forward (map : PtrMap) : Except Fault PtrMap := do
  let start := f.usedGlobals ++ f.knownArgs id map
  let (queue, map) ← f.insts.foldlM (f.seedInst id) (start, map)
  f.spread id (queue.length + f.graph.values.size) queue map

/-! ## Backward -/

/-- The pointers that flow into a value unchanged. -/
def sources (value : Value) : Except Fault (List ValueId) := do
  match value.inst? with
  | none => return []
  | some i =>
      (← f.graph.site i).passThrough.filterM fun v => return (← f.graph.spaceOf v).isSome

/-- Takes the value `v` from the top of a stack of values to visit. If it is computed at run time
and was not visited, it is recorded as a pointer to `elem` in its own address space, and what flows
into it is stacked. A value that has a descriptor keeps it and is walked through. -/
def walkStep (elem : Ty) (v : ValueId) (stack : List ValueId) (visited : Table Bool)
    (map : PtrMap) : Except Fault (List ValueId × Table Bool × PtrMap) := do
  let value ← f.graph.value v
  if !value.isLocal || visited.get v.index then return (stack, visited, map)
  else
    let map := match value.ty.space? with
      | some space => map.insert (.value id v) ⟨elem, space⟩
      | none => map
    let sources ← f.sources value
    return (sources.reverse ++ stack, visited.set v.index true, map)

/-- Walks from the stacked values back to all that flow into them. There must be a step for each
value that is stacked. -/
def walkBack (elem : Ty) : Nat → List ValueId → Table Bool → PtrMap → Except Fault PtrMap
  | _, [], _, map => .ok map
  | 0, _ :: _, _, _ => .error .outOfSteps
  | steps + 1, v :: stack, visited, map => do
      let (stack, visited, map) ← f.walkStep id elem v stack visited map
      walkBack elem steps stack visited map

/-- How many values flow into `value` at most. -/
def fanIn (value : Value) : Nat :=
  match value.inst? >>= fun i => f.graph.insts[i.index]? with
  | some inst => inst.operands.length
  | none => 0

/-- How many values a backward walk stacks at most: the first, and those that flow into each of
the others once. -/
def walkBound : Nat := f.graph.values.toList.foldl (fun n value => n + f.fanIn value) 1

/-- Where a walk from an instruction starts, with the type that it records: at the pointer operand
of a binding site that accesses something other than a pointer. -/
def walkStart (i : InstId) : Except Fault (Option (ValueId × Ty)) := do
  match ← (← f.graph.site i).binding f.graph with
  | none => return none
  | some (ptr, elem) =>
      if elem.isPointer then return none
      else return (← f.graph.spaceOf ptr).map fun _ => (ptr, elem)

/-- Walks back from one instruction, if a walk starts there. -/
def walkFrom (map : PtrMap) (i : InstId) : Except Fault PtrMap := do
  match ← f.walkStart i with
  | none => return map
  | some (ptr, elem) => f.walkBack id elem f.walkBound [ptr] .empty map

/-- The backward phase: the binding sites in layout order. -/
def backward (map : PtrMap) : Except Fault PtrMap := f.insts.foldlM (f.walkFrom id) map

/-- Infers the descriptors of one function. -/
def infer (ctx : Context) (map : PtrMap) : StateT TypeStore (Except Fault) PtrMap := do
  let map ← f.seedAnnotated id ctx map
  let map ← f.forward id map
  f.backward id map

end Function

namespace Module

/-- Infers the descriptors of a function, if it has a body. -/
def inferBody (m : Module) (map : PtrMap) (func : FuncId × Function) :
    StateT TypeStore (Except Fault) PtrMap :=
  if func.2.isDeclaration then return map else func.2.infer func.1 m.ctx map

/-- Infers function after function. -/
def inferBodies (m : Module) (map : PtrMap) : StateT TypeStore (Except Fault) PtrMap :=
  m.funcList.foldlM m.inferBody map

/-- The inferred pointer map of a module. -/
def infer (m : Module) (config : Config) : Pass TypeStore PtrMap := do
  let map ← m.inferBodies (m.seedGlobals config .empty)
  let map ← m.classifyFunctions config map
  m.classifyTable config map

end Module

end Pointee
