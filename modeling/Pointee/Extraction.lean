import Pointee.ConstructorTable
import Pointee.Function.Refusal
import Pointee.Site

/-!
# Reading descriptors off marked sites

In a marked module every descriptor stands at the instruction that fixes it, so nothing has to be
inferred: a binding site gives the descriptor of its pointer operand and of what the marker there
wraps, an address computation or an allocation gives that of its result and of the marker behind
it, and a call gives those of its annotated arguments. A site that is not wrapped is refused.
-/

namespace Pointee

namespace Function

variable (ctx : Context) (f : Function) (id : FuncId)

/-- Records what a binding site says. -/
def extractBinding (map : PtrMap) (i : InstId) (site : Site) : Pass TypeStore PtrMap := do
  match ← site.binding f.graph with
  | none => return map
  | some (ptr, elem) =>
      match ← f.graph.spaceOf ptr with
      | none => f.refuseType ctx id i ptr
      | some space =>
          match ← f.graph.markedOperand ptr with
          | none => f.refuse ctx id i .unmarkedOperand
          | some wrapped =>
              let key ← PtrKey.ofValue id f.graph wrapped
              return (map.insert (.value id ptr) ⟨elem, space⟩).insert key ⟨elem, space⟩

/-- The type that an instruction's result points to by itself. -/
def resultPointee? : Site → Option Ty
  | .address _ _ result => some result
  | .alloc ty => some ty
  | _ => none

/-- Records what an address computation or an allocation defines. -/
def extractResult (map : PtrMap) (i : InstId) (site : Site) : Pass TypeStore PtrMap := do
  match resultPointee? site, f.graph.result? i with
  | some pointee, some v =>
      match ← f.graph.spaceOf v with
      | none => f.refuseType ctx id i v
      | some space =>
          match ← f.graph.soleMarker i with
          | none => f.refuse ctx id i .unmarkedResult
          | some marker =>
              return (map.insert (.value id v) ⟨pointee, space⟩).insert (.value id marker)
                ⟨pointee, space⟩
  | _, _ => return map

/-- Records one argument of a call. -/
def extractArgument (typed : TypedSignature) (i : InstId) (map : PtrMap) (arg : ValueId × Nat) :
    Pass TypeStore PtrMap := do
  match typed.arg? arg.2 with
  | none => return map
  | some d =>
      match ← f.graph.markedOperand arg.1 with
      | none => f.refuse ctx id i .unmarkedOperand
      | some _ => return map.insert (.value id arg.1) d

/-- Records the annotated arguments of a call. -/
def extractCall (map : PtrMap) (i : InstId) (site : Site) : Pass TypeStore PtrMap := do
  match site with
  | .call callee args =>
      let typed ← TypedSignature.annotated ctx callee
      args.zipIdx.foldlM (f.extractArgument ctx id typed i) map
  | _ => return map

/-- Records what one instruction says. -/
def extractInst (map : PtrMap) (i : InstId) : Pass TypeStore PtrMap := do
  if ← f.graph.isMarker i then return map
  let site ← f.graph.site i
  let map ← f.extractBinding ctx id map i site
  let map ← f.extractResult ctx id map i site
  f.extractCall ctx id map i site

/-- Records a marker of a global's address with the descriptor of the global. -/
def extractGlobalMarker (map : PtrMap) (i : InstId) : Except Fault PtrMap := do
  if ← f.graph.isMarker i then
    match (← f.graph.value (← f.graph.operand i 0)).global?, f.graph.result? i with
    | some g, some v =>
        match map.get? (.global g) with
        | some d => return map.insert (.value id v) d
        | none => return map
    | _, _ => return map
  else return map

/-- Records what the instructions of a function say, then the markers of symbols that no binding
site claimed. -/
def extract (map : PtrMap) : Pass TypeStore PtrMap := do
  let map ← f.insts.foldlM (f.extractInst ctx id) map
  liftM (f.insts.foldlM (f.extractGlobalMarker id) map : Except Fault PtrMap)

end Function

namespace Module

/-- Records what the body of a function says, if it has one. -/
def extractBody (m : Module) (map : PtrMap) (func : FuncId × Function) : Pass TypeStore PtrMap :=
  if func.2.isDeclaration then return map else func.2.extract m.ctx func.1 map

/-- The pointer map of a marked module. -/
def extract (m : Module) (config : Config) : Pass TypeStore PtrMap := do
  let map ← m.funcList.foldlM m.extractBody (m.seedGlobals config .empty)
  let map ← m.classifyFunctions config map
  m.classifyTable config map

end Module

end Pointee
