import Pointee.Config
import Pointee.SlotTyping

/-!
# Descriptors of symbols

The address of a global points to its declared content. The address of a function points to its
function type, with the pointer slots of the signature typed. The table that registers constructors
is left to `Pointee.ConstructorTable`, which types it by its elements.
-/

namespace Pointee.Module

variable (m : Module) (config : Config)

/-- Records the declared content of every global but the constructor table. -/
def seedGlobals (map : PtrMap) : PtrMap :=
  m.ctx.globalList.foldl
    (fun map (id, g) =>
      if g.symbol = config.ctorTable then map else map.insert (.global id) ⟨g.ty, g.space⟩)
    map

/-- Types the signature of function `f` against the map and records its address. -/
def classifyFunction (map : PtrMap) (f : FuncId) : Pass TypeStore PtrMap := do
  let sig ← m.ctx.signature f
  let typed ← sig.typed m.ctx (some config.fallback) (.ofMap m map f)
  let descriptor ← modifyGet (typed.funcDescriptor sig)
  return (map.insert (.func f) descriptor).setSignature f typed

/-- Types function after function. -/
def classifyFunctions (map : PtrMap) : Pass TypeStore PtrMap :=
  m.funcIds.foldlM (m.classifyFunction config) map

end Pointee.Module
