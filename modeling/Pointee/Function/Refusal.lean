import Pointee.Function.Text
import Pointee.Pass

/-!
# Refusing an instruction

A refusal names an instruction by its function and its text.
-/

namespace Pointee.Function

variable {α : Type} (ctx : Context) (f : Function) (id : FuncId)

/-- Refuses an instruction of the function `id`. -/
def refuse (i : InstId) (reason : String → String → Refusal) : Pass TypeStore α := do
  let sig ← ctx.signature id
  throw (reason sig.name (← f.instText ctx i))

/-- Refuses an instruction over the type of one of its pointers. -/
def refuseType (i : InstId) (v : ValueId) : Pass TypeStore α := do
  let sig ← ctx.signature id
  let inst ← f.instText ctx i
  let ty ← ctx.typeText (← f.graph.typeOf v)
  throw (.notPointer sig.name inst ty)

end Pointee.Function
