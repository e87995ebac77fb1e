import Pointee.Function.Text

/-!
# Modules

A module is a context and a function for each signature in it.
-/

namespace Pointee

/-- A module: what its functions share, and the functions in order of declaration. -/
structure Module where
  ctx : Context
  funcs : Array Function

namespace Module

/-- The module in which nothing is declared. -/
def empty (target : Target) : Module := ⟨.empty target, #[]⟩

/-- A function of the module. -/
def func (m : Module) (f : FuncId) : Except Fault Function := require m.funcs[f.index]? .outOfBounds

/-- The ids of the functions, in order of declaration. -/
def funcIds (m : Module) : List FuncId := (List.range m.funcs.size).map FuncId.mk

/-- The functions with their ids, in order of declaration. -/
def funcList (m : Module) : List (FuncId × Function) :=
  m.funcs.toList.zipIdx.map fun (func, i) => (⟨i⟩, func)

/-- Puts `func` in the place of function `f`. -/
def setFunc (m : Module) (f : FuncId) (func : Function) : Module :=
  { m with funcs := m.funcs.setIfInBounds f.index func }

/-- The same module over another type store. -/
def setTypes (m : Module) (types : TypeStore) : Module := { m with ctx := { m.ctx with types } }

/-- Declares a function. Its name stands for the first function declared so. -/
def declare (m : Module) (sig : Signature) : FuncId × Module :=
  match m.ctx.functionNamed? sig.name with
  | some f => (f, m)
  | none =>
      (⟨m.funcs.size⟩,
        { ctx := { m.ctx with signatures := m.ctx.signatures.push sig }
          funcs := m.funcs.push (.ofSignature sig) })

/-- The text of a module: its target, its named structs and globals, and its functions. -/
def text (m : Module) : Except Fault String := do
  let structs ← m.ctx.types.namedStructs.mapM m.ctx.types.structLine
  let globals ← m.ctx.globals.toList.mapM fun g => return (← g.text m.ctx) ++ "\n"
  let funcs ← m.funcList.mapM fun (id, f) => return (← f.text m.ctx id) ++ "\n"
  return "target = \"" ++ m.ctx.target.text ++ "\"\n" ++ String.join structs ++
    String.join globals ++ "\n" ++ String.join funcs

end Module

end Pointee
