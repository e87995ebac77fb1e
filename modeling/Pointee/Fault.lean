import Pointee.Ident

/-!
# Faults

A fault is a broken contract between the library and its caller: an identifier that names
nothing, a layout edit in the wrong state, a second definition of a struct. It ends the operation
that met it, and no state comes back with it. An operation that declines its input in good order
returns a `Refusal` instead, beside the state it left.

The preconditions of layout operations are debug assertions, which are taken to be on. What an edit
in the wrong state makes of a layout when they are off is not described.
-/

namespace Pointee

/-- Why an operation could not go on. -/
inductive Fault where
  /-- An identifier or a position names nothing. -/
  | outOfBounds
  /-- A layout operation met a block or an instruction that is inserted when it must not be, or
  not inserted when it must be. -/
  | precondition
  /-- An immediate was asked for at a type that is not an integer type. -/
  | nonIntegral
  /-- A struct name was defined a second time with another definition. -/
  | structRedefined (name : String)
  /-- A struct field was indexed by something that is no constant. -/
  | indexNotConstant
  /-- An address computation stepped into a type without elements. -/
  | notAggregate
  /-- A global's symbol was taken already. -/
  | duplicateSymbol (symbol : String)
  /-- A function was named that the module does not declare. -/
  | undeclared (func : FuncId)
  /-- The block of an instruction was asked for, but it has none. -/
  | notInserted (inst : InstId)
  /-- The cursor stands nowhere. -/
  | cursorNowhere
  /-- The cursor does not stand at an instruction. -/
  | cursorNotAtInst
  /-- A result was asked for of an instruction that computes none. -/
  | noResult (inst : InstId)
  /-- An incoming value was appended to an instruction that is no phi. -/
  | notPhi
  /-- An incoming value was appended to a value that no instruction defines. -/
  | notPhiResult
  /-- A constant expression contains itself. -/
  | circularConstant
  /-- A loop over values went on for more steps than it was given. -/
  | outOfSteps
deriving DecidableEq

namespace Fault

/-- The wording of a fault. -/
def message : Fault → String
  | outOfBounds => "index out of bounds"
  | precondition => "precondition violated"
  | nonIntegral => "immediate of non-integral type"
  | structRedefined name => "struct " ++ name ++ " is already defined"
  | indexNotConstant => "struct field must be indexed by a constant"
  | notAggregate => "address computation steps into a non-aggregate type"
  | duplicateSymbol symbol => "duplicate global symbol `" ++ symbol ++ "`"
  | undeclared func => "FuncRef(" ++ toString func.index ++ ") is not declared"
  | notInserted inst => "InstId(" ++ toString inst.index ++ ") is not inserted"
  | cursorNowhere => "cursor loc points to `NoWhere`"
  | cursorNotAtInst => "current cursor location doesn't point to inst"
  | noResult inst => "InstId(" ++ toString inst.index ++ ") doesn't have a result"
  | notPhi => "expects `InstData::Phi`"
  | notPhiResult => "`phi_res` should be a result of phi inst"
  | circularConstant => "constant expression contains itself"
  | outOfSteps => "loop does not end"

end Fault

/-- The content of `o`, or `fault` if there is none. -/
def require {α : Type} (o : Option α) (fault : Fault) : Except Fault α :=
  match o with
  | some a => .ok a
  | none => .error fault

@[simp] theorem require_some {α : Type} (a : α) (fault : Fault) :
    require (some a) fault = .ok a := rfl

@[simp] theorem require_none {α : Type} (fault : Fault) :
    require (none : Option α) fault = .error fault := rfl

theorem require_eq_ok_iff {α : Type} {o : Option α} {fault : Fault} {a : α} :
    require o fault = .ok a ↔ o = some a := by
  cases o <;> simp

end Pointee
