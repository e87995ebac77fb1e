/-!
# Identifiers

Every entity of a module is named by its position in the table that holds it. The kinds of
identifiers are kept apart so that a value cannot be looked up in the table of instructions.
-/

namespace Pointee

/-- A compound type, by its position in the type store. -/
@[ext] structure TypeId where
  index : Nat
deriving DecidableEq, Inhabited

/-- A function, by its position among the declarations of its module. -/
@[ext] structure FuncId where
  index : Nat
deriving DecidableEq, Inhabited

/-- A global variable, by its position among the globals of its module. -/
@[ext] structure GlobalId where
  index : Nat
deriving DecidableEq, Inhabited

/-- A value of one function: its arguments first, then in order of creation. -/
@[ext] structure ValueId where
  index : Nat
deriving DecidableEq, Inhabited

/-- An instruction of one function, in order of creation. -/
@[ext] structure InstId where
  index : Nat
deriving DecidableEq, Inhabited

/-- A basic block of one function, in order of creation. -/
@[ext] structure BlockId where
  index : Nat
deriving DecidableEq, Inhabited

end Pointee
