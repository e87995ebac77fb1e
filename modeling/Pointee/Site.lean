import Pointee.Function

/-!
# Pointer sites

A site is an instruction seen by what it says about pointers. A binding site accesses memory
through a pointer operand and so fixes what that pointer points to. A pass-through site gives its
operands on unchanged. A marker is a cast of a value to its own type, which computes nothing and
serves as a handle on a pointer.
-/

namespace Pointee

/-- What an instruction says about pointers. -/
inductive Site where
  /-- Reads a `ty` through `ptr`. -/
  | read (ptr : ValueId) (ty : Ty)
  /-- Writes `value` through `ptr`. -/
  | write (ptr value : ValueId)
  | rmw (ptr value : ValueId)
  | cmpxchg (ptr replacement : ValueId)
  /-- Steps `ptr` over a `source` and lands on a `result`. -/
  | address (ptr : ValueId) (source result : Ty)
  /-- Allocates a `ty`. -/
  | alloc (ty : Ty)
  /-- Merges values where control flow meets. -/
  | merge (incoming : List ValueId)
  | select (onTrue onFalse : ValueId)
  | spaceCast (arg : ValueId)
  | call (callee : FuncId) (args : List ValueId)
  | other
deriving DecidableEq

namespace Site

/-- The site of an instruction. An address computation must have a base pointer. -/
def ofInst : Inst → Except Fault Site
  | .load ptr ty => .ok (read ptr ty)
  | .store value ptr => .ok (write ptr value)
  | .rmw _ ptr value => .ok (rmw ptr value)
  | .cmpxchg ptr _ replacement => .ok (cmpxchg ptr replacement)
  | .gep _ _ [] => .error .outOfBounds
  | .gep source result (ptr :: _) => .ok (address ptr source result)
  | .alloca ty _ => .ok (alloc ty)
  | .phi _ incoming => .ok (merge (incoming.map (·.1)))
  | .select _ onTrue onFalse => .ok (select onTrue onFalse)
  | .cast .spaceCast arg _ => .ok (spaceCast arg)
  | .call callee args _ => .ok (call callee args)
  | .unary .. | .binary .. | .cast .. | .jump .. | .branch .. | .ret .. => .ok other

/-- The pointer that a binding site accesses memory through, and the type of what it accesses. -/
def binding (g : Graph) : Site → Except Fault (Option (ValueId × Ty))
  | read ptr ty => .ok (some (ptr, ty))
  | write ptr value => do return some (ptr, ← g.typeOf value)
  | rmw ptr value => do return some (ptr, ← g.typeOf value)
  | cmpxchg ptr replacement => do return some (ptr, ← g.typeOf replacement)
  | address ptr source _ => .ok (some (ptr, source))
  | _ => .ok none

/-- The operands that flow into the result unchanged. -/
def passThrough : Site → List ValueId
  | merge incoming => incoming
  | select onTrue onFalse => [onTrue, onFalse]
  | spaceCast arg => [arg]
  | _ => []

end Site

namespace Graph

/-- The site of the instruction `i`. -/
def site (g : Graph) (i : InstId) : Except Fault Site := g.inst i >>= Site.ofInst

/-- Whether `i` casts a value to the type it has. -/
def isMarker (g : Graph) (i : InstId) : Except Fault Bool := do
  match ← g.inst i with
  | .cast .bitcast arg ty => return (← g.typeOf arg) = ty
  | _ => return false

/-- The value that is wrapped by the marker that defines `v`, if one does. -/
def markedOperand (g : Graph) (v : ValueId) : Except Fault (Option ValueId) := do
  match (← g.value v).inst? with
  | none => return none
  | some i => if ← g.isMarker i then some <$> g.operand i 0 else return none

/-- The marker's value, if one marker is the only consumer of what `i` defines. -/
def soleMarker (g : Graph) (i : InstId) : Except Fault (Option ValueId) := do
  match g.result? i with
  | none => return none
  | some v =>
      match g.usersOf v with
      | [user] => if ← g.isMarker user then return g.result? user else return none
      | _ => return none

end Graph

end Pointee
