import Pointee.Layout

/-!
# Locations

A location is a place in a layout where the next instruction may go: behind an instruction, or at
the top or the bottom of a block. `Location.next` walks through all of them in layout order, and
`Location.prev` steps back within a block, so that an insertion at the location before an
instruction lands directly before it.
-/

namespace Pointee

/-- A place in a layout. -/
inductive Location where
  /-- At an instruction; an insertion lands behind it. -/
  | inst (i : InstId)
  /-- Above the first instruction of a block. -/
  | top (b : BlockId)
  /-- Below the last instruction of a block. -/
  | bottom (b : BlockId)
  | nowhere
deriving DecidableEq

namespace Location

instance : Inhabited Location := ⟨nowhere⟩

/-- The top of the first block, if there is one. -/
def ofEntry (l : Layout) : Location :=
  match l.entry with
  | some b => top b
  | none => nowhere

/-- The instruction at a location. -/
def inst? : Location → Option InstId
  | inst i => some i
  | _ => none

/-- The block of a location. -/
def block? (l : Layout) : Location → Except Fault (Option BlockId)
  | inst i => some <$> l.blockOf i
  | top b => .ok (some b)
  | bottom b => .ok (some b)
  | nowhere => .ok none

/-- The instruction at a location that must be at one. -/
def expectInst (loc : Location) : Except Fault InstId := require loc.inst? .cursorNotAtInst

/-- The block of a location that must be in one. -/
def expectBlock (l : Layout) (loc : Location) : Except Fault BlockId := do
  require (← loc.block? l) .cursorNowhere

/-- The location that follows in layout order. -/
def next (l : Layout) : Location → Except Fault Location
  | inst i => do
      match ← l.nextInst i with
      | some j => return inst j
      | none => return bottom (← l.blockOf i)
  | top b => do
      match ← l.firstInst b with
      | some i => return inst i
      | none => return bottom b
  | bottom b => do
      match ← l.nextBlock b with
      | some c => return top c
      | none => return nowhere
  | nowhere => return nowhere

/-- The location just before, inside the same block. -/
def prev (l : Layout) : Location → Except Fault Location
  | inst i => do
      match ← l.prevInst i with
      | some j => return inst j
      | none => return top (← l.blockOf i)
  | bottom b => do
      match ← l.lastInst b with
      | some i => return inst i
      | none => return top b
  | top _ => return nowhere
  | nowhere => return nowhere

/-- The location where an insertion lands directly before `i`. -/
def before (l : Layout) (i : InstId) : Except Fault Location := (inst i).prev l

end Location

/-- Puts an instruction at a location. -/
def Layout.insertAt (l : Layout) (i : InstId) : Location → Except Fault Layout
  | .inst j => l.insertAfter i j
  | .top b => l.prependInst i b
  | .bottom b => l.appendInst i b
  | .nowhere => .error .cursorNowhere

end Pointee
