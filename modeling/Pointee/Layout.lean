import Pointee.Fault
import Pointee.Table

/-!
# The layout of a function

The layout orders the blocks of a function and the instructions of each block. Both orders are
doubly linked: a node holds its neighbours, and a block holds its first and last instruction, so an
instruction goes before or after another one without a search. `Layout.blockOrder`,
`Layout.instsOf` and `Layout.allInsts` are the lists that the links spell.
-/

namespace Pointee

/-- The neighbours of a block, and the ends of its instruction list. -/
structure BlockNode where
  prev : Option BlockId
  next : Option BlockId
  first : Option InstId
  last : Option InstId
deriving DecidableEq, Inhabited

/-- The block of an instruction, and its neighbours there. -/
structure InstNode where
  block : Option BlockId
  prev : Option InstId
  next : Option InstId
deriving DecidableEq, Inhabited

/-- The order of blocks and instructions. -/
structure Layout where
  blocks : Table BlockNode
  insts : Table InstNode
  entry : Option BlockId
  last : Option BlockId

namespace Layout

/-- The layout of a function without blocks. -/
def empty : Layout := ⟨.empty, .empty, none, none⟩

instance : Inhabited Layout := ⟨empty⟩

/-! ## Queries -/

/-- The node of a block. -/
def blockNode (l : Layout) (b : BlockId) : BlockNode := l.blocks.get b.index

/-- The node of an instruction. -/
def instNode (l : Layout) (i : InstId) : InstNode := l.insts.get i.index

/-- Whether a block has a place in the order. The first block may have an empty node; every other
one follows a block, and its node says so. -/
def blockInserted (l : Layout) (b : BlockId) : Bool :=
  l.entry = some b || l.blockNode b ≠ default

/-- Whether an instruction has a place in some block, which its node then names. -/
def instInserted (l : Layout) (i : InstId) : Bool := l.instNode i ≠ default

/-- The node of a block that must be inserted. -/
def insertedBlock (l : Layout) (b : BlockId) : Except Fault BlockNode :=
  if l.blockInserted b then .ok (l.blockNode b) else .error .precondition

/-- The node of an instruction that must be inserted. -/
def insertedInst (l : Layout) (i : InstId) : Except Fault InstNode :=
  if l.instInserted i then .ok (l.instNode i) else .error .precondition

/-- The block that follows. -/
def nextBlock (l : Layout) (b : BlockId) : Except Fault (Option BlockId) :=
  BlockNode.next <$> l.insertedBlock b

/-- The first instruction of a block. -/
def firstInst (l : Layout) (b : BlockId) : Except Fault (Option InstId) :=
  BlockNode.first <$> l.insertedBlock b

/-- The last instruction of a block. -/
def lastInst (l : Layout) (b : BlockId) : Except Fault (Option InstId) :=
  BlockNode.last <$> l.insertedBlock b

/-- Whether a block has no instructions. -/
def blockEmpty (l : Layout) (b : BlockId) : Except Fault Bool :=
  Option.isNone <$> l.firstInst b

/-- The instruction before another one in its block. -/
def prevInst (l : Layout) (i : InstId) : Except Fault (Option InstId) :=
  InstNode.prev <$> l.insertedInst i

/-- The instruction behind another one in its block. -/
def nextInst (l : Layout) (i : InstId) : Except Fault (Option InstId) :=
  InstNode.next <$> l.insertedInst i

/-- The block that an instruction stands in. -/
def blockOf (l : Layout) (i : InstId) : Except Fault BlockId :=
  require (l.instNode i).block (.notInserted i)

/-! ## Iteration -/

/-- The chain that starts at `start` and goes on by `next`, cut off after `bound` links. -/
def chain {α : Type} (next : α → Option α) : Nat → Option α → List α
  | 0, _ => []
  | _, none => []
  | bound + 1, some a => a :: chain next bound (next a)

/-- The blocks in order. A chain of distinct blocks is no longer than the table of blocks. -/
def blockOrder (l : Layout) : List BlockId :=
  chain (fun b => (l.blockNode b).next) l.blocks.size l.entry

/-- The instructions of a block in order. -/
def instsOf (l : Layout) (b : BlockId) : List InstId :=
  chain (fun i => (l.instNode i).next) l.insts.size (l.blockNode b).first

/-- The instructions of a block that must be inserted. -/
def blockInsts (l : Layout) (b : BlockId) : Except Fault (List InstId) :=
  if l.blockInserted b then .ok (l.instsOf b) else .error .precondition

/-- All instructions, block after block. -/
def allInsts (l : Layout) : List InstId := l.blockOrder.flatMap l.instsOf

/-! ## Edits -/

/-- Changes the node of a block. -/
def modifyBlock (l : Layout) (b : BlockId) (f : BlockNode → BlockNode) : Layout :=
  { l with blocks := l.blocks.modify b.index f }

/-- Changes the node of an instruction. -/
def modifyInst (l : Layout) (i : InstId) (f : InstNode → InstNode) : Layout :=
  { l with insts := l.insts.modify i.index f }

/-- Writes the node of an instruction. -/
def setInst (l : Layout) (i : InstId) (node : InstNode) : Layout :=
  { l with insts := l.insts.set i.index node }

/-- Puts a block behind all others. -/
def appendBlock (l : Layout) (b : BlockId) : Except Fault Layout :=
  if l.blockInserted b then .error .precondition
  else
    let node : BlockNode := ⟨l.last, none, none, none⟩
    let linked := match l.last with
      | some last => l.modifyBlock last ({ · with next := some b })
      | none => { l with entry := some b }
    .ok { linked with blocks := linked.blocks.set b.index node, last := some b }

/-- Puts an instruction at the end of a block. -/
def appendInst (l : Layout) (i : InstId) (b : BlockId) : Except Fault Layout :=
  if !l.blockInserted b || l.instInserted i then .error .precondition
  else
    let last := (l.blockNode b).last
    let linked := match last with
      | some j => l.modifyInst j ({ · with next := some i })
      | none => l.modifyBlock b ({ · with first := some i })
    .ok ((linked.modifyBlock b ({ · with last := some i })).setInst i ⟨some b, last, none⟩)

/-- Puts an instruction at the start of a block. -/
def prependInst (l : Layout) (i : InstId) (b : BlockId) : Except Fault Layout :=
  if !l.blockInserted b || l.instInserted i then .error .precondition
  else
    let first := (l.blockNode b).first
    let linked := match first with
      | some j => l.modifyInst j ({ · with prev := some i })
      | none => l.modifyBlock b ({ · with last := some i })
    .ok ((linked.modifyBlock b ({ · with first := some i })).setInst i ⟨some b, none, first⟩)

/-- Puts an instruction directly before another one. -/
def insertBefore (l : Layout) (i before : InstId) : Except Fault Layout :=
  if !l.instInserted before || l.instInserted i then .error .precondition
  else do
    let b ← l.blockOf before
    let prev := (l.instNode before).prev
    let linked := match prev with
      | some j => l.modifyInst j ({ · with next := some i })
      | none => l.modifyBlock b ({ · with first := some i })
    return (linked.modifyInst before ({ · with prev := some i })).setInst i
      ⟨some b, prev, some before⟩

/-- Puts an instruction directly after another one. -/
def insertAfter (l : Layout) (i after : InstId) : Except Fault Layout :=
  if !l.instInserted after || l.instInserted i then .error .precondition
  else do
    let b ← l.blockOf after
    let next := (l.instNode after).next
    let linked := match next with
      | some j => l.modifyInst j ({ · with prev := some i })
      | none => l.modifyBlock b ({ · with last := some i })
    return (linked.modifyInst after ({ · with next := some i })).setInst i
      ⟨some b, some after, next⟩

end Layout

end Pointee
