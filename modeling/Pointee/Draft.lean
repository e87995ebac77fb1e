import Pointee.Module

/-!
# Drafts

A draft is a function body being written: the function so far, and the location where the next
instruction goes. Writing an instruction moves the location onto it.
-/

namespace Pointee

/-- A function body being written. -/
structure Draft where
  /-- The function that the body is for. -/
  self : FuncId
  func : Function
  loc : Location

namespace Draft

/-- Starts the body of a declared function afresh. -/
def start (ctx : Context) (f : FuncId) : Except Fault Draft := do
  return ⟨f, .ofSignature (← ctx.signature f), .nowhere⟩

/-- The module with the drafted body in the place of the function it is for. -/
def finish (d : Draft) (m : Module) : Module := m.setFunc d.self d.func

/-- Changes the graph by an operation that makes something. -/
def withGraph {α : Type} (d : Draft) (make : Graph → α × Graph) : α × Draft :=
  let (a, graph) := make d.func.graph
  (a, { d with func := { d.func with graph } })

/-! ## Blocks and the location -/

/-- Makes a block that has no place in the layout yet. -/
def makeBlock (d : Draft) : BlockId × Draft := d.withGraph Graph.addBlock

/-- Makes a block and puts it behind all others. -/
def appendBlock (d : Draft) : Except Fault (BlockId × Draft) := do
  let (b, d) := d.makeBlock
  let layout ← d.func.layout.appendBlock b
  return (b, { d with func := { d.func with layout } })

/-- Goes on at a location. -/
def moveTo (d : Draft) (loc : Location) : Draft := { d with loc }

/-- Goes on at the bottom of a block. -/
def switchTo (d : Draft) (b : BlockId) : Draft := d.moveTo (.bottom b)

/-- Goes on at the top of the first block. -/
def moveToEntry (d : Draft) : Draft := d.moveTo (.ofEntry d.func.layout)

/-- Goes one location ahead. -/
def proceed (d : Draft) : Except Fault Draft := do
  return d.moveTo (← d.loc.next d.func.layout)

/-- Goes one location back. -/
def back (d : Draft) : Except Fault Draft := do
  return d.moveTo (← d.loc.prev d.func.layout)

/-! ## Constants -/

/-- An integer constant. -/
def imm (d : Draft) (value : Immediate) : ValueId × Draft := d.withGraph (·.intern (.imm value))

/-- The undefined value of a type. -/
def undef (d : Draft) (ty : Ty) : ValueId × Draft := d.withGraph (·.intern (.undef ty))

/-- The null pointer of an address space. -/
def null (d : Draft) (space : AddrSpace) : ValueId × Draft := d.withGraph (·.intern (.null space))

/-- The address of a global variable. -/
def globalAddr (ctx : Context) (d : Draft) (g : GlobalId) : Except Fault (ValueId × Draft) := do
  let global ← ctx.global g
  return d.withGraph (·.intern (.global g (.ptr global.space)))

/-- The address of a function. -/
def funcAddr (d : Draft) (f : FuncId) : ValueId × Draft := d.withGraph (·.intern (.func f))

/-- The element type that an address computation over the operands `args` lands on. The first
operand is the base pointer. -/
def addressElement (ctx : Context) (d : Draft) (source : Ty) (args : List ValueId) :
    Except Fault Ty := do
  match args with
  | [] => throw .outOfBounds
  | _ :: indices =>
      let indices ← indices.mapM fun v => return (← d.func.graph.value v).imm?.bind (·.toIndex?)
      ctx.types.elementType source indices

/-- A constant expression. -/
def constExpr (d : Draft) (e : ConstExpr) : Except Fault (ValueId × Draft) := do
  let (v, graph) ← d.func.graph.addExpr e
  return (v, { d with func := { d.func with graph } })

/-- A constant address computation. -/
def constGep (ctx : Context) (d : Draft) (source : Ty) (args : List ValueId) :
    Except Fault (ValueId × Draft) := do
  let result ← d.addressElement ctx source args
  d.constExpr (.gep source result args)

/-! ## Instructions -/

/-- Writes an instruction together with the value it defines. -/
def insert (d : Draft) (inst : Inst) : Except Fault (Function.Insertion × Draft) := do
  let (ins, func) ← d.func.insert d.loc inst
  return (ins, { d with func, loc := .inst ins.inst })

/-- Writes an instruction that must define a value. -/
def define (d : Draft) (inst : Inst) : Except Fault (ValueId × Draft) := do
  let (ins, d) ← d.insert inst
  return (← require ins.result (.noResult ins.inst), d)

/-- Writes an instruction for its effect alone. -/
def emit (d : Draft) (inst : Inst) : Except Fault Draft := do
  let (i, func) ← d.func.place d.loc inst
  return { d with func, loc := .inst i }

/-- Puts an instruction at the end of the current block and stays where it is. -/
def append (d : Draft) (inst : Inst) : Except Fault (InstId × Draft) := do
  let (i, graph) := d.func.graph.addInst inst
  let b ← d.loc.expectBlock d.func.layout
  let layout ← d.func.layout.appendInst i b
  return (i, { d with func := { d.func with graph, layout } })

/-- Puts another instruction in the place of the current one. -/
def replace (d : Draft) (inst : Inst) : Except Fault Draft := do
  let graph ← d.func.graph.replaceInst (← d.loc.expectInst) inst
  return { d with func := { d.func with graph } }

/-- An address computation. -/
def gep (ctx : Context) (d : Draft) (source : Ty) (args : List ValueId) :
    Except Fault (ValueId × Draft) := do
  let result ← d.addressElement ctx source args
  d.define (.gep source result args)

/-- A call of a declared function. It defines a value unless the callee returns `unit`. -/
def call (ctx : Context) (d : Draft) (callee : FuncId) (args : List ValueId) :
    Except Fault (Option ValueId × Draft) := do
  let sig ← ctx.signature callee
  let (ins, d) ← d.insert (.call callee args sig.ret)
  return (ins.result, d)

/-- Appends an incoming value to the phi that defines `phi`. -/
def appendIncoming (d : Draft) (phi v : ValueId) (b : BlockId) : Except Fault Draft := do
  let i ← require (← d.func.graph.value phi).inst? .notPhiResult
  let graph ← d.func.graph.appendIncoming i v b
  return { d with func := { d.func with graph } }

end Draft

end Pointee
