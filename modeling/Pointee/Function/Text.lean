import Pointee.Context.Text
import Pointee.Function

/-!
# The text of a function

A declaration is written as its signature, a definition with its blocks and instructions. Operands
are written by number when they are computed, and in full when they are constants. A constant
expression is written with its operands; one that does not contain itself is nested at most as deep
as there are values.
-/

namespace Pointee.Function

/-- The text of a value whose constant expressions are nested at most `depth` deep. -/
def valueTextWithin (ctx : Context) (g : Graph) : Nat → ValueId → Except Fault String
  | depth, v => do
      match ← g.value v with
      | .inst .. => return "v" ++ toString v.index
      | .arg .. => return "v" ++ toString v.index
      | .imm value => return value.text ++ "." ++ (← ctx.typeText value.ty)
      | .global id _ => return "%" ++ (← ctx.global id).symbol
      | .func id => return "%" ++ (← ctx.signature id).name
      | .null space => return "null." ++ (← ctx.typeText (.ptr space))
      | .undef ty => return "undef." ++ (← ctx.typeText ty)
      | .expr e _ =>
          match depth with
          | 0 => throw .circularConstant
          | depth + 1 =>
              match e with
              | .gep source _ args =>
                  let source ← ctx.typeText source
                  let args ← args.mapM (valueTextWithin ctx g depth)
                  return "(gep " ++ source ++ " " ++ " ".intercalate args ++ ")"
              | .cast op arg ty =>
                  let arg ← valueTextWithin ctx g depth arg
                  return "(" ++ op.name ++ " " ++ arg ++ " " ++ (← ctx.typeText ty) ++ ")"

variable (ctx : Context) (f : Function)

/-- The text of a value as an operand. -/
def valueText (v : ValueId) : Except Fault String :=
  valueTextWithin ctx f.graph f.graph.values.size v

/-- The texts of values, divided by blanks. -/
def operandsText (vs : List ValueId) : Except Fault String :=
  " ".intercalate <$> vs.mapM (valueText ctx f)

/-- The label of a block. -/
def blockName (b : BlockId) : String := "block" ++ toString b.index

/-- The operation of an instruction and its operands. -/
def operationText : Inst → Except Fault String
  | .unary op arg => return op.name ++ " " ++ (← valueText ctx f arg)
  | .binary op lhs rhs => return op.name ++ " " ++ (← operandsText ctx f [lhs, rhs])
  | .cast op arg _ => return op.name ++ " " ++ (← valueText ctx f arg)
  | .load ptr _ => return "load " ++ (← valueText ctx f ptr)
  | .store value ptr => return "store " ++ (← operandsText ctx f [value, ptr])
  | .rmw op ptr value =>
      return "atomicrmw." ++ op.name ++ " " ++ (← operandsText ctx f [ptr, value])
  | .cmpxchg ptr expected replacement =>
      return "cmpxchg " ++ (← operandsText ctx f [ptr, expected, replacement])
  | .gep source _ args => do
      let source ← ctx.typeText source
      return "gep " ++ source ++ " " ++ (← operandsText ctx f args)
  | .alloca ty _ => return "alloca " ++ (← ctx.typeText ty)
  | .call callee args _ => do
      let name := (← ctx.signature callee).name
      let args ← args.mapM (valueText ctx f)
      return "call %" ++ name ++ String.join (args.map (" " ++ ·))
  | .select cond onTrue onFalse =>
      return "select " ++ (← operandsText ctx f [cond, onTrue, onFalse])
  | .phi _ incoming => do
      let incoming ← incoming.mapM fun (v, b) =>
        return " (" ++ (← valueText ctx f v) ++ " " ++ blockName b ++ ")"
      return "phi" ++ String.join incoming
  | .jump dest => return "jump " ++ blockName dest
  | .branch cond onTrue onFalse =>
      return "br " ++ (← valueText ctx f cond) ++ " " ++ blockName onTrue ++ " " ++
        blockName onFalse
  | .ret none => return "return"
  | .ret (some v) => return "return " ++ (← valueText ctx f v)

/-- The text of an instruction: the value it defines, if any, and its operation. -/
def instText (i : InstId) : Except Fault String := do
  let result ← match f.graph.result? i with
    | none => pure ""
    | some v =>
        (fun ty => "v" ++ toString v.index ++ "." ++ ty ++ " = ") <$>
          (f.graph.typeOf v >>= ctx.typeText)
  return result ++ (← operationText ctx f (← f.graph.inst i))

/-- The lines of a block. -/
def blockText (b : BlockId) : Except Fault String := do
  let lines ← (f.layout.instsOf b).mapM fun i =>
    return "        " ++ (← instText ctx f i) ++ ";\n"
  return "    " ++ blockName b ++ ":\n" ++ String.join lines

/-- An argument as it stands in the first line of a definition. -/
def argText (v : ValueId) : Except Fault String := do
  let text ← valueText ctx f v
  return text ++ "." ++ (← ctx.typeText (← f.graph.typeOf v))

/-- The text of the function declared as `id`. -/
def text (id : FuncId) : Except Fault String := do
  let sig ← ctx.signature id
  if f.isDeclaration then return (← sig.text ctx) ++ ";\n"
  let head ← sig.textWith ctx (← f.args.mapM (argText ctx f))
  let blocks ← f.layout.blockOrder.mapM (blockText ctx f)
  return head ++ " \x7b\n" ++ String.join blocks ++ "\x7d\n"

end Pointee.Function
