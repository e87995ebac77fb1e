import Pointee.Context

/-!
# The text of constants and declarations

Constants, globals and signatures are written out against a context, because their texts name
symbols and types of it.
-/

namespace Pointee

namespace Constant

mutual

/-- The text of a constant. -/
def text (ctx : Context) : Constant → Except Fault String
  | imm value => return value.text ++ "." ++ (← ctx.typeText value.ty)
  | null space => return "null." ++ (← ctx.typeText (.ptr space))
  | undef ty => return "undef." ++ (← ctx.typeText ty)
  | zero ty => return "zero." ++ (← ctx.typeText ty)
  | global id => return "%" ++ (← ctx.global id).symbol
  | func id => return "%" ++ (← ctx.signature id).name
  | array _ elems => return "[" ++ ", ".intercalate (← texts ctx elems) ++ "]"
  | vector _ elems => return "<" ++ ", ".intercalate (← texts ctx elems) ++ ">"
  | struct _ fields => return "\x7b" ++ ", ".intercalate (← texts ctx fields) ++ "\x7d"

/-- The texts of the elements of an aggregate. -/
def texts (ctx : Context) : List Constant → Except Fault (List String)
  | [] => return []
  | c :: cs => return (← text ctx c) :: (← texts ctx cs)

end

end Constant

/-- The line that defines a global, without its end. -/
def Global.text (ctx : Context) (g : Global) : Except Fault String := do
  let const := if g.isConst then "const " else ""
  let space :=
    if g.space = .generic then "" else "addrspace(" ++ toString g.space.number ++ ") "
  let ty ← ctx.typeText g.ty
  let init ← match g.init with
    | none => pure ""
    | some c => (" = " ++ ·) <$> c.text ctx
  return "global " ++ g.linkage.text ++ " " ++ const ++ space ++ ty ++ " %" ++ g.symbol ++ init ++
    ";"

/-- The text of an annotation: the sample of the return, then those of the arguments. -/
def Annotation.text (ctx : Context) (a : Annotation) : Except Fault String := do
  let ret ← match a.ret with
    | none => pure []
    | some c => (fun text => ["ret " ++ text]) <$> c.text ctx
  let args ← a.args.mapM fun (i, c) => return toString i ++ " " ++ (← c.text ctx)
  return "!arg_eltypes(" ++ ", ".intercalate (ret ++ args) ++ ")"

namespace Signature

/-- What follows the argument list of a function: its return type and its annotation. -/
def tailText (ctx : Context) (sig : Signature) : Except Fault String := do
  let ret ← if sig.ret.isUnit then pure "" else (" -> " ++ ·) <$> ctx.typeText sig.ret
  let annotation ← match sig.annotation with
    | none => pure ""
    | some a => (" " ++ ·) <$> a.text ctx
  return ret ++ annotation

/-- The first line of a function, with its arguments given. -/
def textWith (ctx : Context) (sig : Signature) (args : List String) : Except Fault String := do
  let tail ← sig.tailText ctx
  return "func " ++ sig.linkage.text ++ " %" ++ sig.name ++ "(" ++ ", ".intercalate args ++ ")" ++
    tail

/-- The text of a signature. -/
def text (ctx : Context) (sig : Signature) : Except Fault String := do
  sig.textWith ctx (← sig.args.mapM ctx.typeText)

end Signature

end Pointee
