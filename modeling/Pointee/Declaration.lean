import Pointee.Constant

/-!
# Declarations

What a module declares by name: global variables, and functions with their signatures. The
signature of a function may carry an annotation of samples; the type of a sample is the element
type of the pointer it stands for.
-/

namespace Pointee

/-- Who can see a symbol. -/
inductive Linkage where
  /-- Defined here and visible elsewhere. -/
  | exported
  /-- Defined here and visible here only. -/
  | hidden
  /-- Defined elsewhere. -/
  | imported
deriving DecidableEq

/-- The word for a linkage. -/
def Linkage.text : Linkage → String
  | exported => "public"
  | hidden => "private"
  | imported => "external"

/-- A global variable. `ty` is the type of its content, not of its address. -/
structure Global where
  symbol : String
  ty : Ty
  space : AddrSpace
  linkage : Linkage
  isConst : Bool
  init : Option Constant

/-- A global that is never written, in the generic address space. -/
def Global.constant (symbol : String) (ty : Ty) (linkage : Linkage) (init : Constant) : Global :=
  ⟨symbol, ty, .generic, linkage, true, some init⟩

/-- Samples of the element types that a function's pointers point to: one for the returned
pointer, and argument positions with theirs, in order. A position may occur more than once; the
first sample counts. -/
structure Annotation where
  ret : Option Constant
  args : List (Nat × Constant)

/-- The sample for argument `i`. -/
def Annotation.arg? (a : Annotation) (i : Nat) : Option Constant :=
  (a.args.find? (·.1 = i)).map (·.2)

/-- The declaration of a function. -/
structure Signature where
  name : String
  linkage : Linkage
  args : List Ty
  ret : Ty
  annotation : Option Annotation

namespace Signature

/-- The function type of a signature. -/
def funcType (sig : Signature) (types : TypeStore) : Ty × TypeStore := types.func sig.args sig.ret

/-- Whether the function is defined elsewhere. -/
def isImported (sig : Signature) : Bool := sig.linkage = .imported

end Signature

end Pointee
