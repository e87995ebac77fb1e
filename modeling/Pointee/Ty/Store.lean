import Pointee.Fault
import Pointee.Ty

/-!
# The type store

The store holds each compound type once, so two handles are equal exactly when the types they
stand for are. A compound type is built from types that are in the store already, which is why
unfolding a handle ends: each step leads to an earlier row. Definitions that follow handles count
down from the number of rows, and a handle that leads nowhere is out of bounds. Two indices stand
beside the rows: from compound types to their handles, and from names to the structs of that name.
-/

namespace Pointee

/-- The compound types of a module, in order of creation. -/
structure TypeStore where
  compounds : Array Compound
  /-- The handle of each compound type. -/
  handles : List (Compound × TypeId)
  /-- The structs that have a name, in order of declaration. -/
  structs : List (String × TypeId)
deriving DecidableEq

namespace TypeStore

/-- The store that holds nothing. -/
def empty : TypeStore := ⟨#[], [], []⟩

instance : Inhabited TypeStore := ⟨empty⟩

/-- The number of compound types. -/
def size (s : TypeStore) : Nat := s.compounds.size

/-- The compound type behind a handle. -/
def get (s : TypeStore) (id : TypeId) : Except Fault Compound :=
  require s.compounds[id.index]? .outOfBounds

/-- The compound type behind a type, if it is one. -/
def resolve (s : TypeStore) : Ty → Except Fault (Option Compound)
  | .compound id => some <$> s.get id
  | _ => .ok none

/-- The handle of a compound type that is in the store. -/
def find? (s : TypeStore) (c : Compound) : Option TypeId := s.handles.lookup c

/-- Enters a compound type that is not in the store yet. -/
def enter (s : TypeStore) (c : Compound) : TypeStore where
  compounds := s.compounds.push c
  handles := (c, ⟨s.size⟩) :: s.handles
  structs := s.structs ++ (c.structName?.map fun name => (name, ⟨s.size⟩)).toList

/-- The handle of a compound type, which enters the store unless it is there already. -/
def intern (s : TypeStore) (c : Compound) : Ty × TypeStore :=
  match s.find? c with
  | some id => (.compound id, s)
  | none => (.compound ⟨s.size⟩, s.enter c)

/-- A type that enters gets the next row, and the other rows stay. -/
theorem get_enter (s : TypeStore) (c : Compound) (id : TypeId) :
    (s.enter c).get id = if id.index = s.size then .ok c else s.get id := by
  unfold get enter size
  rw [Array.getElem?_push]
  split <;> rfl

/-- A type that enters can be found, and so can the others. -/
theorem find?_enter (s : TypeStore) (c d : Compound) :
    (s.enter c).find? d = if d = c then some ⟨s.size⟩ else s.find? d := by
  unfold find? enter
  by_cases h : d = c
  · rw [if_pos h, h, List.lookup_cons_self]
  · have hne : (d == c) = false := by simpa using h
    rw [if_neg h, List.lookup_cons, hne]

/-- An array type. -/
def array (s : TypeStore) (elem : Ty) (len : Nat) : Ty × TypeStore := s.intern (.array elem len)

/-- A vector type. -/
def vector (s : TypeStore) (elem : Ty) (len : Nat) : Ty × TypeStore := s.intern (.vector elem len)

/-- A struct without a name. -/
def literalStruct (s : TypeStore) (fields : List Ty) (packed : Bool) : Ty × TypeStore :=
  s.intern (.struct ⟨none, fields, packed⟩)

/-- A function type. -/
def func (s : TypeStore) (args : List Ty) (ret : Ty) : Ty × TypeStore := s.intern (.func args ret)

/-- A typed pointer type. -/
def typedPtr (s : TypeStore) (pointee : Ty) (space : AddrSpace) : Ty × TypeStore :=
  s.intern (.typedPtr pointee space)

/-- The struct behind a handle. -/
def structAt? (s : TypeStore) (id : TypeId) : Option StructDef :=
  match s.compounds[id.index]? with
  | some (.struct d) => some d
  | _ => none

/-- The structs that have a name, in order of declaration. -/
def namedStructs (s : TypeStore) : List StructDef :=
  s.structs.filterMap fun (_, id) => s.structAt? id

/-- The struct of the given name. -/
def structNamed? (s : TypeStore) (name : String) : Option Ty :=
  (s.structs.lookup name).map .compound

/-- Declares a struct. Declaring it again in the same way gives the first one; any other
declaration of its name is a fault. -/
def declareStruct (s : TypeStore) (name : String) (fields : List Ty) (packed : Bool) :
    Except Fault (Ty × TypeStore) :=
  let c := Compound.struct ⟨some name, fields, packed⟩
  if (s.find? c).isSome then .ok (s.intern c)
  else if (s.structNamed? name).isSome then .error (.structRedefined name)
  else .ok (s.intern c)

/-- One step of an address computation into `t`. A struct needs a constant index; `none` stands
for one that is not. -/
def stepInto (s : TypeStore) (t : Ty) (index : Option Nat) : Except Fault Ty := do
  match ← s.resolve t with
  | some (.array elem _) => return elem
  | some (.vector elem _) => return elem
  | some (.struct d) =>
      match index with
      | none => throw .indexNotConstant
      | some i => require d.fields[i]? .outOfBounds
  | _ => throw .notAggregate

/-- The element type that an address computation over `source` lands on. The first index steps
over the base pointer and keeps `source`. -/
def elementType (s : TypeStore) (source : Ty) (indices : List (Option Nat)) : Except Fault Ty :=
  (indices.drop 1).foldlM s.stepInto source

/-! ## Text -/

/-- The text between the braces of a struct. -/
def fieldsText (packed : Bool) (fields : List String) : String :=
  let inner := "\x7b" ++ ", ".intercalate fields ++ "\x7d"
  if packed then "<" ++ inner ++ ">" else inner

/-- The text of a type whose handles are nested at most `depth` deep. -/
def textWithin (s : TypeStore) : Nat → Ty → Except Fault String
  | _, .int width => .ok width.text
  | _, .f32 => .ok "f32"
  | _, .f64 => .ok "f64"
  | _, .ptr space => .ok ("ptr" ++ space.mark)
  | _, .unit => .ok "unit"
  | 0, .compound _ => .error .outOfBounds
  | depth + 1, .compound id => do
      match ← s.get id with
      | .array elem len =>
          return "[" ++ (← s.textWithin depth elem) ++ "; " ++ toString len ++ "]"
      | .vector elem len =>
          return "<" ++ (← s.textWithin depth elem) ++ "; " ++ toString len ++ ">"
      | .struct ⟨some name, _, packed⟩ =>
          return if packed then "@<" ++ name ++ ">" else "@" ++ name
      | .struct ⟨none, fields, packed⟩ =>
          return fieldsText packed (← fields.mapM (s.textWithin depth))
      | .func args ret =>
          let args ← args.mapM (s.textWithin depth)
          return "(" ++ ", ".intercalate args ++ ") -> " ++ (← s.textWithin depth ret)
      | .typedPtr pointee space =>
          return "*" ++ space.mark ++ (← s.textWithin depth pointee)

/-- The text of a type. A named struct is written by its name alone. -/
def text (s : TypeStore) (t : Ty) : Except Fault String := s.textWithin s.size t

/-- The declaration of a named struct, as a line of a module's text. -/
def structLine (s : TypeStore) (d : StructDef) : Except Fault String := do
  let fields ← d.fields.mapM s.text
  return "type @" ++ d.name.getD "" ++ " = " ++ fieldsText d.packed fields ++ ";\n"

end TypeStore

end Pointee
