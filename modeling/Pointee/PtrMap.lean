import Pointee.TypedSignature

/-!
# The pointer map

The pointer map holds the descriptors that were recovered for the pointers of a module, together
with the typed signatures of its functions and the retyped contents of its globals. A descriptor is
never revised: `PtrMap.get?_insert` says that the first one recorded for a pointer stays.
-/

namespace Pointee

/-- The recovered pointer types of a module. -/
structure PtrMap where
  descriptors : List (PtrKey × Descriptor)
  signatures : List (FuncId × TypedSignature)
  /-- The types of globals' contents with typed pointers in them. -/
  contents : List (GlobalId × Ty)

namespace PtrMap

/-- The map that knows nothing. -/
def empty : PtrMap := ⟨[], [], []⟩

instance : Inhabited PtrMap := ⟨empty⟩

/-- The descriptor of a pointer. -/
def get? (m : PtrMap) (key : PtrKey) : Option Descriptor := m.descriptors.lookup key

/-- Whether a pointer has a descriptor. -/
def contains (m : PtrMap) (key : PtrKey) : Bool := (m.get? key).isSome

/-- Records a descriptor, unless the pointer has one. -/
def insert (m : PtrMap) (key : PtrKey) (d : Descriptor) : PtrMap :=
  if m.contains key then m else { m with descriptors := (key, d) :: m.descriptors }

/-- The descriptor of a value of function `f`. -/
def ofValue? (m : PtrMap) (f : FuncId) (g : Graph) (v : ValueId) :
    Except Fault (Option Descriptor) := do
  return m.get? (← PtrKey.ofValue f g v)

/-- The descriptor of a pointer, or `fallback` in the given address space. -/
def getD (m : PtrMap) (key : PtrKey) (space : AddrSpace) (fallback : Ty) : Descriptor :=
  (m.get? key).getD ⟨fallback, space⟩

/-- The typed signature of a function. -/
def signature? (m : PtrMap) (f : FuncId) : Option TypedSignature := m.signatures.lookup f

/-- Records the typed signature of a function; the last one counts. -/
def setSignature (m : PtrMap) (f : FuncId) (t : TypedSignature) : PtrMap :=
  { m with signatures := (f, t) :: m.signatures }

/-- The retyped content of a global. -/
def content? (m : PtrMap) (g : GlobalId) : Option Ty := m.contents.lookup g

/-- Records the retyped content of a global; the last one counts. -/
def setContent (m : PtrMap) (g : GlobalId) (ty : Ty) : PtrMap :=
  { m with contents := (g, ty) :: m.contents }

/-- The number of pointers that have a descriptor. -/
def size (m : PtrMap) : Nat := m.descriptors.length

/-- The pointers that have a descriptor, in order. -/
def entries (m : PtrMap) : List (PtrKey × Descriptor) :=
  m.descriptors.mergeSort fun a b => a.1.le b.1

@[simp] theorem get?_empty (key : PtrKey) : empty.get? key = none := rfl

/-- The first descriptor stays. -/
theorem get?_insert (m : PtrMap) (key other : PtrKey) (d : Descriptor) :
    (m.insert key d).get? other =
      if other = key then (m.get? key).or (some d) else m.get? other := by
  unfold insert contains
  split
  · next h =>
      split
      · next e =>
          subst e
          obtain ⟨a, ha⟩ := Option.isSome_iff_exists.1 h
          simp [ha]
      · rfl
  · next h =>
      have hnone : m.get? key = none := by simpa using h
      split
      · next e =>
          subst e
          rw [hnone]
          simp [get?]
      · next e =>
          have hne : (other == key) = false := by simpa using e
          simp [get?, List.lookup_cons, hne]

/-- Recording a pointer makes it known and forgets no other. -/
theorem contains_insert (m : PtrMap) (key other : PtrKey) (d : Descriptor) :
    (m.insert key d).contains other = (decide (other = key) || m.contains other) := by
  unfold contains
  rw [get?_insert]
  by_cases h : other = key
  · subst h
    simp
  · simp [h]

end PtrMap

end Pointee
