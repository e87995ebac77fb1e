/-!
# Tables with a default row

A table answers for every index. A row that was never written reads as the default of its type,
and a write beyond the end fills the gap with defaults. `Table.get_set` is the whole theory: a
write changes one row and no other.
-/

namespace Pointee

/-- Rows by index, all but finitely many of them the default. -/
structure Table (α : Type) where
  rows : Array α

namespace Table

variable {α : Type}

/-- The table that holds the default in every row. -/
def empty : Table α := ⟨#[]⟩

instance : Inhabited (Table α) := ⟨empty⟩

/-- Every row from here on was never written. -/
def size (t : Table α) : Nat := t.rows.size

variable [Inhabited α]

/-- The row at `i`. -/
def get (t : Table α) (i : Nat) : α := t.rows[i]?.getD default

/-- Writes row `i`. -/
def set (t : Table α) (i : Nat) (a : α) : Table α :=
  if i < t.rows.size then ⟨t.rows.setIfInBounds i a⟩
  else ⟨(t.rows ++ Array.replicate (i - t.rows.size) default).push a⟩

/-- Changes row `i` by `f`. -/
def modify (t : Table α) (i : Nat) (f : α → α) : Table α := t.set i (f (t.get i))

@[simp] theorem get_empty (i : Nat) : (empty : Table α).get i = default := by
  simp [get, empty]

/-- A row from the size on is the default. -/
theorem get_of_size_le {t : Table α} {i : Nat} (h : t.size ≤ i) : t.get i = default := by
  simp only [size] at h
  simp [get, h]

/-- A write changes one row and no other. -/
theorem get_set (t : Table α) (i j : Nat) (a : α) :
    (t.set i a).get j = if i = j then a else t.get j := by
  unfold set get
  by_cases h : i < t.rows.size
  · simp only [h, if_true]
    by_cases hij : i = j
    · subst hij
      simp [h]
    · simp [hij]
  · simp only [h, if_false, Array.getElem?_push, Array.getElem?_append, Array.size_append,
      Array.size_replicate]
    by_cases hij : i = j
    · subst hij
      simp only [if_true]
      rw [if_pos (by omega)]
      rfl
    · simp only [hij, if_false]
      rw [if_neg (by omega)]
      by_cases hj : j < t.rows.size
      · simp [hj]
      · simp only [hj, if_false]
        have hnone : t.rows[j]? = none := by simpa using hj
        rw [hnone]
        by_cases hk : j - t.rows.size < i - t.rows.size
        · simp [hk]
        · simp [hk]

@[simp] theorem get_set_self (t : Table α) (i : Nat) (a : α) : (t.set i a).get i = a := by
  simp [get_set]

theorem get_set_of_ne (t : Table α) {i j : Nat} (a : α) (h : i ≠ j) :
    (t.set i a).get j = t.get j := by
  simp [get_set, h]

theorem get_modify (t : Table α) (i j : Nat) (f : α → α) :
    (t.modify i f).get j = if i = j then f (t.get j) else t.get j := by
  unfold modify
  rw [get_set]
  split
  · next h => rw [h]
  · rfl

/-- A write makes the table just large enough to hold the row. -/
theorem size_set (t : Table α) (i : Nat) (a : α) : (t.set i a).size = max t.size (i + 1) := by
  unfold set size
  split <;> simp <;> omega

end Table

end Pointee
