import Pointee.PtrMap
import Pointee.Proofs.GraphConsistency
import Pointee.Proofs.TypeGrowth

/-!
# Recording descriptors

The first descriptor that is recorded for a pointer stays, so a pointer map is told by what is
recorded, and in which order. `PtrMap.Recorded` says that a map is another one with what the members
of a list fix, in order, and `Pass.Records` that a pass records what a relation says, whatever the
map it is given. `PtrMap.AddsValues` says that only values of some functions are recorded.
-/

namespace Pointee

attribute [ext] Descriptor

theorem PtrKey.ofValue_total {g : Graph} {v : ValueId} (h : g.Has v) (id : FuncId) :
    ∃ key, PtrKey.ofValue id g v = .ok key := by
  obtain ⟨val, hval⟩ := h.exists_value
  unfold PtrKey.ofValue
  rw [hval]
  cases val <;> exact ⟨_, rfl⟩

/-- The address of a symbol is named by the symbol, and every other value by its number. -/
theorem PtrKey.ofValue_eq_ok {g : Graph} {v : ValueId} {id : FuncId} {key : PtrKey}
    (h : PtrKey.ofValue id g v = .ok key) :
    (∃ gid ty, g.value v = .ok (.global gid ty) ∧ key = .global gid) ∨
      (∃ f, g.value v = .ok (.func f) ∧ key = .func f) ∨ key = .value id v := by
  obtain ⟨val, hval, hrest⟩ := bind_eq_ok_iff.1 h
  cases val with
  | global gid ty =>
      cases hrest
      exact .inl ⟨gid, ty, hval, rfl⟩
  | func f =>
      cases hrest
      exact .inr (.inl ⟨f, hval, rfl⟩)
  | _ =>
      cases hrest
      exact .inr (.inr rfl)

/-- Only the value itself is named by its number. -/
theorem PtrKey.eq_of_ofValue {g : Graph} {v w : ValueId} {id : FuncId}
    (h : PtrKey.ofValue id g w = .ok (.value id v)) : w = v := by
  rcases PtrKey.ofValue_eq_ok h with ⟨_, _, _, heq⟩ | ⟨_, _, heq⟩ | heq <;> cases heq
  rfl

namespace PtrMap

variable {α : Type} {Fix : α → PtrKey → Descriptor → Prop} {map map' : PtrMap} {xs : List α}
  {key : PtrKey} {d : Descriptor}

/-- Records one descriptor after another. -/
def insertAll (map : PtrMap) (records : List (PtrKey × Descriptor)) : PtrMap :=
  records.foldl (fun map r => map.insert r.1 r.2) map

@[simp] theorem insertAll_nil (map : PtrMap) : map.insertAll [] = map := rfl

@[simp] theorem insertAll_cons (map : PtrMap) (r : PtrKey × Descriptor)
    (rs : List (PtrKey × Descriptor)) :
    map.insertAll (r :: rs) = (map.insert r.1 r.2).insertAll rs := rfl

@[simp] theorem insertAll_append (map : PtrMap) (rs rs' : List (PtrKey × Descriptor)) :
    map.insertAll (rs ++ rs') = (map.insertAll rs).insertAll rs' := List.foldl_append ..

/-- What was recorded stays, and else the first record counts. -/
theorem get?_insertAll (map : PtrMap) (rs : List (PtrKey × Descriptor)) (key : PtrKey) :
    (map.insertAll rs).get? key = (map.get? key).or (rs.lookup key) := by
  induction rs generalizing map with
  | nil => simp
  | cons r rs ih =>
      obtain ⟨k, d⟩ := r
      rw [insertAll_cons, ih, get?_insert]
      by_cases h : key = k
      · subst h
        rw [if_pos rfl, List.lookup_cons_self, Option.or_assoc, Option.some_or]
      · have hne : (key == k) = false := by simpa using h
        rw [if_neg h, List.lookup_cons, hne]

theorem insert_frame (map : PtrMap) (key : PtrKey) (d : Descriptor) :
    (map.insert key d).signatures = map.signatures ∧
      (map.insert key d).contents = map.contents := by
  unfold insert
  split <;> exact ⟨rfl, rfl⟩

theorem insertAll_frame (map : PtrMap) (rs : List (PtrKey × Descriptor)) :
    (map.insertAll rs).signatures = map.signatures ∧
      (map.insertAll rs).contents = map.contents := by
  induction rs generalizing map with
  | nil => exact ⟨rfl, rfl⟩
  | cons r rs ih =>
      have hinsert := map.insert_frame r.1 r.2
      rw [insertAll_cons]
      exact ⟨(ih _).1.trans hinsert.1, (ih _).2.trans hinsert.2⟩

/-- `map'` has what `map` has, and perhaps descriptors for more values of the functions `ids`. -/
structure AddsValues (ids : List FuncId) (map map' : PtrMap) : Prop where
  kept : ∀ key d, map.get? key = some d → map'.get? key = some d
  frame : ∀ key, (∀ id ∈ ids, ∀ v, key ≠ .value id v) → map'.get? key = map.get? key

namespace AddsValues

variable {ids ids' : List FuncId} {map'' : PtrMap}

theorem refl (ids : List FuncId) (map : PtrMap) : AddsValues ids map map :=
  ⟨fun _ _ h => h, fun _ _ => rfl⟩

theorem trans (h : AddsValues ids map map') (h' : AddsValues ids map' map'') :
    AddsValues ids map map'' :=
  ⟨fun key d hd => h'.kept key d (h.kept key d hd), fun key hkey =>
    (h'.frame key hkey).trans (h.frame key hkey)⟩

theorem mono (h : AddsValues ids map map') (hids : ∀ id ∈ ids, id ∈ ids') :
    AddsValues ids' map map' :=
  ⟨h.kept, fun key hkey => h.frame key fun id hid => hkey id (hids id hid)⟩

theorem insert (id : FuncId) (map : PtrMap) (v : ValueId) (d : Descriptor) :
    AddsValues [id] map (map.insert (.value id v) d) := by
  refine ⟨fun key d' hd => ?_, fun key hkey => ?_⟩
  · rw [get?_insert]
    split
    · next heq => rw [← heq, hd]; rfl
    · exact hd
  · rw [get?_insert, if_neg (hkey id (List.mem_singleton_self id) v)]

/-- A loop adds values if each of its rounds does. -/
theorem foldlM {α σ : Type} {p : σ → PtrMap} {step : σ → α → Except Fault σ} {xs : List α}
    (hstep : ∀ s s' x, x ∈ xs → step s x = .ok s' → AddsValues ids (p s) (p s')) {s s' : σ}
    (h : xs.foldlM step s = .ok s') : AddsValues ids (p s) (p s') := by
  refine foldlM_invariant (P := fun t => AddsValues ids (p s) (p t)) ?_ (.refl ids _) h
  intro t t' x hx ht hround
  exact ht.trans (hstep t t' x hx hround)

end AddsValues

theorem signature?_setSignature (map : PtrMap) (f g : FuncId) (typed : TypedSignature) :
    (map.setSignature f typed).signature? g = if g = f then some typed else map.signature? g := by
  by_cases h : g = f
  · subst h
    simp [setSignature, signature?]
  · have hne : (g == f) = false := by simpa using h
    simp [setSignature, signature?, List.lookup_cons, hne, h]

/-- `map'` is `map` with what the members of a list fix, recorded in order. -/
inductive Recorded (Fix : α → PtrKey → Descriptor → Prop) : List α → PtrMap → PtrMap → Prop
  | nil (map : PtrMap) : Recorded Fix [] map map
  | cons {x : α} {xs : List α} {map map' : PtrMap} {rs : List (PtrKey × Descriptor)} :
      (∀ key d, (key, d) ∈ rs ↔ Fix x key d) → Recorded Fix xs (map.insertAll rs) map' →
      Recorded Fix (x :: xs) map map'

namespace Recorded

theorem frame (h : Recorded Fix xs map map') :
    map'.signatures = map.signatures ∧ map'.contents = map.contents := by
  induction h with
  | nil => exact ⟨rfl, rfl⟩
  | cons _ _ ih => exact ⟨ih.1.trans (insertAll_frame ..).1, ih.2.trans (insertAll_frame ..).2⟩

/-- If each member of the list fixes at most one descriptor for a pointer, the first of them
counts. -/
theorem get? (h : Recorded Fix xs map map') {pick : α → Option Descriptor}
    (hpick : ∀ x ∈ xs, ∀ d, Fix x key d ↔ pick x = some d) :
    map'.get? key = (map.get? key).or (xs.findSome? pick) := by
  induction h with
  | nil => simp
  | @cons x xs map map' rs hrs _ ih =>
      rw [List.forall_mem_cons] at hpick
      have hmem : ∀ d, (key, d) ∈ rs ↔ pick x = some d := fun d => (hrs key d).trans (hpick.1 d)
      have hlookup : rs.lookup key = pick x := by
        cases hd : rs.lookup key with
        | some d =>
            obtain ⟨l₁, l₂, rfl, -⟩ := List.lookup_eq_some_iff.1 hd
            exact ((hmem d).1 (by simp)).symm
        | none =>
            cases hx : pick x with
            | none => rfl
            | some d => simpa using List.lookup_eq_none_iff.1 hd _ ((hmem d).2 hx)
      rw [ih hpick.2, get?_insertAll, hlookup, Option.or_assoc, List.findSome?_cons]
      cases pick x <;> rfl

/-- A pointer that no member of the list fixes keeps its descriptor, if it has one. -/
theorem get?_other (h : Recorded Fix xs map map') (hno : ∀ x ∈ xs, ∀ d, ¬ Fix x key d) :
    map'.get? key = map.get? key := by
  have hpick : ∀ x ∈ xs, ∀ d, Fix x key d ↔ (none : Option Descriptor) = some d := fun x hx d =>
    ⟨fun hfix => absurd hfix (hno x hx d), fun heq => by cases heq⟩
  have hfind : xs.findSome? (fun _ => (none : Option Descriptor)) = none :=
    List.findSome?_eq_none_iff.2 fun _ _ => rfl
  rw [h.get? hpick, hfind, Option.or_none]

/-- A pointer has the descriptor that is fixed for it, if no other is. -/
theorem get?_unique (h : Recorded Fix xs map map') (hnone : map.get? key = none)
    (hsome : ∃ x ∈ xs, Fix x key d) (hunique : ∀ x ∈ xs, ∀ d', Fix x key d' → d' = d) :
    map'.get? key = some d := by
  classical
  have hpick : ∀ x ∈ xs, ∀ d', Fix x key d' ↔ (if Fix x key d then some d else none) = some d' := by
    intro x hx d'
    constructor
    · intro hfix
      obtain rfl := hunique x hx d' hfix
      rw [if_pos hfix]
    · intro heq
      split at heq
      · next hfix =>
          cases heq
          exact hfix
      · cases heq
  rw [h.get? hpick, hnone, Option.none_or]
  obtain ⟨x, hx, hfix⟩ := hsome
  cases hfind : xs.findSome? fun x => if Fix x key d then some d else none with
  | none =>
      have hx := List.findSome?_eq_none_iff.1 hfind x hx
      simp [hfix] at hx
  | some d' =>
      obtain ⟨y, -, hy⟩ := List.exists_of_findSome?_eq_some hfind
      split at hy
      · exact hy.symm
      · cases hy

/-- What was recorded before stays. -/
theorem kept (h : Recorded Fix xs map map') (hd : map.get? key = some d) :
    map'.get? key = some d := by
  induction h with
  | nil => exact hd
  | cons _ _ ih => exact ih (by rw [get?_insertAll, hd]; rfl)

/-- A pointer that a member of the list fixes has a descriptor. -/
theorem exists_get? (h : Recorded Fix xs map map') {x : α} (hx : x ∈ xs) (hfix : Fix x key d) :
    ∃ d', map'.get? key = some d' := by
  induction h with
  | nil => exact absurd hx List.not_mem_nil
  | @cons y ys map map' rs hrs hrest ih =>
      rcases List.mem_cons.1 hx with rfl | hx
      · have hcontains : (map.insertAll rs).get? key ≠ none := by
          intro hnone
          rw [get?_insertAll, Option.or_eq_none_iff] at hnone
          simpa using List.lookup_eq_none_iff.1 hnone.2 _ ((hrs key d).2 hfix)
        obtain ⟨d', hd'⟩ := Option.ne_none_iff_exists'.1 hcontains
        exact ⟨d', hrest.kept hd'⟩
      · exact ih hx

end Recorded

end PtrMap

open PtrMap TypeStore

/-! ## Passes that record -/

namespace Pass

variable {α : Type} {types s t : TypeStore} {map map' : PtrMap} {F G : PtrKey → Descriptor → Prop}
  {p q : PtrMap → Pass TypeStore PtrMap}

/-- If the pass succeeds on a map, it records there what `F` says, whatever the map is. The type
store only grows, and `types` is a store behind all that are met. -/
def Records (types : TypeStore) (p : PtrMap → Pass TypeStore PtrMap)
    (F : PtrKey → Descriptor → Prop) : Prop :=
  ∀ map s map' t, (p map).exec s = .ok (.ok map', t) →
    s ≤ t ∧ (t ≤ types → ∃ rs, map' = map.insertAll rs ∧ ∀ key d, (key, d) ∈ rs ↔ F key d)

namespace Records

theorem congr (h : Records types p F) (hiff : ∀ key d, G key d ↔ F key d) : Records types p G := by
  intro map s map' t hrun
  obtain ⟨hle, hrecords⟩ := h map s map' t hrun
  refine ⟨hle, fun htypes => ?_⟩
  obtain ⟨rs, hmap, hrs⟩ := hrecords htypes
  exact ⟨rs, hmap, fun key d => (hrs key d).trans (hiff key d).symm⟩

/-- A pass that leaves the map as it is records nothing. -/
theorem pure (hF : ∀ key d, ¬ F key d) : Records types (fun map => Pure.pure map) F := by
  intro map s map' t hrun
  cases hrun
  exact ⟨le_refl s, fun _ => ⟨[], rfl, by simp [hF]⟩⟩

/-- A pass that never succeeds may be said to record anything. -/
theorem refused (h : ∀ map s map' t, (p map).exec s ≠ .ok (.ok map', t)) : Records types p F :=
  fun map s map' t hrun => absurd hrun (h map s map' t)

/-- Reading something first changes nothing. -/
theorem lift {x : Except Fault α} {p : α → PtrMap → Pass TypeStore PtrMap}
    (h : ∀ a, x = .ok a → Records types (p a) F) :
    Records types (fun map => liftM x >>= fun a => p a map) F := by
  intro map s map' t hrun
  rw [exec_liftM_bind] at hrun
  obtain ⟨a, ha, hrest⟩ := bind_eq_ok_iff.1 hrun
  exact h a ha map s map' t hrest

theorem bind (hp : Records types p F) (hq : Records types q G) :
    Records types (fun map => p map >>= q) (fun key d => F key d ∨ G key d) := by
  intro map s map' u hrun
  obtain ⟨mid, t, hmid, hrest⟩ := exec_bind_eq_ok.1 hrun
  obtain ⟨hle, hrecords⟩ := hp map s mid t hmid
  obtain ⟨hle', hrecords'⟩ := hq mid t map' u hrest
  refine ⟨le_trans hle hle', fun htypes => ?_⟩
  obtain ⟨rs, rfl, hrs⟩ := hrecords (le_trans hle' htypes)
  obtain ⟨rs', rfl, hrs'⟩ := hrecords' htypes
  exact ⟨rs ++ rs', (insertAll_append ..).symm, fun key d => by
    rw [List.mem_append, hrs, hrs']⟩

/-- A loop records what its rounds record, in order. -/
theorem foldlM {step : PtrMap → α → Pass TypeStore PtrMap}
    {F : α → PtrKey → Descriptor → Prop} {xs : List α}
    (hstep : ∀ x ∈ xs, Records types (step · x) (F x))
    (h : (xs.foldlM step map).exec s = .ok (.ok map', t)) :
    s ≤ t ∧ (t ≤ types → Recorded F xs map map') := by
  induction xs generalizing map s with
  | nil =>
      cases h
      exact ⟨le_refl _, fun _ => .nil _⟩
  | cons x xs ih =>
      rw [List.forall_mem_cons] at hstep
      rw [List.foldlM_cons] at h
      obtain ⟨mid, u, hx, hrest⟩ := exec_bind_eq_ok.1 h
      obtain ⟨hle, hrecords⟩ := hstep.1 map s mid u hx
      obtain ⟨hle', hrecorded⟩ := ih hstep.2 hrest
      refine ⟨le_trans hle hle', fun htypes => ?_⟩
      obtain ⟨rs, rfl, hrs⟩ := hrecords (le_trans hle' htypes)
      exact .cons hrs (hrecorded htypes)

/-- If a pass records at most one descriptor for a pointer, the pointer has that one, unless it had
another before. -/
theorem get? (h : Records types p F) (hrun : (p map).exec s = .ok (.ok map', t)) (ht : t ≤ types)
    {key : PtrKey} {pick : Option Descriptor} (hpick : ∀ d, F key d ↔ pick = some d) :
    map'.get? key = (map.get? key).or pick := by
  obtain ⟨rs, rfl, hrs⟩ := (h map s map' t hrun).2 ht
  have hrecorded : Recorded (fun _ : Unit => F) [()] map (map.insertAll rs) := .cons hrs (.nil _)
  rw [hrecorded.get? fun _ _ d => hpick d]
  cases pick <;> rfl

end Records

end Pass

theorem PtrMap.Recorded.records {α : Type} {Fix : α → PtrKey → Descriptor → Prop} {xs : List α}
    {map map' : PtrMap} (h : Recorded Fix xs map map') :
    ∃ rs, map' = map.insertAll rs ∧ ∀ key d, (key, d) ∈ rs ↔ ∃ x ∈ xs, Fix x key d := by
  induction h with
  | nil => exact ⟨[], rfl, by simp⟩
  | @cons x xs map map' rs hrs _ ih =>
      obtain ⟨rs', rfl, hrs'⟩ := ih
      exact ⟨rs ++ rs', (insertAll_append ..).symm, fun key d => by simp [hrs, hrs']⟩

end Pointee
