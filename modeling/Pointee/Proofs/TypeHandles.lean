import Mathlib.Data.List.Forall2
import Mathlib.Logic.Relation
import Pointee.Proofs.TypeGrowth

/-!
# Type handles

`TypeStore.unfolded` follows all handles in a type, down to scalars and opaque pointers. In a store
that comes about by making types from types it has given before, this ends, and handles are
canonical: two types are equal exactly when they unfold to the same tree. `TypeStore.Consistent`
says how the three tables of such a store agree, and `TypeHistory.Reaches` how it comes about.
-/

namespace Pointee

/-! ## Unfolding -/

/-- A compound type but for its parts. -/
inductive TypeLabel where
  | array (len : Nat)
  | vector (len : Nat)
  | struct (name : Option String) (packed : Bool)
  | func
  | typedPtr (space : AddrSpace)
deriving DecidableEq

/-- A type in which no handles are left. -/
inductive TypeTree where
  /-- A scalar or an opaque pointer. -/
  | leaf (t : Ty)
  | node (label : TypeLabel) (parts : List TypeTree)

namespace Compound

/-- What a compound type is beside its parts. -/
def label : Compound → TypeLabel
  | array _ len => .array len
  | vector _ len => .vector len
  | struct d => .struct d.name d.packed
  | func _ _ => .func
  | typedPtr _ space => .typedPtr space

theorem eq_of_label {c d : Compound} (hlabel : c.label = d.label) (hparts : c.parts = d.parts) :
    c = d := by
  cases c <;> cases d <;> simp_all [label, parts]
  case struct.struct c d => cases c; cases d; simp_all

theorem structName?_eq_some {c : Compound} {name : String} :
    c.structName? = some name ↔ ∃ fields packed, c = .struct ⟨some name, fields, packed⟩ := by
  cases c with
  | struct d =>
      obtain ⟨_, fields, packed⟩ := d
      simp [structName?]
  | _ => simp [structName?]

end Compound

/-- The type is no handle from `n` on. -/
def Ty.Below (n : Nat) : Ty → Prop
  | .compound id => id.index < n
  | _ => True

theorem Ty.Below.mono {t : Ty} {n k : Nat} (h : t.Below n) (hle : n ≤ k) : t.Below k := by
  cases t with
  | compound id => exact Nat.lt_of_lt_of_le h hle
  | _ => trivial

namespace TypeStore

variable {s s' t : TypeStore} {c d : Compound} {id : TypeId} {ty ty' : Ty} {tree : TypeTree}
  {depth : Nat}

/-- The type with its handles followed, if they are nested at most `depth` deep. -/
def unfoldedWithin (s : TypeStore) : Nat → Ty → Except Fault TypeTree
  | 0, .compound _ => .error .outOfBounds
  | depth + 1, .compound id => do
      let c ← s.get id
      return .node c.label (← c.parts.mapM (s.unfoldedWithin depth))
  | _, ty => .ok (.leaf ty)

/-- The type with its handles followed. -/
def unfolded (s : TypeStore) (ty : Ty) : Except Fault TypeTree := s.unfoldedWithin s.size ty

theorem unfoldedWithin_leaf (h : ty.isCompound = false) :
    s.unfoldedWithin depth ty = .ok (.leaf ty) := by
  cases ty with
  | compound id => cases h
  | _ => cases depth <;> rfl

/-- A handle unfolds to a node, whose parts are those of the compound type behind it. -/
theorem unfoldedWithin_compound : s.unfoldedWithin depth (.compound id) = .ok tree ↔
    ∃ n c parts, depth = n + 1 ∧ s.get id = .ok c ∧ c.parts.mapM (s.unfoldedWithin n) = .ok parts ∧
      tree = .node c.label parts := by
  cases depth with
  | zero => simp [unfoldedWithin]
  | succ n =>
      constructor
      · intro h
        obtain ⟨c, hc, h⟩ := bind_eq_ok_iff.1 h
        obtain ⟨parts, hparts, h⟩ := bind_eq_ok_iff.1 h
        exact ⟨n, c, parts, rfl, hc, hparts, (pure_eq_ok_iff.1 h).symm⟩
      · rintro ⟨_, c, parts, hn, hc, hparts, rfl⟩
        cases hn
        exact bind_eq_ok_iff.2 ⟨c, hc, bind_eq_ok_iff.2 ⟨parts, hparts, rfl⟩⟩

theorem unfoldedWithin_zero (h : s.unfoldedWithin 0 ty = .ok tree) : tree = .leaf ty := by
  cases ty <;> cases h <;> rfl

theorem eq_of_unfoldedWithin_leaf (h : s.unfoldedWithin depth ty = .ok (.leaf ty')) : ty = ty' := by
  cases ty with
  | compound id =>
      obtain ⟨_, _, _, -, -, -, htree⟩ := unfoldedWithin_compound.1 h
      cases htree
  | _ =>
      rw [unfoldedWithin_leaf rfl] at h
      cases h
      rfl

theorem exists_of_unfoldedWithin_node {label : TypeLabel} {parts : List TypeTree}
    (h : s.unfoldedWithin (depth + 1) ty = .ok (.node label parts)) :
    ∃ id c, ty = .compound id ∧ s.get id = .ok c ∧
      c.parts.mapM (s.unfoldedWithin depth) = .ok parts ∧ c.label = label := by
  cases ty with
  | compound id =>
      obtain ⟨_, c, _, hdepth, hc, hparts, htree⟩ := unfoldedWithin_compound.1 h
      cases hdepth
      cases htree
      exact ⟨id, c, rfl, hc, hparts, rfl⟩
  | _ => cases h

theorem get_of_le (hle : s ≤ t) (h : s.get id = .ok c) : t.get id = .ok c := by
  unfold get at h ⊢
  rw [require_eq_ok_iff, ← Array.getElem?_toList] at h ⊢
  obtain ⟨rest, hrest⟩ := hle.1
  rw [← hrest, List.getElem?_append_left (List.getElem?_eq_some_iff.1 h).1, h]

theorem size_le_of_le (hle : s ≤ t) : s.size ≤ t.size := by
  have hlength := hle.1.length_le
  rwa [Array.length_toList, Array.length_toList] at hlength

theorem get_lt_size (h : s.get id = .ok c) : id.index < s.size :=
  (Array.getElem?_eq_some_iff.1 (require_eq_ok_iff.1 h)).1

theorem exists_size_eq_succ (h : s.get id = .ok c) : ∃ n, s.size = n + 1 :=
  Nat.exists_eq_succ_of_ne_zero (Nat.ne_zero_of_lt (get_lt_size h))

theorem exists_get (h : id.index < s.size) : ∃ c, s.get id = .ok c :=
  ⟨s.compounds[id.index], require_eq_ok_iff.2 (Array.getElem?_eq_getElem h)⟩

/-- Neither more depth nor a later store changes what a type unfolds to. -/
theorem unfoldedWithin_mono (hle : s ≤ t) {n k : Nat} (hdepth : n ≤ k)
    (h : s.unfoldedWithin n ty = .ok tree) : t.unfoldedWithin k ty = .ok tree := by
  induction n generalizing k ty tree with
  | zero =>
      cases ty with
      | compound id => cases h
      | _ =>
          rw [unfoldedWithin_leaf rfl] at h ⊢
          exact h
  | succ n ih =>
      cases ty with
      | compound id =>
          obtain ⟨_, c, parts, hn, hc, hparts, rfl⟩ := unfoldedWithin_compound.1 h
          cases hn
          obtain ⟨k, rfl⟩ : ∃ m, k = m + 1 := ⟨k - 1, by omega⟩
          refine unfoldedWithin_compound.2 ⟨k, c, parts, rfl, get_of_le hle hc, ?_, rfl⟩
          rw [mapM_eq_ok_iff] at hparts ⊢
          exact hparts.imp fun part tree hpart => ih (Nat.le_of_succ_le_succ hdepth) hpart
      | _ =>
          rw [unfoldedWithin_leaf rfl] at h ⊢
          exact h

theorem unfolded_of_le (hle : s ≤ t) (h : s.unfolded ty = .ok tree) : t.unfolded ty = .ok tree :=
  unfoldedWithin_mono hle (size_le_of_le hle) h

/-! ## Consistent stores -/

/-- The three tables of the store agree. Every compound type is built from earlier ones, and the
index of handles and that of names are inverse to the rows. -/
structure Consistent (s : TypeStore) : Prop where
  descends : ∀ id c, s.get id = .ok c → ∀ part ∈ c.parts, part.Below id.index
  handle : ∀ id c, s.find? c = some id ↔ s.get id = .ok c
  name : ∀ name id, (name, id) ∈ s.structs ↔ ∃ c, s.get id = .ok c ∧ c.structName? = some name
  unique : (s.structs.map Prod.fst).Nodup

theorem consistent_empty : empty.Consistent where
  descends id c h := by simp [get, empty] at h
  handle id c := by simp [find?, get, empty]
  name name id := by simp [get, empty]
  unique := List.nodup_nil

/-- A compound type may enter if it is built from types in the store and its name is free. -/
theorem Consistent.enter (h : s.Consistent) (hnew : s.find? c = none)
    (hparts : ∀ part ∈ c.parts, part.Below s.size)
    (hname : ∀ name, c.structName? = some name → name ∉ s.structs.map Prod.fst) :
    (s.enter c).Consistent where
  descends id d hd part hpart := by
    rw [get_enter] at hd
    split at hd
    · next hid =>
        cases hd
        exact hid ▸ hparts part hpart
    · exact h.descends id d hd part hpart
  handle id d := by
    rw [find?_enter, get_enter]
    by_cases hd : d = c
    · subst hd
      rw [if_pos rfl, Option.some.injEq]
      split
      · next hid => simp [TypeId.ext_iff, hid]
      · next hid =>
          rw [← h.handle, hnew]
          simp [TypeId.ext_iff, Ne.symm hid]
    · rw [if_neg hd, h.handle]
      split
      · next hid =>
          constructor
          · intro hget
            exact absurd (get_lt_size hget) (by omega)
          · intro heq
            cases heq
            exact absurd rfl hd
      · rfl
  name name id := by
    show (name, id) ∈ s.structs ++ _ ↔ _
    rw [List.mem_append, h.name, get_enter]
    split
    · next hid =>
        have hold : ¬ ∃ d, s.get id = .ok d ∧ d.structName? = some name := by
          rintro ⟨d, hd, -⟩
          exact absurd (get_lt_size hd) (by omega)
        rw [or_iff_right hold]
        cases hc : c.structName? <;> simp [hc, TypeId.ext_iff, hid, eq_comm]
    · next hid =>
        cases hc : c.structName? <;> simp [TypeId.ext_iff, hid]
  unique := by
    show ((s.structs ++ _).map Prod.fst).Nodup
    rw [List.map_append, List.nodup_append]
    refine ⟨h.unique, ?_, ?_⟩
    · cases c.structName? <;> simp
    · cases hc : c.structName? with
      | none => simp
      | some name =>
          intro other hother last hlast heq
          simp only [Option.map_some, Option.toList_some, List.map_cons, List.map_nil,
            List.mem_singleton] at hlast
          exact hname name hc (hlast ▸ heq ▸ hother)

theorem Consistent.part_below (h : s.Consistent) (hc : s.get id = .ok c)
    (hid : id.index < depth + 1) {part : Ty} (hpart : part ∈ c.parts) :
    part.Below depth ∧ part.Below s.size := by
  have hbelow := h.descends id c hc part hpart
  exact ⟨hbelow.mono (Nat.le_of_lt_succ hid), hbelow.mono (Nat.le_of_lt (get_lt_size hc))⟩

/-- A type can be unfolded if there are as many steps as rows before it. -/
theorem Consistent.unfoldedWithin_total (h : s.Consistent) (hdepth : ty.Below depth)
    (hsize : ty.Below s.size) : ∃ tree, s.unfoldedWithin depth ty = .ok tree := by
  induction depth generalizing ty with
  | zero =>
      cases ty with
      | compound id => exact absurd hdepth (Nat.not_lt_zero _)
      | _ => exact ⟨_, unfoldedWithin_leaf rfl⟩
  | succ depth ih =>
      cases ty with
      | compound id =>
          obtain ⟨c, hc⟩ := exists_get hsize
          obtain ⟨parts, hparts, -⟩ := mapM_total (Q := fun _ => True) fun part hpart => by
            obtain ⟨hdepth, hsize⟩ := h.part_below hc hdepth hpart
            obtain ⟨tree, htree⟩ := ih hdepth hsize
            exact ⟨tree, htree, trivial⟩
          exact ⟨_, unfoldedWithin_compound.2 ⟨depth, c, parts, rfl, hc, hparts, rfl⟩⟩
      | _ => exact ⟨_, unfoldedWithin_leaf rfl⟩

/-- A handle unfolds to a node over what its parts unfold to. -/
theorem Consistent.unfolded_compound (h : s.Consistent) (hc : s.get id = .ok c) :
    s.unfolded (.compound id) = .ok tree ↔
      ∃ parts, c.parts.mapM s.unfolded = .ok parts ∧ tree = .node c.label parts := by
  obtain ⟨n, hsize⟩ := exists_size_eq_succ hc
  have hmore : ∀ parts, c.parts.mapM (s.unfoldedWithin n) = .ok parts →
      c.parts.mapM s.unfolded = .ok parts := by
    intro parts hparts
    rw [mapM_eq_ok_iff] at hparts ⊢
    exact hparts.imp fun part tree => unfoldedWithin_mono (le_refl s) (by omega)
  constructor
  · intro htree
    obtain ⟨k, d, parts, hk, hd, hparts, rfl⟩ := unfoldedWithin_compound.1 htree
    cases hc.symm.trans hd
    obtain rfl : n = k := by omega
    exact ⟨parts, hmore parts hparts, rfl⟩
  · rintro ⟨parts, hparts, rfl⟩
    -- Parts come before the handle, so they need one step less.
    obtain ⟨parts', hparts', -⟩ := mapM_total (Q := fun _ => True) fun part hpart => by
      obtain ⟨hdepth, hbelow⟩ := h.part_below hc (hsize ▸ get_lt_size hc) hpart
      obtain ⟨tree, htree⟩ := h.unfoldedWithin_total hdepth hbelow
      exact ⟨tree, htree, trivial⟩
    cases hparts.symm.trans (hmore parts' hparts')
    exact unfoldedWithin_compound.2 ⟨n, c, parts, hsize, hc, hparts', rfl⟩

/-- A type can be written if there are as many steps as rows before it. -/
theorem Consistent.textWithin_total (h : s.Consistent) (hdepth : ty.Below depth)
    (hsize : ty.Below s.size) : ∃ text, s.textWithin depth ty = .ok text := by
  induction depth generalizing ty with
  | zero =>
      cases ty with
      | compound id => exact absurd hdepth (Nat.not_lt_zero _)
      | _ => exact ⟨_, rfl⟩
  | succ depth ih =>
      cases ty with
      | compound id =>
          obtain ⟨c, hc⟩ := exists_get hsize
          have hpart : ∀ part ∈ c.parts, ∃ text, s.textWithin depth part = .ok text := by
            intro part hpart
            obtain ⟨hdepth, hsize⟩ := h.part_below hc hdepth hpart
            exact ih hdepth hsize
          have hlist : ∀ types : List Ty, (∀ part ∈ types, part ∈ c.parts) →
              ∃ texts, types.mapM (s.textWithin depth) = .ok texts := by
            intro types htypes
            obtain ⟨texts, hok, -⟩ := mapM_total (Q := fun _ => True) fun part hmem => by
              obtain ⟨text, htext⟩ := hpart part (htypes part hmem)
              exact ⟨text, htext, trivial⟩
            exact ⟨texts, hok⟩
          cases c with
          | array elem len =>
              obtain ⟨text, htext⟩ := hpart elem List.mem_cons_self
              exact ⟨_, bind_eq_ok_iff.2 ⟨_, hc, bind_eq_ok_iff.2 ⟨text, htext, rfl⟩⟩⟩
          | vector elem len =>
              obtain ⟨text, htext⟩ := hpart elem List.mem_cons_self
              exact ⟨_, bind_eq_ok_iff.2 ⟨_, hc, bind_eq_ok_iff.2 ⟨text, htext, rfl⟩⟩⟩
          | struct d =>
              obtain ⟨name, fields, packed⟩ := d
              cases name with
              | some name => exact ⟨_, bind_eq_ok_iff.2 ⟨_, hc, rfl⟩⟩
              | none =>
                  obtain ⟨texts, htexts⟩ := hlist fields fun _ hmem => hmem
                  exact ⟨_, bind_eq_ok_iff.2 ⟨_, hc, bind_eq_ok_iff.2 ⟨texts, htexts, rfl⟩⟩⟩
          | func args ret =>
              obtain ⟨texts, htexts⟩ := hlist args fun _ hmem => List.mem_append_left _ hmem
              obtain ⟨text, htext⟩ := hpart ret (by simp [Compound.parts])
              exact ⟨_, bind_eq_ok_iff.2 ⟨_, hc, bind_eq_ok_iff.2 ⟨texts, htexts,
                bind_eq_ok_iff.2 ⟨text, htext, rfl⟩⟩⟩⟩
          | typedPtr pointee space =>
              obtain ⟨text, htext⟩ := hpart pointee List.mem_cons_self
              exact ⟨_, bind_eq_ok_iff.2 ⟨_, hc, bind_eq_ok_iff.2 ⟨text, htext, rfl⟩⟩⟩
      | _ => exact ⟨_, rfl⟩

/-- The computation ends well in every store behind `s`, and lets the store grow. -/
def EndsBehind {α : Type} (s : TypeStore) (p : StateT TypeStore (Except Fault) α) : Prop :=
  ∀ t, s ≤ t → ∃ a u, p.run t = .ok (a, u) ∧ t ≤ u

namespace EndsBehind

variable {α β : Type} {p : StateT TypeStore (Except Fault) α}
  {k : α → StateT TypeStore (Except Fault) β}

theorem pure (s : TypeStore) (a : α) :
    EndsBehind s (Pure.pure a : StateT TypeStore (Except Fault) α) :=
  fun t _ => ⟨a, t, rfl, le_refl t⟩

theorem bind (hp : EndsBehind s p) (hk : ∀ a, EndsBehind s (k a)) : EndsBehind s (p >>= k) := by
  intro t ht
  obtain ⟨a, u, hrun, hle⟩ := hp t ht
  obtain ⟨b, v, hrun', hle'⟩ := hk a u (le_trans ht hle)
  exact ⟨b, v, run_bind_eq_ok.2 ⟨a, u, hrun, hrun'⟩, le_trans hle hle'⟩

theorem modifyGet {op : TypeStore → α × TypeStore} (h : Canonical op) :
    EndsBehind s (MonadState.modifyGet op : StateT TypeStore (Except Fault) α) :=
  fun t _ => ⟨(op t).1, (op t).2, rfl, h.le t⟩

/-- A row is the same in every later store. -/
theorem row {k : Compound → StateT TypeStore (Except Fault) β} (hc : s.get id = .ok c)
    (hk : EndsBehind s (k c)) :
    EndsBehind s (MonadState.get >>= fun types => liftM (types.get id) >>= k) := by
  intro t ht
  obtain ⟨b, u, hrun, hle⟩ := hk t ht
  exact ⟨b, u, run_bind_eq_ok.2 ⟨t, t, rfl, run_bind_eq_ok.2
    ⟨c, t, run_liftM_eq_ok.2 ⟨get_of_le ht hc, rfl⟩, hrun⟩⟩, hle⟩

theorem mapM {F : α → StateT TypeStore (Except Fault) β} {as : List α}
    (h : ∀ a ∈ as, EndsBehind s (F a)) : EndsBehind s (as.mapM F) := by
  induction as with
  | nil => exact .pure s []
  | cons a as ih =>
      rw [List.forall_mem_cons] at h
      rw [List.mapM_cons]
      exact h.1.bind fun b => (ih h.2).bind fun bs => .pure s (b :: bs)

end EndsBehind

/-- A type can be retyped if there are as many steps as rows before it. -/
theorem Consistent.retypeWithin_total (h : s.Consistent) (config : Config)
    (hdepth : ty.Below depth) (hsize : ty.Below s.size) :
    EndsBehind s (config.retypeWithin depth ty) := by
  induction depth generalizing ty with
  | zero =>
      cases ty with
      | compound id => exact absurd hdepth (Nat.not_lt_zero _)
      | ptr space => exact .modifyGet (canonical_intern _)
      | _ => exact .pure s _
  | succ depth ih =>
      cases ty with
      | compound id =>
          obtain ⟨c, hc⟩ := exists_get hsize
          have hpart : ∀ part ∈ c.parts, EndsBehind s (config.retypeWithin depth part) := by
            intro part hpart
            obtain ⟨hdepth, hsize⟩ := h.part_below hc hdepth hpart
            exact ih hdepth hsize
          refine EndsBehind.row hc ?_
          cases c with
          | array elem len =>
              exact (hpart elem List.mem_cons_self).bind fun _ => .modifyGet (canonical_intern _)
          | vector elem len =>
              exact (hpart elem List.mem_cons_self).bind fun _ => .modifyGet (canonical_intern _)
          | struct d => exact (EndsBehind.mapM hpart).bind fun _ => .modifyGet (canonical_intern _)
          | func => exact .pure s _
          | typedPtr => exact .pure s _
      | ptr space => exact .modifyGet (canonical_intern _)
      | _ => exact .pure s _

/-- Types that unfold to the same tree are equal: the rows behind two handles have equal parts, so
they are the same row. -/
theorem Consistent.unfoldedWithin_inj (h : s.Consistent)
    (hty : s.unfoldedWithin depth ty = .ok tree) (hty' : s.unfoldedWithin depth ty' = .ok tree) :
    ty = ty' := by
  induction depth generalizing ty ty' tree with
  | zero =>
      have hleaf := unfoldedWithin_zero hty
      have hleaf' := unfoldedWithin_zero hty'
      exact TypeTree.leaf.inj (hleaf.symm.trans hleaf')
  | succ depth ih =>
      cases tree with
      | leaf t => rw [eq_of_unfoldedWithin_leaf hty, eq_of_unfoldedWithin_leaf hty']
      | node label parts =>
          obtain ⟨id, c, rfl, hc, hparts, hlabel⟩ := exists_of_unfoldedWithin_node hty
          obtain ⟨id', c', rfl, hc', hparts', hlabel'⟩ := exists_of_unfoldedWithin_node hty'
          rw [mapM_eq_ok_iff] at hparts hparts'
          have hunique : Relator.LeftUnique fun ty tree => s.unfoldedWithin depth ty = .ok tree :=
            fun _ _ _ => ih
          have heq : c.parts = c'.parts := List.left_unique_forall₂' hunique hparts hparts'
          obtain rfl : c = c' := Compound.eq_of_label (hlabel.trans hlabel'.symm) heq
          have hid := (h.handle id c).2 hc
          rw [(h.handle id' c).2 hc'] at hid
          cases hid
          rfl

/-! ## Names -/

/-- The index of names has one entry for each name. -/
theorem Consistent.lookup_eq_some (h : s.Consistent) {name : String} :
    s.structs.lookup name = some id ↔ (name, id) ∈ s.structs := by
  have hunique := h.unique
  generalize s.structs = structs at hunique
  induction structs with
  | nil => simp
  | cons entry rest ih =>
      obtain ⟨other, id'⟩ := entry
      rw [List.map_cons, List.nodup_cons] at hunique
      rw [List.lookup_cons, List.mem_cons]
      by_cases hname : name = other
      · subst hname
        have habsent : (name, id) ∉ rest := fun hmem => hunique.1 (List.mem_map.2 ⟨_, hmem, rfl⟩)
        simp [habsent, eq_comm]
      · have hne : (name == other) = false := by simpa using hname
        simp [hne, hname, ih hunique.2]

/-- A name stands for the one struct of that name. -/
theorem Consistent.structNamed?_eq_some (h : s.Consistent) {name : String} :
    s.structNamed? name = some ty ↔
      ∃ fields packed, s.resolve ty = .ok (some (.struct ⟨some name, fields, packed⟩)) := by
  unfold structNamed?
  rw [Option.map_eq_some_iff]
  constructor
  · rintro ⟨id, hid, rfl⟩
    obtain ⟨c, hc, hname⟩ := (h.name name id).1 (h.lookup_eq_some.1 hid)
    obtain ⟨fields, packed, rfl⟩ := Compound.structName?_eq_some.1 hname
    exact ⟨fields, packed, map_eq_ok_iff.2 ⟨_, hc, rfl⟩⟩
  · rintro ⟨fields, packed, hty⟩
    cases ty with
    | compound id =>
        obtain ⟨c, hc, hstruct⟩ := map_eq_ok_iff.1 hty
        cases hstruct
        exact ⟨id, h.lookup_eq_some.2 ((h.name name id).2 ⟨_, hc, rfl⟩), rfl⟩
    | _ => cases hty

/-- Asking for a compound type gives a handle on it, and the tables still agree. -/
theorem Consistent.intern (h : s.Consistent) (hparts : ∀ part ∈ c.parts, part.Below s.size)
    (hfree : s.find? c = none → ∀ name, c.structName? = some name → s.structNamed? name = none) :
    (s.intern c).2.Consistent ∧
      ∃ id, (s.intern c).1 = .compound id ∧ (s.intern c).2.get id = .ok c := by
  unfold TypeStore.intern
  split
  · next id hid => exact ⟨h, id, rfl, (h.handle id c).1 hid⟩
  · next hnone =>
      refine ⟨h.enter hnone hparts fun name hname hmem => ?_, ⟨s.size⟩, rfl, ?_⟩
      · obtain ⟨⟨_, id⟩, hentry, rfl⟩ := List.mem_map.1 hmem
        have habsent := hfree hnone _ hname
        rw [structNamed?, h.lookup_eq_some.2 hentry] at habsent
        cases habsent
      · rw [get_enter, if_pos rfl]

/-- A type that can be unfolded is of the store. -/
theorem below_of_unfolded (h : s.unfolded ty = .ok tree) : ty.Below s.size := by
  cases ty with
  | compound id =>
      obtain ⟨_, c, _, -, hc, -⟩ := unfoldedWithin_compound.1 h
      exact get_lt_size hc
  | _ => trivial

/-- A compound type without a name may be asked for over any types of the store, and unfolds to a
node over what they unfold to. -/
theorem Consistent.unfolded_intern (h : s.Consistent) (hname : c.structName? = none)
    {parts : List TypeTree} (hparts : c.parts.mapM s.unfolded = .ok parts) :
    (s.intern c).2.Consistent ∧
      (s.intern c).2.unfolded (s.intern c).1 = .ok (.node c.label parts) := by
  rw [mapM_eq_ok_iff] at hparts
  obtain ⟨hbelow, -⟩ := (List.forall₂_and_left (p := fun part => part.Below s.size) _ _).1
    (hparts.imp fun part tree htree => ⟨below_of_unfolded htree, htree⟩)
  obtain ⟨hconsistent, id, hid, hget⟩ :=
    h.intern hbelow fun _ name hsome => nomatch hname.symm.trans hsome
  refine ⟨hconsistent, ?_⟩
  rw [hid]
  refine (hconsistent.unfolded_compound hget).2 ⟨parts, ?_, rfl⟩
  rw [mapM_eq_ok_iff]
  exact hparts.imp fun part tree => unfolded_of_le (le_intern s c)

end TypeStore

/-! ## Calls -/

/-- A request for a compound type. -/
inductive TypeCall where
  | array (elem : Ty) (len : Nat)
  | vector (elem : Ty) (len : Nat)
  | declareStruct (name : String) (fields : List Ty) (packed : Bool)
  | literalStruct (fields : List Ty) (packed : Bool)
  | func (args : List Ty) (ret : Ty)
  | typedPtr (pointee : Ty) (space : AddrSpace)

namespace TypeCall

/-- The compound type that is asked for. -/
def compound : TypeCall → Compound
  | array elem len => .array elem len
  | vector elem len => .vector elem len
  | declareStruct name fields packed => .struct ⟨some name, fields, packed⟩
  | literalStruct fields packed => .struct ⟨none, fields, packed⟩
  | func args ret => .func args ret
  | typedPtr pointee space => .typedPtr pointee space

/-- What the store answers. -/
def run (s : TypeStore) : TypeCall → Except Fault (Ty × TypeStore)
  | array elem len => .ok (s.array elem len)
  | vector elem len => .ok (s.vector elem len)
  | declareStruct name fields packed => s.declareStruct name fields packed
  | literalStruct fields packed => .ok (s.literalStruct fields packed)
  | func args ret => .ok (s.func args ret)
  | typedPtr pointee space => .ok (s.typedPtr pointee space)

/-- The store answers with the handle of the compound type. A struct that is new to it has a new
name. -/
theorem intern_of_run {s : TypeStore} {call : TypeCall} {answer : Ty × TypeStore}
    (h : call.run s = .ok answer) :
    answer = s.intern call.compound ∧ (s.find? call.compound = none →
      ∀ name, call.compound.structName? = some name → s.structNamed? name = none) := by
  cases call with
  | declareStruct name fields packed =>
      unfold run TypeStore.declareStruct at h
      dsimp only at h
      split at h
      · next hfound =>
          cases h
          refine ⟨rfl, fun hnone => ?_⟩
          rw [compound] at hnone
          rw [hnone] at hfound
          cases hfound
      · next hnew =>
          split at h
          · cases h
          · next hfree =>
              cases h
              refine ⟨rfl, fun _ other hother => ?_⟩
              cases hother
              simpa using hfree
  | _ =>
      cases h
      exact ⟨rfl, fun _ name hname => nomatch hname⟩

end TypeCall

/-- A type store together with the types that it has given. -/
structure TypeHistory where
  store : TypeStore
  given : List Ty

namespace TypeHistory

variable {h h' : TypeHistory} {t u : Ty}

/-- Nothing has been asked yet. -/
def start : TypeHistory := ⟨.empty, []⟩

/-- The type needs no handle, or its handle has been given. -/
def Knows (h : TypeHistory) (t : Ty) : Prop := t.isCompound = true → t ∈ h.given

instance : Decidable (h.Knows t) := inferInstanceAs (Decidable (_ → _))

/-- A call whose parts are known, and that is no fault. -/
inductive Step (h : TypeHistory) : TypeHistory → Prop where
  | call (call : TypeCall) {t : Ty} {s : TypeStore}
      (known : ∀ part ∈ call.compound.parts, h.Knows part)
      (run : call.run h.store = .ok (t, s)) : Step h ⟨s, t :: h.given⟩

/-- What comes about by any number of calls. -/
abbrev Reaches : TypeHistory → TypeHistory → Prop := Relation.ReflTransGen Step

/-- The tables of the store agree, and all handles that were given are in it. -/
structure Sound (h : TypeHistory) : Prop where
  consistent : h.store.Consistent
  given : ∀ t ∈ h.given, t.Below h.store.size

theorem Sound.below (hs : h.Sound) (ht : h.Knows t) : t.Below h.store.size := by
  cases t with
  | compound id => exact hs.given _ (ht rfl)
  | _ => trivial

theorem sound_start : start.Sound := ⟨TypeStore.consistent_empty, fun _ h => nomatch h⟩

theorem Step.le (hstep : Step h h') : h.store ≤ h'.store := by
  cases hstep with
  | call call known run =>
      obtain ⟨heq, -⟩ := TypeCall.intern_of_run run
      have hle := TypeStore.le_intern h.store call.compound
      rwa [← heq] at hle

/-- One call keeps the tables in agreement. -/
theorem Step.sound (hstep : Step h h') (hs : h.Sound) : h'.Sound := by
  have hle := TypeStore.size_le_of_le hstep.le
  cases hstep with
  | call call known run =>
      obtain ⟨heq, hfree⟩ := TypeCall.intern_of_run run
      obtain ⟨hconsistent, id, hid, hget⟩ :=
        hs.consistent.intern (fun part hpart => hs.below (known part hpart)) hfree
      rw [← heq] at hconsistent hid hget
      refine ⟨hconsistent, List.forall_mem_cons.2 ⟨?_, fun t ht => (hs.given t ht).mono hle⟩⟩
      cases hid
      exact TypeStore.get_lt_size hget

theorem Reaches.le (hreach : Reaches h h') : h.store ≤ h'.store := by
  induction hreach with
  | refl => exact TypeStore.le_refl _
  | tail _ hstep ih => exact TypeStore.le_trans ih hstep.le

theorem Reaches.knows (hreach : Reaches h h') (ht : h.Knows t) : h'.Knows t := by
  induction hreach with
  | refl => exact ht
  | tail _ hstep ih =>
      cases hstep with
      | call => exact fun hcompound => List.mem_cons_of_mem _ (ih hcompound)

theorem Reaches.sound (hreach : Reaches h h') (hs : h.Sound) : h'.Sound := by
  induction hreach with
  | refl => exact hs
  | tail _ hstep ih => exact hstep.sound ih

theorem Sound.exists_unfolded (hs : h.Sound) (ht : h.Knows t) :
    ∃ tree, h.store.unfolded t = .ok tree :=
  hs.consistent.unfoldedWithin_total (hs.below ht) (hs.below ht)

/-- Handles are canonical in every store that comes about by calls with known parts. A row is built
from earlier rows only, so unfolding, writing and retyping a known type end. Known types are equal
exactly when they unfold to the same tree, a name stands for the one struct of that name, and no
later call changes what a known type unfolds to. -/
theorem handles_are_canonical (hreach : Reaches start h) :
    (∀ id c, h.store.get id = .ok c → ∀ part ∈ c.parts, part.Below id.index) ∧
    (∀ t, h.Knows t → (∃ tree, h.store.unfolded t = .ok tree) ∧
      (∃ text, h.store.text t = .ok text) ∧
      ∀ config : Config, ∃ retyped, (config.retype t).run h.store = .ok retyped) ∧
    (∀ t u, h.Knows t → h.Knows u → (t = u ↔ h.store.unfolded t = h.store.unfolded u)) ∧
    (∀ name t, h.store.structNamed? name = some t ↔
      ∃ fields packed, h.store.resolve t = .ok (some (.struct ⟨some name, fields, packed⟩))) ∧
    ∀ later, Reaches h later → ∀ t, h.Knows t →
      later.Knows t ∧ later.store.unfolded t = h.store.unfolded t := by
  have hs : h.Sound := hreach.sound sound_start
  refine ⟨hs.consistent.descends, ?_, ?_, fun name t => hs.consistent.structNamed?_eq_some, ?_⟩
  · intro t ht
    have hbelow := hs.below ht
    refine ⟨hs.exists_unfolded ht, hs.consistent.textWithin_total hbelow hbelow, fun config => ?_⟩
    obtain ⟨retyped, s, hrun, -⟩ := hs.consistent.retypeWithin_total config hbelow hbelow h.store
      (TypeStore.le_refl h.store)
    exact ⟨(retyped, s), TypeStore.run_bind_eq_ok.2 ⟨h.store, h.store, rfl, hrun⟩⟩
  · intro t u ht hu
    refine ⟨fun heq => by rw [heq], fun heq => ?_⟩
    obtain ⟨tree, htree⟩ := hs.exists_unfolded ht
    exact hs.consistent.unfoldedWithin_inj htree (heq.symm.trans htree)
  · intro later hlater t ht
    obtain ⟨tree, htree⟩ := hs.exists_unfolded ht
    exact ⟨hlater.knows ht, (TypeStore.unfolded_of_le hlater.le htree).trans htree.symm⟩

/-- A named pair of an array and a pointer, after which the array is asked for again. -/
def namedPair : TypeHistory where
  store := (TypeStore.empty.enter (.array .i32 4)).enter
    (.struct ⟨some "Pair", [.compound ⟨0⟩, .genericPtr], false⟩)
  given := [.compound ⟨0⟩, .compound ⟨1⟩, .compound ⟨0⟩]

theorem reaches_namedPair : Reaches start namedPair := by
  let array : TypeHistory := ⟨TypeStore.empty.enter (.array .i32 4), [.compound ⟨0⟩]⟩
  let pair : TypeHistory := ⟨namedPair.store, [.compound ⟨1⟩, .compound ⟨0⟩]⟩
  have harray : Step start array := .call (.array .i32 4) (by decide) rfl
  have hpair : Step array pair :=
    .call (.declareStruct "Pair" [.compound ⟨0⟩, .genericPtr] false) (by decide) rfl
  have hagain : Step pair namedPair := .call (.array .i32 4) (by decide) rfl
  exact .tail (.tail (.tail .refl harray) hpair) hagain

theorem handles_are_canonical_namedPair :
    namedPair.store.structNamed? "Pair" = some (.compound ⟨1⟩) ∧
      (∃ text, namedPair.store.text (.compound ⟨1⟩) = .ok text) ∧
      ∀ later, Reaches namedPair later → later.store.unfolded (.compound ⟨1⟩) =
        .ok (.node (.struct (some "Pair") false)
          [.node (.array 4) [.leaf .i32], .leaf .genericPtr]) := by
  obtain ⟨-, hends, -, hname, hlater⟩ := handles_are_canonical reaches_namedPair
  have hknown : namedPair.Knows (.compound ⟨1⟩) := by decide
  refine ⟨(hname _ _).2 ⟨[.compound ⟨0⟩, .genericPtr], false, rfl⟩, (hends _ hknown).2.1, ?_⟩
  intro later hreach
  exact (hlater later hreach _ hknown).2.trans rfl

end TypeHistory

end Pointee
