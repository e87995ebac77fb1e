import Pointee.Proofs.TypeHandles

/-!
# The shape of a retyped type

Retyping puts typed pointers where opaque ones were, and changes nothing else but the names of
structs. `TypeTree.erased` undoes it: it follows arrays, vectors and structs, puts an opaque pointer
for each typed one, and forgets the names of structs. `TypeTree.Retypes` says that a tree has the
shape of another one and no opaque pointer left. `Config.retype_yields` and
`Config.emptyElement_yields` say that what replaces a type retypes it, and that it unfolds to the
same tree in all later stores.
-/

namespace Pointee

/-! ## Shapes -/

/-- Whether a value of such a type holds values of the parts. -/
def TypeLabel.isAggregate : TypeLabel → Bool
  | array _ | vector _ | struct .. => true
  | func | typedPtr _ => false

namespace TypeTree

mutual

/-- The tree with opaque pointers for the typed ones that are reached through arrays, vectors and
structs, which lose their names. -/
def erased : TypeTree → TypeTree
  | leaf t => leaf t
  | node (.array len) parts => node (.array len) (erasedParts parts)
  | node (.vector len) parts => node (.vector len) (erasedParts parts)
  | node (.struct _ packed) parts => node (.struct none packed) (erasedParts parts)
  | node .func parts => node .func parts
  | node (.typedPtr space) _ => leaf (.ptr space)

def erasedParts : List TypeTree → List TypeTree
  | [] => []
  | part :: parts => part.erased :: erasedParts parts

end

/-- `part` is reached in the tree through arrays, vectors and structs. -/
inductive Reaches (part : TypeTree) : TypeTree → Prop
  | here : Reaches part part
  | through {label : TypeLabel} {parts : List TypeTree} {tree : TypeTree} :
      label.isAggregate = true → tree ∈ parts → Reaches part tree → Reaches part (node label parts)

/-- No opaque pointer is reached in the tree. -/
def FullyTyped (tree : TypeTree) : Prop := ∀ space, ¬ Reaches (leaf (.ptr space)) tree

theorem fullyTyped_leaf {t : Ty} (h : t.space? = none) : (leaf t).FullyTyped := by
  intro space hreaches
  cases hreaches
  cases h

theorem fullyTyped_node {label : TypeLabel} {parts : List TypeTree}
    (h : label.isAggregate = true → ∀ part ∈ parts, part.FullyTyped) :
    (node label parts).FullyTyped := by
  intro space hreaches
  cases hreaches with
  | through haggregate hpart hreaches => exact h haggregate _ hpart space hreaches

/-- `tree` has the shape of `own` and no opaque pointer. -/
structure Retypes (own tree : TypeTree) : Prop where
  shape : tree.erased = own.erased
  typed : tree.FullyTyped

namespace Retypes

variable {own tree : TypeTree} {owns trees : List TypeTree}

/-- What needs no retyping. -/
theorem refl (h : tree.FullyTyped) : Retypes tree tree := ⟨rfl, h⟩

theorem pointer (space : AddrSpace) (pointee : TypeTree) :
    Retypes (leaf (.ptr space)) (node (.typedPtr space) [pointee]) :=
  ⟨rfl, fullyTyped_node fun h => nomatch h⟩

theorem erasedParts_eq (h : List.Forall₂ Retypes owns trees) :
    erasedParts trees = erasedParts owns := by
  induction h with
  | nil => rfl
  | cons hfirst _ ih => rw [erasedParts, erasedParts, hfirst.shape, ih]

theorem typedParts (h : List.Forall₂ Retypes owns trees) : ∀ tree ∈ trees, tree.FullyTyped := by
  induction h with
  | nil => exact fun tree htree => absurd htree List.not_mem_nil
  | cons hfirst _ ih => exact List.forall_mem_cons.2 ⟨hfirst.typed, ih⟩

/-- Types that hold their parts are retyped part by part. -/
theorem aggregate {label label' unnamed : TypeLabel}
    (hown : ∀ parts, (node label parts).erased = node unnamed (erasedParts parts))
    (htree : ∀ parts, (node label' parts).erased = node unnamed (erasedParts parts))
    (h : List.Forall₂ Retypes owns trees) : Retypes (node label owns) (node label' trees) :=
  ⟨by rw [hown, htree, erasedParts_eq h], fullyTyped_node fun _ => typedParts h⟩

theorem array (h : Retypes own tree) (len : Nat) :
    Retypes (node (.array len) [own]) (node (.array len) [tree]) :=
  aggregate (fun _ => rfl) (fun _ => rfl) (.cons h .nil)

theorem vector (h : Retypes own tree) (len : Nat) :
    Retypes (node (.vector len) [own]) (node (.vector len) [tree]) :=
  aggregate (fun _ => rfl) (fun _ => rfl) (.cons h .nil)

theorem struct (h : List.Forall₂ Retypes owns trees) (name : Option String) (packed : Bool) :
    Retypes (node (.struct name packed) owns) (node (.struct none packed) trees) :=
  aggregate (fun _ => rfl) (fun _ => rfl) h

end Retypes

end TypeTree

open TypeTree

namespace TypeStore

variable {base s t : TypeStore} {ty : Ty} {tree : TypeTree} {α β : Type}

/-- What a type unfolds to does not depend on the depth that is allowed. -/
theorem Consistent.unfolded_of_within (h : s.Consistent) {depth : Nat}
    (htree : s.unfoldedWithin depth ty = .ok tree) : s.unfolded ty = .ok tree := by
  have hbelow : ty.Below s.size := by
    cases ty with
    | compound id =>
        obtain ⟨_, c, _, -, hc, -⟩ := unfoldedWithin_compound.1 htree
        exact get_lt_size hc
    | _ => trivial
  obtain ⟨tree', htree'⟩ := h.unfoldedWithin_total hbelow hbelow
  have hmax := unfoldedWithin_mono (le_refl s) (Nat.le_max_left depth s.size) htree
  rw [unfoldedWithin_mono (le_refl s) (Nat.le_max_right depth s.size) htree'] at hmax
  cases hmax
  exact htree'

theorem resolve_of_le (hle : s ≤ t) {c : Option Compound} (h : s.resolve ty = .ok c) :
    t.resolve ty = .ok c := by
  cases ty with
  | compound id =>
      obtain ⟨c, hc, rfl⟩ := map_eq_ok_iff.1 h
      exact map_eq_ok_iff.2 ⟨c, get_of_le hle hc, rfl⟩
  | _ => exact h

/-! ## Computations that make types -/

/-- In every consistent store behind `base` the computation ends well, keeps the store consistent,
and gives a result that `Q` allows there. -/
def Yields (base : TypeStore) (Q : TypeStore → α → Prop) (p : StateT TypeStore (Except Fault) α) :
    Prop :=
  ∀ s, base ≤ s → s.Consistent → ∃ a t, p.run s = .ok (a, t) ∧ s ≤ t ∧ t.Consistent ∧ Q t a

/-- The type unfolds to the tree. -/
def Unfolds (tree : TypeTree) (s : TypeStore) (ty : Ty) : Prop := s.unfolded ty = .ok tree

/-- The types unfold to the trees. -/
def UnfoldsAll (trees : List TypeTree) (s : TypeStore) (tys : List Ty) : Prop :=
  List.Forall₂ (fun ty tree => Unfolds tree s ty) tys trees

theorem Unfolds.mono (h : Unfolds tree s ty) (hle : s ≤ t) : Unfolds tree t ty :=
  unfolded_of_le hle h

theorem UnfoldsAll.mono {trees : List TypeTree} {tys : List Ty} (h : UnfoldsAll trees s tys)
    (hle : s ≤ t) : UnfoldsAll trees t tys := h.imp fun _ _ => unfolded_of_le hle

namespace Yields

variable {Q : TypeStore → α → Prop} {R : TypeStore → β → Prop}
  {p : StateT TypeStore (Except Fault) α} {k : α → StateT TypeStore (Except Fault) β}

theorem pure {a : α} (h : ∀ t, base ≤ t → Q t a) :
    Yields base Q (Pure.pure a : StateT TypeStore (Except Fault) α) :=
  fun s hle hs => ⟨a, s, rfl, le_refl s, hs, h s hle⟩

theorem behind (h : Yields base Q p) (hle : base ≤ s) : Yields s Q p :=
  fun u hu => h u (le_trans hle hu)

theorem bind (hp : Yields base Q p) (hk : ∀ a u, base ≤ u → Q u a → Yields u R (k a)) :
    Yields base R (p >>= k) := by
  intro s hle hs
  obtain ⟨a, u, hrun, hgrown, hu, hQ⟩ := hp s hle hs
  obtain ⟨b, t, hrest, hgrown', ht, hR⟩ := hk a u (le_trans hle hgrown) hQ u (le_refl u) hu
  exact ⟨b, t, run_bind_eq_ok.2 ⟨a, u, hrun, hrest⟩, le_trans hgrown hgrown', ht, hR⟩

/-- The computation starts by looking at the store. -/
theorem get_bind {k : TypeStore → StateT TypeStore (Except Fault) β}
    (hk : ∀ s, base ≤ s → Yields s R (k s)) : Yields base R (MonadState.get >>= k) := by
  intro s hle hs
  obtain ⟨b, t, hrun, hrest⟩ := hk s hle s (le_refl s) hs
  exact ⟨b, t, run_bind_eq_ok.2 ⟨s, s, rfl, hrun⟩, hrest⟩

theorem lift_bind {x : Except Fault α} {a : α} (hx : x = .ok a) (hk : Yields base R (k a)) :
    Yields base R (liftM x >>= k) := by
  intro s hle hs
  obtain ⟨b, t, hrun, hrest⟩ := hk s hle hs
  exact ⟨b, t, run_bind_eq_ok.2 ⟨a, s, run_liftM_eq_ok.2 ⟨hx, rfl⟩, hrun⟩, hrest⟩

/-- A row is the same in every later store. -/
theorem row {k : Compound → StateT TypeStore (Except Fault) β} {id : TypeId} {c : Compound}
    (hc : base.get id = .ok c) (hk : Yields base R (k c)) :
    Yields base R (MonadState.get >>= fun types => liftM (types.get id) >>= k) :=
  .get_bind fun _ hle => .lift_bind (get_of_le hle hc) (hk.behind hle)

theorem resolve {k : Option Compound → StateT TypeStore (Except Fault) β} {c : Option Compound}
    (hc : base.resolve ty = .ok c) (hk : Yields base R (k c)) :
    Yields base R (MonadState.get >>= fun types => liftM (types.resolve ty) >>= k) :=
  .get_bind fun _ hle => .lift_bind (resolve_of_le hle hc) (hk.behind hle)

/-- A compound type without a name unfolds to a node over what its parts unfold to. -/
theorem intern {c : Compound} {trees : List TypeTree} (hparts : UnfoldsAll trees base c.parts)
    (hname : c.structName? = none := by rfl) :
    Yields base (Unfolds (.node c.label trees)) (modifyGet (·.intern c)) := by
  intro s hle hs
  obtain ⟨ht, hunfolded⟩ := hs.unfolded_intern hname (mapM_eq_ok_iff.2 (hparts.mono hle))
  exact ⟨_, _, rfl, le_intern s c, ht, hunfolded⟩

end Yields

end TypeStore

open TypeStore

/-! ## Retyping -/

namespace Config

variable {config : Config} {base : TypeStore} {fallback : TypeTree}

theorem mapM_retypeWithin {depth : Nat} {tys : List Ty} {owns : List TypeTree}
    (h : List.Forall₂ (fun ty own => ∃ tree, Retypes own tree ∧
      ∀ more, depth ≤ more → Yields base (Unfolds tree) (config.retypeWithin more ty)) tys owns) :
    ∃ trees, List.Forall₂ Retypes owns trees ∧ ∀ more, depth ≤ more →
      Yields base (UnfoldsAll trees) (tys.mapM (config.retypeWithin more)) := by
  induction h with
  | nil => exact ⟨[], .nil, fun _ _ => .pure fun t _ => .nil⟩
  | cons hfirst _ ih =>
      obtain ⟨tree, hretypes, hyields⟩ := hfirst
      obtain ⟨trees, hretypes', hyields'⟩ := ih
      refine ⟨tree :: trees, .cons hretypes hretypes', fun more hmore => ?_⟩
      rw [List.mapM_cons]
      refine (hyields more hmore).bind fun ty u hu hty => ?_
      refine ((hyields' more hmore).behind hu).bind fun tys v hv htys => ?_
      exact .pure fun t ht => .cons (hty.mono (TypeStore.le_trans hv ht)) (htys.mono ht)

section Fallback

variable (hfallback : base.unfolded config.fallback = .ok fallback)

include hfallback

theorem fallbackPtr_yields (space : AddrSpace) :
    Yields base (Unfolds (.node (.typedPtr space) [fallback]))
      (modifyGet (config.fallbackPtr space)) :=
  Yields.intern (c := .typedPtr config.fallback space) (.cons hfallback .nil)

theorem retypeWithin_leaf {depth : Nat} {ty : Ty} {own : TypeTree} (h : ty.isCompound = false)
    (hown : base.unfoldedWithin depth ty = .ok own) : ∃ tree, Retypes own tree ∧
      ∀ more, depth ≤ more → Yields base (Unfolds tree) (config.retypeWithin more ty) := by
  rw [unfoldedWithin_leaf h] at hown
  cases hown
  cases ty with
  | compound id => cases h
  | ptr space =>
      refine ⟨_, .pointer space fallback, fun more _ => ?_⟩
      cases more <;> exact fallbackPtr_yields hfallback space
  | _ =>
      refine ⟨_, .refl (fullyTyped_leaf rfl), fun more _ => ?_⟩
      cases more <;> exact .pure fun t _ => unfoldedWithin_leaf rfl

/-- Retyping a type gives one that retypes it. The depth that is allowed does not matter, if it is
enough to unfold the type. -/
theorem retypeWithin_yields (hbase : base.Consistent) {depth : Nat} {ty : Ty} {own : TypeTree}
    (hown : base.unfoldedWithin depth ty = .ok own) : ∃ tree, Retypes own tree ∧
      ∀ more, depth ≤ more → Yields base (Unfolds tree) (config.retypeWithin more ty) := by
  induction depth generalizing ty own with
  | zero =>
      cases ty with
      | compound id => cases hown
      | _ => exact retypeWithin_leaf hfallback rfl hown
  | succ depth ih =>
      cases ty with
      | compound id =>
          have hwhole := hbase.unfolded_of_within hown
          obtain ⟨_, c, parts, hdepth, hc, hparts, rfl⟩ := unfoldedWithin_compound.1 hown
          cases hdepth
          rw [mapM_eq_ok_iff] at hparts
          -- One step of the depth is for the handle, the others are for the parts.
          suffices hrow : ∃ tree, Retypes (.node c.label parts) tree ∧ ∀ more, depth ≤ more →
              Yields base (Unfolds tree) (config.retypeWithin (more + 1) (.compound id)) by
            obtain ⟨tree, hretypes, hyields⟩ := hrow
            refine ⟨tree, hretypes, fun more hmore => ?_⟩
            obtain ⟨n, rfl⟩ : ∃ n, more = n + 1 := ⟨more - 1, by omega⟩
            exact hyields n (Nat.le_of_succ_le_succ hmore)
          cases c with
          | array elem len =>
              obtain _ | ⟨helem, hnil⟩ := hparts
              cases hnil
              obtain ⟨tree, hretypes, hyields⟩ := ih helem
              refine ⟨_, hretypes.array len, fun more hmore => .row hc ?_⟩
              exact (hyields more hmore).bind fun elem u _ hty =>
                .intern (c := .array elem len) (.cons hty .nil)
          | vector elem len =>
              obtain _ | ⟨helem, hnil⟩ := hparts
              cases hnil
              obtain ⟨tree, hretypes, hyields⟩ := ih helem
              refine ⟨_, hretypes.vector len, fun more hmore => .row hc ?_⟩
              exact (hyields more hmore).bind fun elem u _ hty =>
                .intern (c := .vector elem len) (.cons hty .nil)
          | struct d =>
              obtain ⟨trees, hretypes, hyields⟩ := mapM_retypeWithin (hparts.imp fun _ _ => ih)
              refine ⟨_, .struct hretypes d.name d.packed, fun more hmore => .row hc ?_⟩
              exact (hyields more hmore).bind fun fields u _ htys =>
                .intern (c := .struct ⟨none, fields, d.packed⟩) htys
          | func | typedPtr =>
              refine ⟨_, .refl (fullyTyped_node fun h => nomatch h), fun more _ => .row hc ?_⟩
              exact .pure fun t hle => unfolded_of_le hle hwhole
      | _ => exact retypeWithin_leaf hfallback rfl hown

/-- A type is replaced by one that retypes it. -/
theorem retype_yields (hbase : base.Consistent) {ty : Ty} {own : TypeTree}
    (hown : base.unfolded ty = .ok own) :
    ∃ tree, Retypes own tree ∧ Yields base (Unfolds tree) (config.retype ty) := by
  obtain ⟨tree, hretypes, hyields⟩ := retypeWithin_yields hfallback hbase hown
  refine ⟨tree, hretypes, .get_bind fun s hle => ?_⟩
  exact (hyields s.size (size_le_of_le hle)).behind hle

/-- The element type of an empty aggregate is replaced by one that retypes it, also where it is that
of a constructor entry. -/
theorem emptyElement_yields (hbase : base.Consistent) {elemTy : Ty} {own : TypeTree}
    (hown : base.unfolded elemTy = .ok own) :
    ∃ tree, Retypes own tree ∧ Yields base (Unfolds tree) (config.emptyElement elemTy) := by
  have hretype := retype_yields hfallback hbase hown
  cases elemTy with
  | compound id =>
      obtain ⟨_, c, parts, -, hc, hparts, rfl⟩ := unfoldedWithin_compound.1 hown
      have hresolve : base.resolve (.compound id) = .ok (some c) := map_eq_ok_iff.2 ⟨c, hc, rfl⟩
      by_cases hentry : ∃ name width ctorSpace dataSpace packed,
          c = .struct ⟨name, [.int width, .ptr ctorSpace, .ptr dataSpace], packed⟩
      · obtain ⟨name, width, ctorSpace, dataSpace, packed, rfl⟩ := hentry
        rw [mapM_eq_ok_iff] at hparts
        obtain _ | ⟨hpriority, _ | ⟨hctor, _ | ⟨hdata, hnil⟩⟩⟩ := hparts
        rw [unfoldedWithin_leaf rfl] at hpriority hctor hdata
        cases hpriority
        cases hctor
        cases hdata
        cases hnil
        have hfields := List.Forall₂.cons (Retypes.refl (fullyTyped_leaf (t := .int width) rfl))
          (.cons (.pointer ctorSpace (.node .func [.leaf .unit]))
            (.cons (.pointer dataSpace fallback) .nil))
        refine ⟨_, .struct hfields name packed, .resolve hresolve ?_⟩
        refine (Yields.intern (c := .func [] .unit) (.cons (unfoldedWithin_leaf rfl) .nil)).bind
          fun ctor u hu hctor => ?_
        refine (Yields.intern (c := .typedPtr ctor ctorSpace) (.cons hctor .nil)).bind
          fun ctor v hv hctor => ?_
        refine ((fallbackPtr_yields hfallback dataSpace).behind (TypeStore.le_trans hu hv)).bind
          fun data w hw hdata => ?_
        exact Yields.intern (c := .struct ⟨none, [.int width, ctor, data], packed⟩)
          (.cons (unfoldedWithin_leaf rfl) (.cons (hctor.mono hw) (.cons hdata .nil)))
      · -- What is no entry is retyped as any other type, also if only its priority is wrong.
        obtain ⟨tree, hretypes, hyields⟩ := hretype
        refine ⟨tree, hretypes, .resolve hresolve ?_⟩
        split
        · next name priority ctorSpace dataSpace packed heq =>
            split
            · next hpriority =>
                cases heq
                cases priority with
                | int width => exact absurd ⟨name, width, ctorSpace, dataSpace, packed, rfl⟩ hentry
                | _ => cases hpriority
            · exact hyields
        · exact hyields
  | _ =>
      obtain ⟨tree, hretypes, hyields⟩ := hretype
      exact ⟨tree, hretypes, .resolve rfl hyields⟩

end Fallback

end Config

end Pointee
