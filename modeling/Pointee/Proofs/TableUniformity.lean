import Pointee.Proofs.OwnTypes
import Pointee.Proofs.RetypedShapes

/-!
# Tables of one element type

The constructor table is typed constant by constant, elements from left to right. It is refused
where the elements of an array or a vector come out different, and the refusal names the first such
element. `Constant.HasType` says that a constant is well typed, and `Constant.FirstClash` where the
first clash in it is. `Module.table_typed_or_clash` says which outcome there is: a type that has the
shape of the table's own, or a refusal that names the clash.
-/

namespace Pointee

open TypeStore TypeTree

/-! ## Well-typed constants -/

namespace Constant

/-- The constant is well typed in the module, and `own` is its type. The elements of arrays and
vectors have the element type, and the fields of a struct those of its type. All symbols are
declared. -/
inductive HasType (m : Module) : Constant → TypeTree → Prop
  | imm (value : Immediate) : HasType m (.imm value) (.leaf value.ty)
  | null (space : AddrSpace) : HasType m (.null space) (.leaf (.ptr space))
  | undef {ty : Ty} {own : TypeTree} : m.ctx.types.unfolded ty = .ok own → HasType m (.undef ty) own
  | zero {ty : Ty} {own : TypeTree} : m.ctx.types.unfolded ty = .ok own → HasType m (.zero ty) own
  | global {id : GlobalId} {g : Global} : m.ctx.global id = .ok g →
      HasType m (.global id) (.leaf (.ptr g.space))
  | func {id : FuncId} {f : Function} : m.func id = .ok f →
      HasType m (.func id) (.leaf .genericPtr)
  | array {elemTy : Ty} {elem : TypeTree} {elems : List Constant} :
      m.ctx.types.unfolded elemTy = .ok elem → (∀ c ∈ elems, HasType m c elem) →
      HasType m (.array elemTy elems) (.node (.array elems.length) [elem])
  | vector {elemTy : Ty} {elem : TypeTree} {elems : List Constant} :
      m.ctx.types.unfolded elemTy = .ok elem → (∀ c ∈ elems, HasType m c elem) →
      HasType m (.vector elemTy elems) (.node (.vector elems.length) [elem])
  | struct {ty : Ty} {name : Option String} {packed : Bool} {parts : List TypeTree}
      {fields : List Constant} :
      m.ctx.types.unfolded ty = .ok (.node (.struct name packed) parts) →
      fields.length = parts.length →
      (∀ (i : Nat) c part, fields[i]? = some c → parts[i]? = some part → HasType m c part) →
      HasType m (.struct ty fields) (.node (.struct name packed) parts)

/-- The type of a well-typed constant is what `typeOf` gives. -/
theorem HasType.typeOf {m : Module} {c : Constant} {own : TypeTree} (h : c.HasType m own) :
    Yields m.ctx.types (Unfolds own) (c.typeOf m.ctx) := by
  cases h with
  | imm | null | func => exact .pure fun t _ => unfoldedWithin_leaf rfl
  | undef hty | zero hty | struct hty => exact .pure fun t hle => unfolded_of_le hle hty
  | global hglobal => exact .lift_bind hglobal (.pure fun t _ => unfoldedWithin_leaf rfl)
  | @array elemTy elem elems helem =>
      exact .intern (c := .array elemTy elems.length) (.cons helem .nil)
  | @vector elemTy elem elems helem =>
      exact .intern (c := .vector elemTy elems.length) (.cons helem .nil)

/-! ## Clashes -/

/-- Whether all elements of the constant must have one type. -/
def isSequence : Constant → Bool
  | array .. | vector .. => true
  | _ => false

/-- `part` is the constant itself, or stands somewhere in it. -/
inductive Within (part : Constant) : Constant → Prop
  | here : Within part part
  | inside {c elem : Constant} : elem ∈ c.elems → Within part elem → Within part c

/-- An element that has another type than the elements before it. -/
structure Clash where
  position : Nat
  expected : TypeTree
  found : TypeTree

variable {T T' : Constant → TypeTree → Prop} {c : Constant} {clash : Clash}

/-- Where a walk over the constant, from left to right and into aggregates before they are typed
themselves, first meets an element of another type than the elements before it. `T` gives the types
of constants. -/
inductive FirstClash (T : Constant → TypeTree → Prop) : Constant → Clash → Prop
  | element {c elem : Constant} {position : Nat} {expected found : TypeTree} :
      c.isSequence = true → c.elems[position]? = some elem → 0 < position →
      (∀ before ∈ c.elems.take position, T before expected) → T elem found → found ≠ expected →
      FirstClash T c ⟨position, expected, found⟩
  | insideElement {c elem : Constant} {position : Nat} {expected : TypeTree} {clash : Clash} :
      c.isSequence = true → c.elems[position]? = some elem →
      (∀ before ∈ c.elems.take position, T before expected) → FirstClash T elem clash →
      FirstClash T c clash
  | insideField {ty : Ty} {fields : List Constant} {field : Constant} {position : Nat}
      {clash : Clash} : fields[position]? = some field →
      (∀ before ∈ fields.take position, ∃ tree, T before tree) → FirstClash T field clash →
      FirstClash T (.struct ty fields) clash

theorem FirstClash.mono (h : FirstClash T c clash) (hT : ∀ c tree, T c tree → T' c tree) :
    FirstClash T' c clash := by
  induction h with
  | element hsequence helem hpos hbefore hfound hne =>
      exact .element hsequence helem hpos (fun b hb => hT b _ (hbefore b hb)) (hT _ _ hfound) hne
  | insideElement hsequence helem hbefore _ ih =>
      exact .insideElement hsequence helem (fun b hb => hT b _ (hbefore b hb)) ih
  | insideField hfield hbefore _ ih =>
      exact .insideField hfield (fun b hb => (hbefore b hb).imp fun tree => hT b tree) ih

/-- Two elements of an array or a vector in the constant have different types. -/
def HasClash (T : Constant → TypeTree → Prop) (c : Constant) : Prop :=
  ∃ node x y tree tree', Within node c ∧ node.isSequence = true ∧ x ∈ node.elems ∧
    y ∈ node.elems ∧ T x tree ∧ T y tree' ∧ tree ≠ tree'

theorem FirstClash.hasClash (h : FirstClash T c clash) : HasClash T c := by
  have hinside : ∀ {c elem : Constant} {position : Nat}, c.elems[position]? = some elem →
      HasClash T elem → HasClash T c := by
    rintro c elem position helem ⟨node, x, y, tree, tree', hwithin, hclash⟩
    exact ⟨node, x, y, tree, tree', .inside (List.mem_of_getElem? helem) hwithin, hclash⟩
  induction h with
  | @element c elem position expected found hsequence helem hpos hbefore hfound hne =>
      -- The other element is the first one.
      obtain ⟨first, hfirst⟩ : ∃ first, c.elems[0]? = some first := by
        have hlt := (List.getElem?_eq_some_iff.1 helem).1
        exact ⟨c.elems[0], List.getElem?_eq_getElem (by omega)⟩
      have hmem : first ∈ c.elems.take position := by
        refine List.mem_of_getElem? (i := 0) ?_
        rw [List.getElem?_take_of_lt hpos, hfirst]
      exact ⟨c, elem, first, found, expected, .here, hsequence, List.mem_of_getElem? helem,
        List.mem_of_getElem? hfirst, hfound, hbefore first hmem, hne⟩
  | insideElement _ helem _ _ ih => exact hinside helem ih
  | insideField hfield _ _ ih => exact hinside hfield ih

/-- All elements of each array or vector in the constant have one type. -/
def Uniform (T : Constant → TypeTree → Prop) (c : Constant) : Prop :=
  ∀ node, Within node c → node.isSequence = true → ∃ tree, ∀ x ∈ node.elems, T x tree

theorem uniform_of_elems (hself : c.isSequence = true → ∃ tree, ∀ x ∈ c.elems, T x tree)
    (helems : ∀ x ∈ c.elems, Uniform T x) : Uniform T c := by
  intro node hwithin hsequence
  cases hwithin with
  | here => exact hself hsequence
  | inside hmem hwithin => exact helems _ hmem node hwithin hsequence

theorem Uniform.not_hasClash (h : Uniform T c) (hT : ∀ c tree, T c tree → T' c tree)
    (hunique : ∀ c tree tree', T' c tree → T' c tree' → tree = tree') : ¬ HasClash T' c := by
  rintro ⟨node, x, y, tree, tree', hwithin, hsequence, hx, hy, htree, htree', hne⟩
  obtain ⟨common, hcommon⟩ := h node hwithin hsequence
  have hleft := hunique x tree common htree (hT x common (hcommon x hx))
  have hright := hunique y tree' common htree' (hT y common (hcommon y hy))
  exact hne (hleft.trans hright.symm)

end Constant

/-! ## Outcomes of passes -/

namespace Pass

variable {base s : TypeStore} {α β : Type}

/-- In every consistent store behind `base` the pass succeeds, keeps the store consistent, and gives
a result that `Q` allows there. -/
def Delivers (base : TypeStore) (Q : TypeStore → α → Prop) (p : Pass TypeStore α) : Prop :=
  ∀ s, base ≤ s → s.Consistent →
    ∃ a t, p.exec s = .ok (.ok a, t) ∧ s ≤ t ∧ t.Consistent ∧ Q t a

/-- In every consistent store behind `base` the pass refuses, for a reason that `R` allows there. -/
def Refuses (base : TypeStore) (R : TypeStore → Refusal → Prop) (p : Pass TypeStore α) : Prop :=
  ∀ s, base ≤ s → s.Consistent → ∃ e t, p.exec s = .ok (.error e, t) ∧ R t e

variable {Q : TypeStore → α → Prop} {R : TypeStore → Refusal → Prop} {p : Pass TypeStore α}
  {k : α → Pass TypeStore β}

namespace Delivers

theorem behind (h : Delivers base Q p) (hle : base ≤ s) : Delivers s Q p :=
  fun u hu => h u (TypeStore.le_trans hle hu)

theorem pure {a : α} (h : ∀ t, base ≤ t → Q t a) :
    Delivers base Q (Pure.pure a : Pass TypeStore α) :=
  fun s hle hs => ⟨a, s, rfl, TypeStore.le_refl s, hs, h s hle⟩

theorem lift {x : Except Fault α} {a : α} (hx : x = .ok a) :
    Delivers base (fun _ b => b = a) (liftM x : Pass TypeStore α) := by
  subst hx
  exact fun s _ hs => ⟨a, s, rfl, TypeStore.le_refl s, hs, rfl⟩

theorem liftState {p : StateT TypeStore (Except Fault) α} (h : Yields base Q p) :
    Delivers base Q (liftM p : Pass TypeStore α) := by
  intro s hle hs
  obtain ⟨a, t, hrun, hrest⟩ := h s hle hs
  exact ⟨a, t, by rw [exec_liftState, hrun]; rfl, hrest⟩

theorem bind {Q' : TypeStore → β → Prop} (hp : Delivers base Q p)
    (hk : ∀ a u, base ≤ u → u.Consistent → Q u a → Delivers u Q' (k a)) :
    Delivers base Q' (p >>= k) := by
  intro s hle hs
  obtain ⟨a, u, hrun, hgrown, hu, hQ⟩ := hp s hle hs
  obtain ⟨b, t, hrest, hgrown', ht, hQ'⟩ :=
    hk a u (TypeStore.le_trans hle hgrown) hu hQ u (TypeStore.le_refl u) hu
  exact ⟨b, t, (exec_bind_of_ok hrun).trans hrest, TypeStore.le_trans hgrown hgrown', ht, hQ'⟩

/-- A compound type is the same in every later store. -/
theorem resolve {k : Option Compound → Pass TypeStore α} {ty : Ty} {c : Option Compound}
    (hc : base.resolve ty = .ok c) (hk : Delivers base Q (k c)) :
    Delivers base Q (MonadState.get >>= fun types => liftM (types.resolve ty) >>= k) := by
  intro s hle hs
  rw [exec_bind_of_ok (exec_get s), exec_liftM_of_ok (resolve_of_le hle hc)]
  exact hk s hle hs

/-- What follows a pass that succeeds may refuse. -/
theorem refuses (hp : Delivers base Q p)
    (hk : ∀ a u, base ≤ u → u.Consistent → Q u a → Refuses u R (k a)) :
    Refuses base R (p >>= k) := by
  intro s hle hs
  obtain ⟨a, u, hrun, hgrown, hu, hQ⟩ := hp s hle hs
  obtain ⟨e, t, hrest, hR⟩ :=
    hk a u (TypeStore.le_trans hle hgrown) hu hQ u (TypeStore.le_refl u) hu
  exact ⟨e, t, (exec_bind_of_ok hrun).trans hrest, hR⟩

end Delivers

namespace Refuses

theorem behind (h : Refuses base R p) (hle : base ≤ s) : Refuses s R p :=
  fun u hu => h u (TypeStore.le_trans hle hu)

theorem bind (h : Refuses base R p) : Refuses base R (p >>= k) := by
  intro s hle hs
  obtain ⟨e, t, hrun, hR⟩ := h s hle hs
  exact ⟨e, t, by rw [exec_bind, hrun], hR⟩

theorem resolve {k : Option Compound → Pass TypeStore α} {ty : Ty} {c : Option Compound}
    (hc : base.resolve ty = .ok c) (hk : Refuses base R (k c)) :
    Refuses base R (MonadState.get >>= fun types => liftM (types.resolve ty) >>= k) := by
  intro s hle hs
  rw [exec_bind_of_ok (exec_get s), exec_liftM_of_ok (resolve_of_le hle hc)]
  exact hk s hle hs

end Refuses

end Pass

open Pass Constant

/-! ## Typing a table -/

namespace TableTyping

variable {t : TableTyping} {m : Module} {base u : TypeStore} {elemTy : Ty} {own elem : TypeTree}
  {c : Constant} {elems : List Constant}

/-- The table is typed against the module, in a store that has all types it asks for. -/
structure Ready (t : TableTyping) (m : Module) (base : TypeStore) : Prop where
  ctx : t.ctx = m.ctx
  behind : m.ctx.types ≤ base
  consistent : base.Consistent
  fallback : ∃ tree, Unfolds tree base t.config.fallback
  global : ∀ id g, m.ctx.global id = .ok g → ∃ tree, Unfolds tree base g.ty
  func : ∀ id f, m.func id = .ok f →
    ∃ ty tree, t.map.get? (.func id) = some ⟨ty, .generic⟩ ∧ Unfolds tree base ty

/-- In stores behind `base` the constant is given a type that unfolds to the tree. -/
def Gives (t : TableTyping) (base : TypeStore) (c : Constant) (tree : TypeTree) : Prop :=
  Delivers base (Unfolds tree) (t.constantType c)

/-- The refusal names the position of the clash, and both types by their texts. -/
def Reports (t : TableTyping) (clash : Clash) (s : TypeStore) (e : Refusal) : Prop :=
  ∃ expected found expectedText foundText, Unfolds clash.expected s expected ∧
    Unfolds clash.found s found ∧ s.text expected = .ok expectedText ∧
    s.text found = .ok foundText ∧
    e = .inconsistentAggregate t.config.ctorTable clash.position expectedText foundText

/-- A constant of type `own` is given a type that retypes `own`, or there is a first clash in it,
which is refused. -/
def Decided (t : TableTyping) (base : TypeStore) (c : Constant) (own : TypeTree) : Prop :=
  (∃ tree, Retypes own tree ∧ t.Gives base c tree ∧ Uniform (t.Gives base) c) ∨
    ∃ clash, FirstClash (t.Gives base) c clash ∧ Refuses base (t.Reports clash) (t.constantType c)

theorem elementRefusal_refuses {α : Type} (position : Nat) {expected found : Ty}
    {tree tree' : TypeTree} (hexpected : Unfolds tree base expected)
    (hfound : Unfolds tree' base found) :
    Refuses base (t.Reports ⟨position, tree, tree'⟩)
      (t.elementRefusal position expected found >>= throw : Pass TypeStore α) := by
  intro s hle hs
  have hexpected := hexpected.mono hle
  have hfound := hfound.mono hle
  obtain ⟨text, htext⟩ : ∃ text, s.text expected = .ok text :=
    hs.textWithin_total (below_of_unfolded hexpected) (below_of_unfolded hexpected)
  obtain ⟨text', htext'⟩ : ∃ text, s.text found = .ok text :=
    hs.textWithin_total (below_of_unfolded hfound) (below_of_unfolded hfound)
  refine ⟨_, s, ?_, expected, found, text, text', hexpected, hfound, htext, htext', rfl⟩
  simp only [elementRefusal, bind_assoc, pure_bind]
  rw [exec_bind_of_ok (exec_get s), exec_liftM_of_ok htext, exec_liftM_of_ok htext']
  rfl

/-! ### Elements -/

/-- The clash is the first one of any array or vector of these elements. -/
def ClashAmong (t : TableTyping) (base : TypeStore) (elems : List Constant) (clash : Clash) :
    Prop :=
  ∀ c, c.isSequence = true → c.elems = elems → FirstClash (t.Gives base) c clash

/-- The elements before `position` have come out as `expected`. Either the others do so as well, or
one of them makes the first clash. -/
def RestDecided (t : TableTyping) (base : TypeStore) (elemTy : Ty) (elems : List Constant)
    (expected : TypeTree) (position : Nat) (rest : List Constant) : Prop :=
  ((∀ c ∈ rest, t.Gives base c expected ∧ Uniform (t.Gives base) c) ∧
    ∀ u first, base ≤ u → Unfolds expected u first →
      Delivers u (Unfolds expected) (t.elementType elemTy position (some first) rest)) ∨
  ∃ clash, t.ClashAmong base elems clash ∧ ∀ u first, base ≤ u → Unfolds expected u first →
    Refuses u (t.Reports clash) (t.elementType elemTy position (some first) rest)

section Rest

variable {expected : TypeTree} {position : Nat} {first : Ty} {rest : List Constant}

theorem elementType_cons : t.elementType elemTy position (some first) (c :: rest) =
    t.constantType c >>= fun ty =>
      if first = ty then t.elementType elemTy (position + 1) (some first) rest
      else t.elementRefusal position first ty >>= throw := by
  rw [elementType]

/-- The next element agrees. In a consistent store its type is the one that was found before. -/
theorem RestDecided.agree (h : t.RestDecided base elemTy elems expected (position + 1) rest)
    (hgives : t.Gives base c expected) (huniform : Uniform (t.Gives base) c) :
    t.RestDecided base elemTy elems expected position (c :: rest) := by
  rcases h with ⟨hall, hdelivers⟩ | ⟨clash, hclash, hrefuses⟩
  · refine .inl ⟨List.forall_mem_cons.2 ⟨⟨hgives, huniform⟩, hall⟩, fun u first hu hfirst => ?_⟩
    rw [elementType_cons]
    refine (hgives.behind hu).bind fun ty v hv hconsistent hty => ?_
    rw [if_pos (hconsistent.unfoldedWithin_inj (hfirst.mono hv) hty)]
    exact hdelivers v first (TypeStore.le_trans hu hv) (hfirst.mono hv)
  · refine .inr ⟨clash, hclash, fun u first hu hfirst => ?_⟩
    rw [elementType_cons]
    refine (hgives.behind hu).refuses fun ty v hv hconsistent hty => ?_
    rw [if_pos (hconsistent.unfoldedWithin_inj (hfirst.mono hv) hty)]
    exact hrefuses v first (TypeStore.le_trans hu hv) (hfirst.mono hv)

/-- The next element makes the first clash. -/
theorem restDecided_differs {found : TypeTree} (hgives : t.Gives base c found)
    (hne : found ≠ expected) (hclash : t.ClashAmong base elems ⟨position, expected, found⟩) :
    t.RestDecided base elemTy elems expected position (c :: rest) := by
  refine .inr ⟨_, hclash, fun u first hu hfirst => ?_⟩
  rw [elementType_cons]
  refine (hgives.behind hu).refuses fun ty v hv _ hty => ?_
  have hdifferent : first ≠ ty := by
    rintro rfl
    exact hne (Except.ok.inj (hty.symm.trans (hfirst.mono hv)))
  rw [if_neg hdifferent]
  exact elementRefusal_refuses position (hfirst.mono hv) hty

/-- There is a clash inside the next element. -/
theorem restDecided_inside {clash : Clash}
    (hrefuses : Refuses base (t.Reports clash) (t.constantType c))
    (hclash : t.ClashAmong base elems clash) :
    t.RestDecided base elemTy elems expected position (c :: rest) := by
  refine .inr ⟨clash, hclash, fun u first hu _ => ?_⟩
  rw [elementType_cons]
  exact (hrefuses.behind hu).bind

/-- The elements are gone through from left to right. -/
theorem restDecided_of_decided {done : List Constant} (helems : elems = done ++ rest)
    (hsome : done ≠ []) (hdone : ∀ c ∈ done, t.Gives base c expected)
    (hrest : ∀ c ∈ rest, t.Decided base c elem) :
    t.RestDecided base elemTy elems expected done.length rest := by
  induction rest generalizing done with
  | nil =>
      refine .inl ⟨fun c hc => absurd hc List.not_mem_nil, fun u first _ hfirst => ?_⟩
      exact .pure fun v hv => hfirst.mono hv
  | cons x rest ih =>
      rw [List.forall_mem_cons] at hrest
      have hx : elems[done.length]? = some x := by simp [helems]
      have hbefore : ∀ c ∈ elems.take done.length, t.Gives base c expected := by
        simpa [helems] using hdone
      -- All elements before `x` agree, so whatever goes wrong at `x` is the first clash.
      rcases hrest.1 with ⟨tree, -, hgives, huniform⟩ | ⟨clash, hclash, hrefuses⟩
      · by_cases htree : tree = expected
        · subst htree
          have hdone' : ∀ c ∈ done ++ [x], t.Gives base c tree :=
            List.forall_mem_append.2 ⟨hdone, by simpa using hgives⟩
          have hnext : t.RestDecided base elemTy elems tree (done ++ [x]).length rest :=
            ih (by simp [helems]) (by simp) hdone' hrest.2
          rw [List.length_append, List.length_singleton] at hnext
          exact hnext.agree hgives huniform
        · refine restDecided_differs hgives htree fun c hsequence hc => ?_
          subst hc
          exact .element hsequence hx (List.length_pos_iff.2 hsome) hbefore hgives htree
      · refine restDecided_inside hrefuses fun c hsequence hc => ?_
        subst hc
        exact .insideElement hsequence hx hbefore hclash

end Rest

/-- The elements of an array or a vector come out as one type that retypes the declared one, or one
of them makes the first clash. -/
theorem sequence_decided (ht : t.Ready m base) (helem : m.ctx.types.unfolded elemTy = .ok elem)
    (h : ∀ c ∈ elems, t.Decided base c elem) :
    (∃ tree, Retypes elem tree ∧
      (∀ c, c.isSequence = true → c.elems = elems → Uniform (t.Gives base) c) ∧
      Delivers base (Unfolds tree) (t.elementType elemTy 0 none elems)) ∨
    ∃ clash, t.ClashAmong base elems clash ∧
      Refuses base (t.Reports clash) (t.elementType elemTy 0 none elems) := by
  cases elems with
  | nil =>
      obtain ⟨fallback, hfallback⟩ := ht.fallback
      obtain ⟨tree, hretypes, hyields⟩ := Config.emptyElement_yields hfallback ht.consistent
        (unfolded_of_le ht.behind helem)
      refine .inl ⟨tree, hretypes, fun c _ hc => ?_, .liftState hyields⟩
      exact uniform_of_elems (fun _ => ⟨tree, by simp [hc]⟩) (by simp [hc])
  | cons first rest =>
      rw [List.forall_mem_cons] at h
      rcases h.1 with ⟨tree, hretypes, hgives, huniform⟩ | ⟨clash, hclash, hrefuses⟩
      · have hdone : ∀ c ∈ [first], t.Gives base c tree := by simpa using hgives
        have hdecided : t.RestDecided base elemTy (first :: rest) tree 1 rest :=
          restDecided_of_decided rfl (List.cons_ne_nil first []) hdone h.2
        rcases hdecided with ⟨hall, hdelivers⟩ | ⟨clash, hclash, hrefuses⟩
        · refine .inl ⟨tree, hretypes, fun c _ hc => ?_, ?_⟩
          · refine uniform_of_elems (fun _ => ⟨tree, ?_⟩) ?_
            · rw [hc]
              exact List.forall_mem_cons.2 ⟨hgives, fun x hx => (hall x hx).1⟩
            · rw [hc]
              exact List.forall_mem_cons.2 ⟨huniform, fun x hx => (hall x hx).2⟩
          · rw [elementType]
            exact Delivers.bind hgives fun ty u hu _ hty => hdelivers u ty hu hty
        · refine .inr ⟨clash, hclash, ?_⟩
          rw [elementType]
          exact Delivers.refuses hgives fun ty u hu _ hty => hrefuses u ty hu hty
      · refine .inr ⟨clash, fun c hsequence hc => ?_, ?_⟩
        · have hfirst : c.elems[0]? = some first := by rw [hc]; rfl
          have hnone : ∀ b ∈ c.elems.take 0, t.Gives base b elem := by simp
          exact .insideElement hsequence hfirst hnone hclash
        · rw [elementType]
          exact hrefuses.bind

/-! ### Fields -/

/-- The fields `rest` stand behind the fields `done`, which have come out well. Either all of them
do so as well, or there is a clash in one of them. -/
theorem fieldTypes_decided {fields done rest : List Constant} {owns : List TypeTree}
    (hfields : fields = done ++ rest) (hdone : ∀ c ∈ done, ∃ tree, t.Gives base c tree)
    (hrest : List.Forall₂ (t.Decided base) rest owns) :
    (∃ trees, List.Forall₂ Retypes owns trees ∧ (∀ c ∈ rest, Uniform (t.Gives base) c) ∧
      Delivers base (UnfoldsAll trees) (t.fieldTypes rest)) ∨
    ∃ clash, (∀ ty, FirstClash (t.Gives base) (.struct ty fields) clash) ∧
      Refuses base (t.Reports clash) (t.fieldTypes rest) := by
  induction hrest generalizing done with
  | nil =>
      refine .inl ⟨[], .nil, fun c hc => absurd hc List.not_mem_nil, ?_⟩
      exact .pure fun t _ => .nil
  | @cons x own rest owns hx _ ih =>
      rcases hx with ⟨tree, hretypes, hgives, huniform⟩ | ⟨clash, hclash, hrefuses⟩
      · have hdone' : ∀ c ∈ done ++ [x], ∃ tree, t.Gives base c tree :=
          List.forall_mem_append.2 ⟨hdone, by simpa using ⟨tree, hgives⟩⟩
        rcases ih (by simp [hfields]) hdone' with
          ⟨trees, hretypes', huniform', hdelivers⟩ | ⟨clash, hclash, hrefuses⟩
        · refine .inl ⟨tree :: trees, .cons hretypes hretypes',
            List.forall_mem_cons.2 ⟨huniform, huniform'⟩, ?_⟩
          refine Delivers.bind hgives fun ty u hu _ hty => ?_
          refine (hdelivers.behind hu).bind fun tys v hv _ htys => ?_
          exact .pure fun w hw => .cons (hty.mono (TypeStore.le_trans hv hw)) (htys.mono hw)
        · refine .inr ⟨clash, hclash, ?_⟩
          exact Delivers.refuses hgives fun ty u hu _ _ => (hrefuses.behind hu).bind
      · refine .inr ⟨clash, fun ty => ?_, hrefuses.bind⟩
        have hat : fields[done.length]? = some x := by simp [hfields]
        have hbefore : ∀ c ∈ fields.take done.length, ∃ tree, t.Gives base c tree := by
          simpa [hfields] using hdone
        exact .insideField hat hbefore hclash

/-! ### Constants -/

theorem exists_struct_of_unfolded {s : TypeStore} {ty : Ty} {name : Option String} {packed : Bool}
    {parts : List TypeTree} (h : s.unfolded ty = .ok (.node (.struct name packed) parts)) :
    ∃ d, s.resolve ty = .ok (some (.struct d)) ∧ d.packed = packed := by
  cases ty with
  | compound id =>
      obtain ⟨_, c, _, -, hc, -, htree⟩ := unfoldedWithin_compound.1 h
      cases c with
      | struct d =>
          cases htree
          exact ⟨d, map_eq_ok_iff.2 ⟨_, hc, rfl⟩, rfl⟩
      | _ => cases htree
  | _ =>
      rw [unfolded, unfoldedWithin_leaf rfl] at h
      cases h

/-- A constant without elements that is given a type makes no clash. -/
theorem decided_of_gives {tree : TypeTree} (hretypes : Retypes own tree)
    (hgives : t.Gives base c tree) (helems : c.elems = []) : t.Decided base c own := by
  refine .inl ⟨tree, hretypes, hgives, uniform_of_elems (fun _ => ⟨tree, ?_⟩) ?_⟩
  · simp [helems]
  · simp [helems]

/-- A well-typed constant is given a type that retypes its own, or there is a first clash in it. -/
theorem constantType_decided (ht : t.Ready m base) (h : c.HasType m own) :
    t.Decided base c own := by
  obtain ⟨fallback, hfallback⟩ := ht.fallback
  -- The induction is on the typing of the constant, so all elements and fields are decided.
  induction h with
  | imm value =>
      refine decided_of_gives (.refl (fullyTyped_leaf rfl)) ?_ rfl
      exact Delivers.pure fun s _ => unfoldedWithin_leaf rfl
  | null space =>
      refine decided_of_gives (.pointer space fallback) ?_ rfl
      exact Delivers.liftState (Config.fallbackPtr_yields hfallback space)
  | undef hty | zero hty =>
      obtain ⟨tree, hretypes, hyields⟩ :=
        Config.retype_yields hfallback ht.consistent (unfolded_of_le ht.behind hty)
      exact decided_of_gives hretypes (Delivers.liftState hyields) rfl
  | @global id g hglobal =>
      obtain ⟨tree, htree⟩ := ht.global id g hglobal
      refine decided_of_gives (.pointer g.space tree) ?_ rfl
      have hread : t.ctx.global id = .ok g := by rw [ht.ctx, hglobal]
      refine Delivers.bind (Delivers.lift hread) fun b u hu _ hb => ?_
      subst hb
      exact .liftState (.intern (c := .typedPtr b.ty b.space) (.cons (htree.mono hu) .nil))
  | @func id f hf =>
      obtain ⟨ty, tree, hknown, htree⟩ := ht.func id f hf
      refine decided_of_gives (.pointer .generic tree) ?_ rfl
      show Delivers base _ (t.functionType id)
      rw [functionType, hknown]
      exact .liftState (.intern (c := .typedPtr ty .generic) (.cons htree .nil))
  | @array elemTy elem elems helem _ ih =>
      rcases sequence_decided ht helem ih with
        ⟨tree, hretypes, huniform, hdelivers⟩ | ⟨clash, hclash, hrefuses⟩
      · refine .inl ⟨_, hretypes.array elems.length, ?_, huniform _ rfl rfl⟩
        exact Delivers.bind hdelivers fun ty u _ _ hty =>
          .liftState (.intern (c := .array ty elems.length) (.cons hty .nil))
      · exact .inr ⟨clash, hclash _ rfl rfl, hrefuses.bind⟩
  | @vector elemTy elem elems helem _ ih =>
      rcases sequence_decided ht helem ih with
        ⟨tree, hretypes, huniform, hdelivers⟩ | ⟨clash, hclash, hrefuses⟩
      · refine .inl ⟨_, hretypes.vector elems.length, ?_, huniform _ rfl rfl⟩
        exact Delivers.bind hdelivers fun ty u _ _ hty =>
          .liftState (.intern (c := .vector ty elems.length) (.cons hty .nil))
      · exact .inr ⟨clash, hclash _ rfl rfl, hrefuses.bind⟩
  | @struct ty name packed parts fields hty hlength _ ih =>
      have hparts : List.Forall₂ (t.Decided base) fields parts := by
        refine List.forall₂_iff_get.2 ⟨hlength, fun i hi hi' => ih i _ _ ?_ ?_⟩
        · exact List.getElem?_eq_getElem hi
        · exact List.getElem?_eq_getElem hi'
      obtain ⟨d, hd, rfl⟩ := exists_struct_of_unfolded (unfolded_of_le ht.behind hty)
      rcases fieldTypes_decided (List.nil_append fields).symm (by simp) hparts with
        ⟨trees, hretypes, huniform, hdelivers⟩ | ⟨clash, hclash, hrefuses⟩
      · refine .inl ⟨_, .struct hretypes name d.packed, .resolve hd ?_,
          uniform_of_elems (fun hsequence => nomatch hsequence) huniform⟩
        exact hdelivers.bind fun tys u _ _ htys =>
          .liftState (.intern (c := .struct ⟨none, tys, d.packed⟩) htys)
      · exact .inr ⟨clash, hclash ty, .resolve hd hrefuses.bind⟩

/-- In the store `s` the constant is given a type that unfolds to the tree. -/
def ClassifiesTo (t : TableTyping) (s : TypeStore) (c : Constant) (tree : TypeTree) : Prop :=
  ∃ ty u, (t.constantType c).exec s = .ok (.ok ty, u) ∧ Unfolds tree u ty

theorem Gives.classifiesTo {tree : TypeTree} (hbase : base.Consistent) (h : t.Gives base c tree) :
    t.ClassifiesTo base c tree := by
  obtain ⟨ty, u, hrun, -, -, hty⟩ := h base (TypeStore.le_refl base) hbase
  exact ⟨ty, u, hrun, hty⟩

theorem ClassifiesTo.unique {s : TypeStore} {tree tree' : TypeTree} (h : t.ClassifiesTo s c tree)
    (h' : t.ClassifiesTo s c tree') : tree = tree' := by
  obtain ⟨ty, u, hrun, hty⟩ := h
  obtain ⟨ty', u', hrun', hty'⟩ := h'
  cases hrun.symm.trans hrun'
  exact Except.ok.inj (hty.symm.trans hty')

end TableTyping

namespace Module

variable {m : Module} {config : Config} {bodies map : PtrMap} {s types : TypeStore}

/-- After the functions are classified, the store has all types that a table asks for. -/
theorem tableTyping_ready (hm : m.TypesHeld) (hfallback : config.fallback.Below m.ctx.types.size)
    (hbodies : (m.inferBodies (m.seedGlobals config .empty)).run m.ctx.types = .ok (bodies, s))
    (hfunctions : (m.classifyFunctions config bodies).exec s = .ok (.ok map, types)) :
    TableTyping.Ready ⟨m.ctx, config, map⟩ m types := by
  obtain ⟨hholds, hknown⟩ := classifyFunctions_held hm hfallback hbodies hfunctions
  have hle := size_le_of_le hholds.behind
  refine ⟨rfl, hholds.behind, hholds.consistent, ?_, fun id g hglobal => ?_, fun id f hf => ?_⟩
  · exact hholds.consistent.exists_unfolded (hfallback.mono hle)
  · exact hholds.consistent.exists_unfolded ((hm.context.globals id g hglobal).mono hle)
  · obtain ⟨ty, hty⟩ := hknown id f hf
    obtain ⟨tree, htree⟩ := hholds.consistent.exists_unfolded (hholds.map _ _ hty)
    exact ⟨ty, tree, hty, htree⟩

/-- Typing a well-typed table after the functions of its module are classified ends well or is
refused. It is refused exactly if two elements of one array or vector in the table, each for itself,
are given different types, and the refusal names the element where going through the table from left
to right first meets a type other than that of the elements before. Otherwise the type of the table
has no opaque pointer left, and with its typed pointers erased it is the table's own type: lengths,
fields and packing are the same. -/
theorem table_typed_or_clash (hm : m.TypesHeld)
    (hfallback : config.fallback.Below m.ctx.types.size)
    (hbodies : (m.inferBodies (m.seedGlobals config .empty)).run m.ctx.types = .ok (bodies, s))
    (hfunctions : (m.classifyFunctions config bodies).exec s = .ok (.ok map, types))
    {init : Constant} {own : TypeTree} (hinit : init.HasType m own) :
    let table : TableTyping := ⟨m.ctx, config, map⟩
    ∃ r u, (table.constantType init).exec types = .ok (r, u) ∧
      ((∃ e, r = .error e) ↔ HasClash (table.ClassifiesTo types) init) ∧
      (∀ e, r = .error e → ∃ clash, FirstClash (table.ClassifiesTo types) init clash ∧
        table.Reports clash u e) ∧
      (∀ ty, r = .ok ty → ∃ tree, u.unfolded ty = .ok tree ∧ tree.erased = own.erased ∧
        tree.FullyTyped) ∧
      ∃ ty v, (init.typeOf m.ctx).run m.ctx.types = .ok (ty, v) ∧ v.unfolded ty = .ok own := by
  intro table
  have hready : table.Ready m types := tableTyping_ready hm hfallback hbodies hfunctions
  have hgives : ∀ c tree, table.Gives types c tree → table.ClassifiesTo types c tree :=
    fun c tree => TableTyping.Gives.classifiesTo hready.consistent
  have hown : ∃ ty v, (init.typeOf m.ctx).run m.ctx.types = .ok (ty, v) ∧
      v.unfolded ty = .ok own := by
    obtain ⟨ty, v, hrun, -, -, hty⟩ :=
      hinit.typeOf m.ctx.types (TypeStore.le_refl _) hm.context.consistent
    exact ⟨ty, v, hrun, hty⟩
  rcases TableTyping.constantType_decided hready hinit with
    ⟨tree, hretypes, hdelivers, huniform⟩ | ⟨clash, hclash, hrefuses⟩
  · obtain ⟨ty, u, hrun, -, -, hty⟩ := hdelivers types (TypeStore.le_refl types) hready.consistent
    -- Two elements of one sequence have a type in common, and each of them has only one.
    have hno : ¬ HasClash (table.ClassifiesTo types) init :=
      huniform.not_hasClash hgives fun _ _ _ => TableTyping.ClassifiesTo.unique
    refine ⟨.ok ty, u, hrun, ⟨fun ⟨e, he⟩ => (nomatch he), fun h => absurd h hno⟩,
      fun e he => (nomatch he), fun ty' heq => ?_, hown⟩
    cases heq
    exact ⟨tree, hty, hretypes.shape, hretypes.typed⟩
  · obtain ⟨e, u, hrun, hreports⟩ := hrefuses types (TypeStore.le_refl types) hready.consistent
    have hfirst := hclash.mono hgives
    refine ⟨.error e, u, hrun, ⟨fun _ => hfirst.hasClash, fun _ => ⟨e, rfl⟩⟩, fun e' heq => ?_,
      fun ty heq => (nomatch heq), hown⟩
    cases heq
    exact ⟨clash, hfirst, hreports⟩

/-- Two functions that constructor entries may name. The second one has a sample for its
argument. -/
def constructors : List Signature :=
  [⟨"start", .imported, [], .unit, none⟩,
    ⟨"handler", .imported, [.genericPtr], .unit, some ⟨none, [(0, .zero .i64)]⟩⟩]

/-- A module with a struct for constructor entries, some data and two functions. -/
def declaresEntry : Module where
  ctx :=
    { target := ⟨.air64, .bitcode, .v7⟩
      types := TypeStore.empty.enter
        (.struct ⟨some "entry", [.i32, .genericPtr, .genericPtr], false⟩)
      globals := #[⟨"data", .i8, .generic, .exported, false, none⟩]
      signatures := constructors.toArray }
  funcs := (constructors.map .ofSignature).toArray

theorem typesHeld_declaresEntry : declaresEntry.TypesHeld := by
  have hsignatures : ∀ s, ∀ sig ∈ constructors, sig.TypesHeld s := by
    simp only [constructors, List.forall_mem_cons]
    refine fun s =>
      ⟨⟨?_, trivial, ?_, ?_⟩, ⟨?_, trivial, ?_, ?_⟩, fun _ h => absurd h List.not_mem_nil⟩
    all_goals simp [Signature.HeldBy, Constant.HeldBy, Constant.statedType?, Ty.genericPtr,
      Ty.Below, Ty.i64]
  have hparts : ∀ part ∈ [Ty.i32, .genericPtr, .genericPtr], part.Below 0 := by
    simp [Ty.Below, Ty.i32, Ty.genericPtr]
  have hstruct := BuildingOwn.type (.declareStruct "entry" [.i32, .genericPtr, .genericPtr] false)
    (.start ⟨.air64, .bitcode, .v7⟩) hparts rfl
  have hglobal := @BuildingOwn.global _ _ ⟨"data", .i8, .generic, .exported, false, none⟩ _ _
    hstruct trivial rfl
  have hfirst := hglobal.declare (hsignatures _ _ List.mem_cons_self)
  have hsecond := hfirst.declare (hsignatures _ _ (List.mem_cons_of_mem _ List.mem_cons_self))
  exact hsecond.typesHeld

/-- An entry for a constructor. -/
def entryOf (f : FuncId) (data : Constant) : Constant :=
  .struct (.compound ⟨0⟩) [.zero .i32, .func f, data]

/-- A table of two entries for the first function, and one that has each of the functions. -/
def uniformTable : Constant :=
  .array (.compound ⟨0⟩) [entryOf ⟨0⟩ (.global ⟨0⟩), entryOf ⟨0⟩ (.null .generic)]

def mixedTable : Constant :=
  .array (.compound ⟨0⟩) [entryOf ⟨0⟩ (.null .generic), entryOf ⟨1⟩ (.null .generic)]

/-- The struct of an entry, which all entries have as their type. -/
def entryTree : TypeTree :=
  .node (.struct (some "entry") false) [.leaf .i32, .leaf .genericPtr, .leaf .genericPtr]

theorem hasType_entryOf {f : FuncId} {func : Function} (hf : declaresEntry.func f = .ok func)
    {data : Constant} (hdata : data.HasType declaresEntry (.leaf .genericPtr)) :
    (entryOf f data).HasType declaresEntry entryTree := by
  refine .struct rfl rfl fun i c part hc hpart => ?_
  rcases i with _ | _ | _ | i <;> cases hc <;> cases hpart
  · exact .zero rfl
  · exact .func hf
  · exact hdata

theorem hasType_uniformTable :
    uniformTable.HasType declaresEntry (.node (.array 2) [entryTree]) := by
  refine .array rfl (List.forall_mem_cons.2 ⟨?_, List.forall_mem_singleton.2 ?_⟩)
  · have hdata : declaresEntry.ctx.global ⟨0⟩ =
        .ok ⟨"data", .i8, .generic, .exported, false, none⟩ := rfl
    exact hasType_entryOf rfl (.global hdata)
  · exact hasType_entryOf rfl (.null .generic)

theorem hasType_mixedTable :
    mixedTable.HasType declaresEntry (.node (.array 2) [entryTree]) := by
  refine .array rfl (List.forall_mem_cons.2 ⟨?_, List.forall_mem_singleton.2 ?_⟩)
  · exact hasType_entryOf rfl (.null .generic)
  · exact hasType_entryOf rfl (.null .generic)

theorem table_typed_or_clash_declaresEntry : ∃ bodies s map types,
    (declaresEntry.inferBodies (declaresEntry.seedGlobals (.ofStrategy .analytical) .empty)).run
      declaresEntry.ctx.types = .ok (bodies, s) ∧
    (declaresEntry.classifyFunctions (.ofStrategy .analytical) bodies).exec s =
      .ok (.ok map, types) ∧
    let table : TableTyping := ⟨declaresEntry.ctx, .ofStrategy .analytical, map⟩
    (∃ ty u tree, (table.constantType uniformTable).exec types = .ok (.ok ty, u) ∧
      u.unfolded ty = .ok tree ∧ tree.FullyTyped ∧ tree.erased = .node (.array 2)
        [.node (.struct none false) [.leaf .i32, .leaf .genericPtr, .leaf .genericPtr]]) ∧
    ∃ e u clash, (table.constantType mixedTable).exec types = .ok (.error e, u) ∧
      HasClash (table.ClassifiesTo types) mixedTable ∧
      FirstClash (table.ClassifiesTo types) mixedTable clash ∧ table.Reports clash u e := by
  have hrun : succeeds ((declaresEntry.inferBodies
      (declaresEntry.seedGlobals (.ofStrategy .analytical) .empty)).run declaresEntry.ctx.types)
      (fun run => succeeds ((declaresEntry.classifyFunctions (.ofStrategy .analytical) run.1).exec
        run.2) fun run' => run'.1.toOption.any fun map =>
          succeeds ((TableTyping.constantType ⟨declaresEntry.ctx, .ofStrategy .analytical, map⟩
            uniformTable).exec run'.2) (·.1.isOk) &&
          succeeds ((TableTyping.constantType ⟨declaresEntry.ctx, .ofStrategy .analytical, map⟩
            mixedTable).exec run'.2) (!·.1.isOk)) = true := by
    decide +kernel
  obtain ⟨⟨bodies, s⟩, hbodies, hrun⟩ := exists_of_succeeds hrun
  obtain ⟨⟨r, types⟩, hfunctions, hrun⟩ := exists_of_succeeds hrun
  obtain ⟨map, hmap, hrun⟩ := (Option.any_eq_true _ _).1 hrun
  obtain rfl : r = .ok map := by cases r <;> cases hmap; rfl
  obtain ⟨huniform, hmixed⟩ := Bool.and_eq_true_iff.1 hrun
  obtain ⟨⟨r₁, u₁⟩, hrun₁, hok⟩ := exists_of_succeeds huniform
  obtain ⟨⟨r₂, u₂⟩, hrun₂, hrefused⟩ := exists_of_succeeds hmixed
  have hfallback : (Config.ofStrategy .analytical).fallback.Below declaresEntry.ctx.types.size :=
    trivial
  obtain ⟨_, _, hexec₁, -, -, htyped, -⟩ := table_typed_or_clash typesHeld_declaresEntry hfallback
    hbodies hfunctions hasType_uniformTable
  obtain ⟨_, _, hexec₂, hclash, hfirst, -⟩ := table_typed_or_clash typesHeld_declaresEntry hfallback
    hbodies hfunctions hasType_mixedTable
  cases hrun₁.symm.trans hexec₁
  cases hrun₂.symm.trans hexec₂
  cases r₁ with
  | error e => cases hok
  | ok ty =>
      cases r₂ with
      | ok ty => cases hrefused
      | error e =>
          obtain ⟨tree, htree, hshape, hfull⟩ := htyped ty rfl
          obtain ⟨clash, hat, hreports⟩ := hfirst e rfl
          exact ⟨bodies, s, map, types, hbodies, hfunctions,
            ⟨ty, u₁, tree, hrun₁, htree, hfull, hshape⟩,
            e, u₂, clash, hrun₂, hclash.1 ⟨e, rfl⟩, hat, hreports⟩

end Module

end Pointee
