import Mathlib.Algebra.BigOperators.Group.Finset.Basic
import Mathlib.Algebra.Order.BigOperators.Group.Finset
import Pointee.Inference
import Pointee.Proofs.Building
import Pointee.Proofs.Recording
import Pointee.Proofs.SiteReading

/-!
# Backward walks

The backward phase gives each pointer the element type of the first binding site that it reaches.
`Function.Reaches` says by which chains a pointer reaches the pointer operand of a site. A walk from
that operand visits the pointers that reach it and no others, by `Walk.finish`. However the graph is
tied into cycles, a value is visited once, so the walk comes to an end: `Function.WalksBack` is the
walk without a bound on its steps, and `walksBack_walkBack` says that the bound is never reached.
`Function.Backwards` is the phase without a bound in the same way.
`Function.backward_takes_first_site` says that it ends, and what the walks from all sites, one after
another, leave in the map.
-/

namespace Pointee

/-- The members of a list that a test keeps, if the test of each member ends well. -/
theorem filterM_eq_ok {α : Type} {p : α → Except Fault Bool} {xs ys : List α}
    (h : xs.filterM p = .ok ys) : ys.Sublist xs ∧ ∀ x, x ∈ ys ↔ x ∈ xs ∧ p x = .ok true := by
  have haux : ∀ (xs acc zs : List α), xs.filterAuxM p acc = .ok zs →
      ∃ kept : List α, zs = kept.reverse ++ acc ∧ kept.Sublist xs ∧
        ∀ x, x ∈ kept ↔ x ∈ xs ∧ p x = .ok true := by
    intro xs
    induction xs with
    | nil =>
        intro acc zs hzs
        cases hzs
        exact ⟨[], rfl, .slnil, by simp⟩
    | cons x xs ih =>
        intro acc zs hzs
        obtain ⟨b, hb, hrest⟩ := bind_eq_ok_iff.1 hzs
        obtain ⟨kept, rfl, hsub, hmem⟩ := ih _ _ hrest
        cases b with
        | false =>
            refine ⟨kept, rfl, hsub.cons x, fun y => ?_⟩
            rw [hmem, List.mem_cons]
            constructor
            · exact fun ⟨hy, hkeep⟩ => ⟨.inr hy, hkeep⟩
            · rintro ⟨rfl | hy, hkeep⟩
              · cases hb.symm.trans hkeep
              · exact ⟨hy, hkeep⟩
        | true =>
            refine ⟨x :: kept, by simp, hsub.cons_cons x, fun y => ?_⟩
            rw [List.mem_cons, List.mem_cons, hmem]
            constructor
            · rintro (rfl | ⟨hy, hkeep⟩)
              · exact ⟨.inl rfl, hb⟩
              · exact ⟨.inr hy, hkeep⟩
            · rintro ⟨rfl | hy, hkeep⟩
              · exact .inl rfl
              · exact .inr ⟨hy, hkeep⟩
  obtain ⟨zs, hzs, hrest⟩ := bind_eq_ok_iff.1 h
  cases pure_eq_ok_iff.1 hrest
  obtain ⟨kept, rfl, hsub, hmem⟩ := haux xs [] zs hzs
  simpa using ⟨hsub, hmem⟩

/-- A filter ends well if the test of each member does. -/
theorem filterM_total {α : Type} {p : α → Except Fault Bool} {xs : List α}
    (h : ∀ x ∈ xs, ∃ b, p x = .ok b) : ∃ ys, xs.filterM p = .ok ys := by
  have haux : ∀ (xs acc : List α), (∀ x ∈ xs, ∃ b, p x = .ok b) →
      ∃ zs, xs.filterAuxM p acc = .ok zs := by
    intro xs
    induction xs with
    | nil => exact fun acc _ => ⟨acc, rfl⟩
    | cons x xs ih =>
        intro acc hp
        obtain ⟨b, hb⟩ := hp x List.mem_cons_self
        obtain ⟨zs, hzs⟩ := ih (bif b then x :: acc else acc)
          fun y hy => hp y (List.mem_cons_of_mem x hy)
        exact ⟨zs, bind_eq_ok_iff.2 ⟨b, hb, hzs⟩⟩
  obtain ⟨zs, hzs⟩ := haux xs [] h
  exact ⟨zs.reverse, bind_eq_ok_iff.2 ⟨zs, hzs, rfl⟩⟩

namespace Function

variable {f : Function} {id : FuncId} {v w p : ValueId} {elem : Ty} {map map' map₀ : PtrMap}
  {stack stack' : List ValueId} {visited visited' : Table Bool} {i : InstId}

/-! ## Chains of pointers -/

/-- The value is a pointer that is computed at run time: an instruction result or an argument. -/
def LocalPointer (f : Function) (v : ValueId) : Prop :=
  ∃ val, f.graph.value v = .ok val ∧ val.isLocal = true ∧ val.ty.isPointer = true

/-- The instruction that defines `v` passes `w` through. -/
def PassesThrough (f : Function) (v w : ValueId) : Prop :=
  ∃ i ty site, f.graph.value v = .ok (.inst i ty) ∧ f.graph.site i = .ok site ∧
    w ∈ site.passThrough

/-- A chain of pointers, each passed through by the instruction that defines the one before it,
leads from `p` back to `v`. All of them are computed at run time. -/
inductive Reaches (f : Function) (p : ValueId) : ValueId → Prop
  | refl : f.LocalPointer p → Reaches f p p
  | step {v w : ValueId} : Reaches f p v → f.PassesThrough v w → f.LocalPointer w → Reaches f p w

/-- The instruction accesses an `elem`, which is not a pointer, through the pointer `p`. -/
def Binds (f : Function) (i : InstId) (p : ValueId) (elem : Ty) : Prop :=
  ∃ site space, f.graph.site i = .ok site ∧ site.binding f.graph = .ok (some (p, elem)) ∧
    elem.isPointer = false ∧ f.graph.spaceOf p = .ok (some space)

/-- The first of the instructions `is` that accesses something through a pointer that `v` reaches
accesses an `elem`. -/
def FirstSite (f : Function) (is : List InstId) (v : ValueId) (elem : Ty) : Prop :=
  ∃ front i back p, is = front ++ i :: back ∧ f.Binds i p elem ∧ f.Reaches p v ∧
    ∀ j ∈ front, ∀ q e, f.Binds j q e → ¬ f.Reaches q v

theorem LocalPointer.exists_spaceOf (h : f.LocalPointer v) :
    ∃ space, f.graph.spaceOf v = .ok (some space) := by
  obtain ⟨val, hval, -, hptr⟩ := h
  obtain ⟨space, hspace⟩ := Option.isSome_iff_exists.1 hptr
  exact ⟨space, Graph.spaceOf_eq_ok.2 ⟨val, hval, hspace⟩⟩

theorem Reaches.localPointer (h : f.Reaches p v) : f.LocalPointer v := by
  cases h with
  | refl hp => exact hp
  | step _ _ hv => exact hv

theorem FirstSite.localPointer {is : List InstId} (h : f.FirstSite is v elem) :
    f.LocalPointer v := by
  obtain ⟨front, i, back, p, -, -, hreaches, -⟩ := h
  exact hreaches.localPointer

theorem Binds.unique {q : ValueId} {e : Ty} (h : f.Binds i p elem) (h' : f.Binds i q e) :
    p = q ∧ elem = e := by
  obtain ⟨site, space, hsite, hbinding, -⟩ := h
  obtain ⟨site', space', hsite', hbinding', -⟩ := h'
  cases hsite.symm.trans hsite'
  cases hbinding.symm.trans hbinding'
  exact ⟨rfl, rfl⟩

theorem firstSite_cons (hi : ∀ q e, f.Binds i q e → ¬ f.Reaches q v) {is : List InstId} :
    f.FirstSite (i :: is) v elem ↔ f.FirstSite is v elem := by
  constructor
  · rintro ⟨front, j, back, p, hsplit, hbinds, hreaches, hfront⟩
    cases front with
    | nil =>
        cases hsplit
        exact absurd hreaches (hi p elem hbinds)
    | cons k front =>
        cases hsplit
        exact ⟨front, j, back, p, rfl, hbinds, hreaches, fun k hk =>
          hfront k (List.mem_cons_of_mem _ hk)⟩
  · rintro ⟨front, j, back, p, rfl, hbinds, hreaches, hfront⟩
    exact ⟨i :: front, j, back, p, rfl, hbinds, hreaches, List.forall_mem_cons.2 ⟨hi, hfront⟩⟩

theorem firstSite_head {e : Ty} (hbinds : f.Binds i p elem) (hreaches : f.Reaches p v)
    {is : List InstId} : f.FirstSite (i :: is) v e ↔ e = elem := by
  constructor
  · rintro ⟨front, j, back, q, hsplit, hbinds', -, hfront⟩
    cases front with
    | nil =>
        cases hsplit
        exact (hbinds'.unique hbinds).2
    | cons k front =>
        cases hsplit
        exact absurd hreaches (hfront i List.mem_cons_self p elem hbinds)
  · rintro rfl
    exact ⟨[], i, is, p, rfl, hbinds, hreaches, by simp⟩

/-- Some instruction is the first. -/
theorem exists_firstSite {is : List InstId} :
    (∃ e, f.FirstSite is v e) ↔ ∃ i ∈ is, ∃ p e, f.Binds i p e ∧ f.Reaches p v := by
  constructor
  · rintro ⟨e, front, i, back, p, rfl, hbinds, hreaches, -⟩
    exact ⟨i, by simp, p, e, hbinds, hreaches⟩
  · rintro ⟨i, hi, hsite⟩
    induction is with
    | nil => cases hi
    | cons j is ih =>
        by_cases hj : ∃ q e, f.Binds j q e ∧ f.Reaches q v
        · obtain ⟨q, e, hbinds, hreaches⟩ := hj
          exact ⟨e, (firstSite_head hbinds hreaches).2 rfl⟩
        · rcases List.mem_cons.1 hi with rfl | hi
          · exact absurd hsite hj
          · obtain ⟨e, he⟩ := ih hi
            exact ⟨e, (firstSite_cons fun q e hbinds hreaches => hj ⟨q, e, hbinds, hreaches⟩).2 he⟩

/-! ## What a walk records -/

/-- `map'` is `map` with an entry for each value that has none and for which `R` names a pointee.
The entry is in the value's own address space. -/
structure Records (f : Function) (id : FuncId) (R : ValueId → Ty → Prop) (map map' : PtrMap) :
    Prop where
  kept : ∀ key d, map.get? key = some d → map'.get? key = some d
  new : ∀ key d, map.get? key = none → (map'.get? key = some d ↔
    ∃ v, key = .value id v ∧ R v d.pointee ∧ f.graph.spaceOf v = .ok (some d.space))

namespace Records

variable {R R' : ValueId → Ty → Prop}

/-- Nothing is recorded for a value that is no pointer. -/
theorem idle (hR : ∀ v e space, R v e → f.graph.spaceOf v ≠ .ok (some space)) :
    f.Records id R map map where
  kept _ _ h := h
  new key d hnone := by
    rw [hnone]
    constructor
    · exact fun h => nomatch h
    · rintro ⟨v, -, hv, hspace⟩
      exact absurd hspace (hR v _ _ hv)

theorem refl (hR : ∀ v e, ¬ R v e) : f.Records id R map map :=
  .idle fun v e _ hv => absurd hv (hR v e)

theorem congr (h : f.Records id R map map') (hiff : ∀ v e, R' v e ↔ R v e) :
    f.Records id R' map map' := by
  rwa [show R' = R from funext fun v => funext fun e => propext (hiff v e)]

/-- One value is recorded. -/
theorem insert {space : AddrSpace} (hspace : f.graph.spaceOf v = .ok (some space)) :
    f.Records id (fun w e => w = v ∧ e = elem) map
      (map.insert (.value id v) ⟨elem, space⟩) := by
  refine ⟨(PtrMap.AddsValues.insert id map v _).kept, fun key d hnone => ?_⟩
  rw [PtrMap.get?_insert]
  split
  · next heq =>
      subst heq
      rw [hnone, Option.none_or, Option.some_inj]
      constructor
      · rintro rfl
        exact ⟨v, rfl, ⟨rfl, rfl⟩, hspace⟩
      · rintro ⟨w, -, ⟨rfl, rfl⟩, hspace'⟩
        cases hspace.symm.trans hspace'
        rfl
  · next hne =>
      rw [hnone]
      constructor
      · exact fun h => nomatch h
      · rintro ⟨w, rfl, ⟨rfl, -⟩, -⟩
        exact absurd rfl hne

/-- What is recorded second counts where nothing was recorded first. -/
theorem trans {map'' : PtrMap} (h : f.Records id R map map') (h' : f.Records id R' map' map'') :
    f.Records id (fun v e => R v e ∨ (∀ e', ¬ R v e') ∧ R' v e) map map'' := by
  refine ⟨fun key d hd => h'.kept key d (h.kept key d hd), fun key d hnone => ?_⟩
  cases hmid : map'.get? key with
  | some d' =>
      obtain ⟨v, rfl, hR, hspace⟩ := (h.new key d' hnone).1 hmid
      rw [h'.kept _ d' hmid, Option.some_inj]
      constructor
      · rintro rfl
        exact ⟨v, rfl, .inl hR, hspace⟩
      · rintro ⟨w, hw, hR' | ⟨hno, -⟩, hspace'⟩
        · cases hw
          exact Option.some_inj.1
            (hmid.symm.trans ((h.new _ d hnone).2 ⟨v, rfl, hR', hspace'⟩))
        · cases hw
          exact absurd hR (hno _)
  | none =>
      rw [h'.new key d hmid]
      constructor
      · rintro ⟨v, rfl, hR', hspace⟩
        refine ⟨v, rfl, .inr ⟨fun e hR => ?_, hR'⟩, hspace⟩
        cases hmid.symm.trans ((h.new _ ⟨e, d.space⟩ hnone).2 ⟨v, rfl, hR, hspace⟩)
      · rintro ⟨v, rfl, hR | ⟨-, hR'⟩, hspace⟩
        · cases hmid.symm.trans ((h.new _ d hnone).2 ⟨v, rfl, hR, hspace⟩)
        · exact ⟨v, rfl, hR', hspace⟩

theorem addsValues (h : f.Records id R map map') : PtrMap.AddsValues [id] map map' := by
  refine ⟨h.kept, fun key hkey => ?_⟩
  cases hmap : map.get? key with
  | some d => exact h.kept key d hmap
  | none =>
      refine Option.eq_none_iff_forall_ne_some.2 fun d hd => ?_
      obtain ⟨v, hv, -⟩ := (h.new key d hmap).1 hd
      exact hkey id (List.mem_singleton_self id) v hv

end Records

/-! ## One walk -/

/-- The state of a walk from `p`: the stacked values are pointers that reach `p` if they are
computed at run time, and so are the visited ones; what passes through a visited value is visited or
stacked. -/
structure Walk (f : Function) (p : ValueId) (stack : List ValueId) (visited : Table Bool) :
    Prop where
  pointers : ∀ v ∈ stack, ∃ space, f.graph.spaceOf v = .ok (some space)
  stacked : ∀ v ∈ stack, f.LocalPointer v → f.Reaches p v
  visits : ∀ v, visited.get v.index = true → f.Reaches p v
  start : f.LocalPointer p → visited.get p.index = true ∨ p ∈ stack
  onward : ∀ v w, visited.get v.index = true → f.PassesThrough v w → f.LocalPointer w →
    visited.get w.index = true ∨ w ∈ stack

theorem visited_set : (visited.set v.index true).get w.index = true ↔
    w = v ∨ visited.get w.index = true := by
  rw [Table.get_set, ValueId.ext_iff, eq_comm (a := w.index)]
  split <;> simp_all

namespace Walk

theorem begin {space : AddrSpace} (hp : f.graph.spaceOf p = .ok (some space)) :
    f.Walk p [p] .empty := by
  refine ⟨fun v hv => ?_, fun v hv hlocal => ?_, fun v hv => ?_, fun _ => .inr (by simp),
    fun v w hv => ?_⟩
  · obtain rfl := List.mem_singleton.1 hv
    exact ⟨space, hp⟩
  · obtain rfl := List.mem_singleton.1 hv
    exact .refl hlocal
  · simp at hv
  · simp at hv

/-- A walk that has nothing left to visit has visited what reaches `p`. -/
theorem finish (h : f.Walk p [] visited) (v : ValueId) :
    f.Reaches p v ↔ visited.get v.index = true := by
  refine ⟨fun hv => ?_, h.visits v⟩
  induction hv with
  | refl hp => simpa using h.start hp
  | step _ hpass hw ih => simpa using h.onward _ _ ih hpass hw

/-- A value that is not computed at run time, or that was visited, is passed over. -/
theorem skip (h : f.Walk p (v :: stack) visited)
    (hv : f.LocalPointer v → visited.get v.index = true) : f.Walk p stack visited := by
  have hdrop : ∀ {w}, f.LocalPointer w → visited.get w.index = true ∨ w ∈ v :: stack →
      visited.get w.index = true ∨ w ∈ stack := by
    rintro w hw (hvisited | hmem)
    · exact .inl hvisited
    · rcases List.mem_cons.1 hmem with rfl | hmem
      · exact .inl (hv hw)
      · exact .inr hmem
  exact ⟨fun w hw => h.pointers w (List.mem_cons_of_mem v hw),
    fun w hw => h.stacked w (List.mem_cons_of_mem v hw), h.visits, fun hp => hdrop hp (h.start hp),
    fun u w hu hpass hw => hdrop hw (h.onward u w hu hpass hw)⟩

/-- A value that is visited stacks the pointers that pass through it. -/
theorem visit (h : f.Walk p (v :: stack) visited) (hv : f.LocalPointer v) {sources : List ValueId}
    (hsources : ∀ w, w ∈ sources ↔
      f.PassesThrough v w ∧ ∃ space, f.graph.spaceOf w = .ok (some space)) :
    f.Walk p (sources ++ stack) (visited.set v.index true) := by
  have hreaches := h.stacked v List.mem_cons_self hv
  have hmove : ∀ {w}, visited.get w.index = true ∨ w ∈ v :: stack →
      (visited.set v.index true).get w.index = true ∨ w ∈ sources ++ stack := by
    rintro w (hw | hmem)
    · exact .inl (visited_set.2 (.inr hw))
    · rcases List.mem_cons.1 hmem with rfl | hmem
      · exact .inl (visited_set.2 (.inl rfl))
      · exact .inr (List.mem_append_right _ hmem)
  refine ⟨fun w hw => ?_, fun w hw hlocal => ?_, fun w hw => ?_, fun hp => hmove (h.start hp),
    fun u w hu hpass hw => ?_⟩
  · rcases List.mem_append.1 hw with hw | hw
    · exact ((hsources w).1 hw).2
    · exact h.pointers w (List.mem_cons_of_mem v hw)
  · rcases List.mem_append.1 hw with hw | hw
    · exact .step hreaches ((hsources w).1 hw).1 hlocal
    · exact h.stacked w (List.mem_cons_of_mem v hw) hlocal
  · rcases visited_set.1 hw with rfl | hw
    · exact hreaches
    · exact h.visits w hw
  · rcases visited_set.1 hu with rfl | hu
    · -- The new visit: what passes through it is stacked, as far as it is a pointer.
      exact .inr (List.mem_append_left _ ((hsources w).2 ⟨hpass, hw.exists_spaceOf⟩))
    · exact hmove (h.onward u w hu hpass hw)

end Walk

/-- The pointers that are stacked for a value are those that pass through it, and no more than the
value has operands. -/
theorem sources_eq_ok {val : Value} {sources : List ValueId} (hval : f.graph.value v = .ok val)
    (h : f.sources val = .ok sources) :
    (∀ w, w ∈ sources ↔ f.PassesThrough v w ∧ ∃ space, f.graph.spaceOf w = .ok (some space)) ∧
      sources.length ≤ f.fanIn val := by
  unfold Function.sources at h
  cases hinst : val.inst? with
  | none =>
      simp only [hinst] at h
      cases pure_eq_ok_iff.1 h
      refine ⟨fun w => ⟨fun hw => absurd hw List.not_mem_nil, ?_⟩, Nat.zero_le _⟩
      rintro ⟨⟨i, ty, site, hval', -⟩, -⟩
      cases hval.symm.trans hval'
      cases hinst
  | some i =>
      simp only [hinst] at h
      obtain ⟨site, hsite, hfilter⟩ := bind_eq_ok_iff.1 h
      obtain ⟨hsub, hmem⟩ := filterM_eq_ok hfilter
      obtain ⟨inst, hget, hofInst⟩ := Graph.site_eq_ok.1 hsite
      have hval' : ∃ ty, val = .inst i ty := by
        cases val with
        | inst j ty => cases hinst; exact ⟨ty, rfl⟩
        | _ => cases hinst
      obtain ⟨ty, rfl⟩ := hval'
      refine ⟨fun w => ?_, ?_⟩
      · have hptr : (do return (← f.graph.spaceOf w).isSome : Except Fault Bool) = .ok true ↔
            ∃ space, f.graph.spaceOf w = .ok (some space) := by
          rw [bind_eq_ok_iff]
          constructor
          · rintro ⟨space, hspace, hsome⟩
            obtain ⟨s, rfl⟩ := Option.isSome_iff_exists.1 (pure_eq_ok_iff.1 hsome)
            exact ⟨s, hspace⟩
          · rintro ⟨s, hs⟩
            exact ⟨some s, hs, rfl⟩
        rw [hmem, hptr]
        refine and_congr_left fun _ => ⟨fun hw => ⟨i, ty, site, hval, hsite, hw⟩, ?_⟩
        rintro ⟨j, ty', site', hval', hsite', hw⟩
        cases hval.symm.trans hval'
        cases hsite.symm.trans hsite'
        exact hw
      · have hfan : f.fanIn (.inst i ty) = inst.operands.length := by
          simp [fanIn, Value.inst?, Graph.inst_eq_ok.1 hget]
        rw [hfan]
        exact (hsub.trans (Site.passThrough_sublist hofInst)).length_le

theorem sources_total (hf : f.Sound) (hclosed : f.graph.Closed)
    (hbased : ∀ i, ¬ f.InstIs i (·.lacksBase = true)) {val : Value}
    (hval : f.graph.value v = .ok val) :
    ∃ sources, f.sources val = .ok sources ∧ ∀ w ∈ sources, f.graph.Has w := by
  unfold Function.sources
  cases val with
  | inst i ty =>
      obtain ⟨inst, hinst⟩ := Graph.exists_inst (hf.graph.defined_lt v i ty hval)
      obtain ⟨site, hofInst⟩ := Site.ofInst_total fun hlacks => hbased i ⟨inst, hinst, hlacks⟩
      have hhas : ∀ w ∈ site.passThrough, f.graph.Has w := fun w hw =>
        hclosed.has_operand hinst w ((Site.passThrough_sublist hofInst).subset hw)
      have htest : ∀ w ∈ site.passThrough, ∃ b,
          (do return (← f.graph.spaceOf w).isSome : Except Fault Bool) = .ok b := by
        intro w hw
        obtain ⟨val, hval⟩ := (hhas w hw).exists_value
        exact ⟨_, bind_eq_ok_iff.2 ⟨_, Graph.spaceOf_eq_ok.2 ⟨val, hval, rfl⟩, rfl⟩⟩
      obtain ⟨sources, hsources⟩ := filterM_total htest
      have hsite : f.graph.site i = .ok site := Graph.site_eq_ok.2 ⟨inst, hinst, hofInst⟩
      refine ⟨sources, ?_, fun w hw => hhas w ((filterM_eq_ok hsources).1.subset hw)⟩
      show (f.graph.site i >>= fun site => site.passThrough.filterM _) = _
      rw [hsite]
      exact hsources
  | _ => exact ⟨[], rfl, by simp⟩

/-! ## The walk comes to an end -/

/-- The walk from the stacked values, without a bound on its steps, ends with the given outcome. -/
inductive WalksBack (f : Function) (id : FuncId) (elem : Ty) :
    List ValueId → Table Bool → PtrMap → Except Fault PtrMap → Prop
  | done {visited : Table Bool} {map : PtrMap} : WalksBack f id elem [] visited map (.ok map)
  | next {v : ValueId} {stack stack' : List ValueId} {visited visited' : Table Bool}
      {map map' : PtrMap} {out : Except Fault PtrMap} :
      f.walkStep id elem v stack visited map = .ok (stack', visited', map') →
      WalksBack f id elem stack' visited' map' out →
      WalksBack f id elem (v :: stack) visited map out
  | fault {v : ValueId} {stack : List ValueId} {visited : Table Bool} {map : PtrMap}
      {fault : Fault} : f.walkStep id elem v stack visited map = .error fault →
      WalksBack f id elem (v :: stack) visited map (.error fault)

/-- A value that is not computed at run time, or that was visited, is passed over. Any other is
recorded if it is a pointer, and what flows into it is stacked. -/
theorem walkStep_eq_ok (h : f.walkStep id elem v stack visited map = .ok (stack', visited', map')) :
    ∃ val, f.graph.value v = .ok val ∧
      ((val.isLocal = true → visited.get v.index = true) ∧ stack' = stack ∧ visited' = visited ∧
          map' = map ∨
        val.isLocal = true ∧ visited.get v.index = false ∧ visited' = visited.set v.index true ∧
          (∃ sources, f.sources val = .ok sources ∧ stack' = sources.reverse ++ stack) ∧
          ∀ space, val.ty.space? = some space → map' = map.insert (.value id v) ⟨elem, space⟩) := by
  obtain ⟨val, hval, hrest⟩ := bind_eq_ok_iff.1 h
  refine ⟨val, hval, ?_⟩
  split at hrest
  · next hskip =>
      cases pure_eq_ok_iff.1 hrest
      refine .inl ⟨fun hlocal => ?_, rfl, rfl, rfl⟩
      simpa [hlocal] using hskip
  · next hvisit =>
      rw [Bool.or_eq_true, not_or, Bool.not_eq_true', Bool.not_eq_false, Bool.not_eq_true] at hvisit
      obtain ⟨sources, hsources, hrest⟩ := bind_eq_ok_iff.1 hrest
      cases pure_eq_ok_iff.1 hrest
      refine .inr ⟨hvisit.1, hvisit.2, rfl, ⟨sources, hsources, rfl⟩, fun space hspace => ?_⟩
      rw [hspace]

/-- How many values may still be stacked for the values that were not visited. -/
def remaining (f : Function) (visited : Table Bool) : Nat :=
  ∑ k ∈ Finset.range f.graph.values.size,
    if visited.get k then 0 else (f.graph.values[k]?.map f.fanIn).getD 0

theorem remaining_visit {val : Value} (hval : f.graph.value v = .ok val)
    (hnew : visited.get v.index = false) :
    f.remaining (visited.set v.index true) + f.fanIn val = f.remaining visited := by
  have hget := Graph.value_eq_ok.1 hval
  have hmem : v.index ∈ Finset.range f.graph.values.size :=
    Finset.mem_range.2 (Graph.has_of_value hval)
  unfold remaining
  rw [← Finset.sum_erase_add _ _ hmem, ← Finset.sum_erase_add _ _ hmem]
  have hothers : ∀ k ∈ (Finset.range f.graph.values.size).erase v.index,
      (visited.set v.index true).get k = visited.get k := fun k hk =>
    Table.get_set_of_ne _ _ (Finset.ne_of_mem_erase hk).symm
  rw [Finset.sum_congr rfl fun k hk => by rw [hothers k hk]]
  simp [hnew, hget]

theorem remaining_empty : f.remaining .empty + 1 = f.walkBound := by
  have hfold : ∀ (vals : List Value) (n : Nat),
      vals.foldl (fun n val => n + f.fanIn val) n =
        (∑ k ∈ Finset.range vals.length, (vals[k]?.map f.fanIn).getD 0) + n := by
    intro vals
    induction vals with
    | nil => simp
    | cons val vals ih =>
        intro n
        rw [List.foldl_cons, ih, List.length_cons, Finset.sum_range_succ']
        simp only [List.getElem?_cons_succ, List.getElem?_cons_zero, Option.map_some,
          Option.getD_some]
        omega
  rw [walkBound, hfold, remaining]
  simp

/-- A step takes a value from the stack, and stacks no more than it leaves to be stacked. -/
theorem walkStep_measure
    (h : f.walkStep id elem v stack visited map = .ok (stack', visited', map')) :
    stack'.length + f.remaining visited' ≤ stack.length + f.remaining visited := by
  obtain ⟨val, hval, ⟨-, rfl, rfl, -⟩ | ⟨-, hnew, rfl, ⟨sources, hsources, rfl⟩, -⟩⟩ :=
    walkStep_eq_ok h
  · exact Nat.le_refl _
  · have hlen := (sources_eq_ok hval hsources).2
    have hremaining := remaining_visit hval hnew
    rw [List.length_append, List.length_reverse]
    omega

/-- The bound on the steps is never reached. -/
theorem walksBack_walkBack {steps : Nat} (hsteps : stack.length + f.remaining visited ≤ steps) :
    f.WalksBack id elem stack visited map (f.walkBack id elem steps stack visited map) := by
  induction steps generalizing stack visited map with
  | zero =>
      cases stack with
      | nil => exact .done
      | cons v stack => simp at hsteps
  | succ steps ih =>
      cases stack with
      | nil => exact .done
      | cons v stack =>
          cases hstep : f.walkStep id elem v stack visited map with
          | error fault =>
              rw [walkBack, hstep]
              exact .fault hstep
          | ok state =>
              obtain ⟨stack', visited', map'⟩ := state
              have hmeasure := walkStep_measure hstep
              rw [List.length_cons] at hsteps
              rw [walkBack, hstep]
              exact .next hstep (ih (by omega))

theorem walksBack_start (f : Function) (id : FuncId) (elem : Ty) (p : ValueId) (map : PtrMap) :
    f.WalksBack id elem [p] .empty map (f.walkBack id elem f.walkBound [p] .empty map) := by
  refine walksBack_walkBack ?_
  rw [← f.remaining_empty, List.length_singleton, Nat.add_comm]

/-! ## What a walk leaves behind -/

/-- A step of a walk from `p` leads on, and keeps what was recorded the visited values. -/
theorem Walk.walkStep (hwalk : f.Walk p (v :: stack) visited)
    (hrecords : f.Records id (fun v e => visited.get v.index = true ∧ e = elem) map₀ map)
    (h : f.walkStep id elem v stack visited map = .ok (stack', visited', map')) :
    f.Walk p stack' visited' ∧
      f.Records id (fun v e => visited'.get v.index = true ∧ e = elem) map₀ map' := by
  obtain ⟨val, hval, ⟨hskip, rfl, rfl, rfl⟩ |
    ⟨hlocal, hnew, rfl, ⟨sources, hsources, rfl⟩, hrecorded⟩⟩ := walkStep_eq_ok h
  · refine ⟨hwalk.skip fun hptr => ?_, hrecords⟩
    obtain ⟨val', hval', hlocal, -⟩ := hptr
    cases hval.symm.trans hval'
    exact hskip hlocal
  · obtain ⟨space, hspace⟩ := hwalk.pointers v List.mem_cons_self
    obtain ⟨val', hval', hty⟩ := Graph.spaceOf_eq_ok.1 hspace
    cases hval.symm.trans hval'
    have hptr : f.LocalPointer v := ⟨val, hval, hlocal, by simp [Ty.isPointer, hty]⟩
    have hmem := (sources_eq_ok hval hsources).1
    refine ⟨hwalk.visit hptr (by simpa using hmem), ?_⟩
    rw [hrecorded space hty]
    refine (hrecords.trans (.insert hspace)).congr fun w e => ?_
    rw [visited_set]
    grind

/-- A walk that ends well has recorded the values that reach its start. -/
theorem WalksBack.records {out : Except Fault PtrMap}
    (h : f.WalksBack id elem stack visited map out) (hwalk : f.Walk p stack visited)
    (hrecords : f.Records id (fun v e => visited.get v.index = true ∧ e = elem) map₀ map)
    (hout : out = .ok map') : f.Records id (fun v e => f.Reaches p v ∧ e = elem) map₀ map' := by
  induction h with
  | done =>
      cases hout
      exact hrecords.congr fun v e => by rw [hwalk.finish]
  | next hstep _ ih =>
      obtain ⟨hwalk', hrecords'⟩ := hwalk.walkStep hrecords hstep
      exact ih hwalk' hrecords' hout
  | fault => cases hout

section Total

variable (hf : f.Sound) (hclosed : f.graph.Closed)
  (hbased : ∀ i, ¬ f.InstIs i (·.lacksBase = true))
include hf hclosed hbased

/-- A step can be made where instructions have what they read and addresses a base, and stacks
values that there are. -/
theorem walkStep_total (hstack : ∀ w ∈ v :: stack, f.graph.Has w) :
    ∃ stack' visited' map',
      f.walkStep id elem v stack visited map = .ok (stack', visited', map') ∧
      ∀ w ∈ stack', f.graph.Has w := by
  rw [List.forall_mem_cons] at hstack
  obtain ⟨val, hval⟩ := hstack.1.exists_value
  unfold walkStep
  rw [hval]
  dsimp only [bind, Except.bind]
  split
  · exact ⟨stack, visited, map, rfl, hstack.2⟩
  · obtain ⟨sources, hsources, hhas⟩ := sources_total hf hclosed hbased hval
    rw [hsources]
    refine ⟨_, _, _, rfl, fun w hw => ?_⟩
    rcases List.mem_append.1 hw with hw | hw
    · exact hhas w (List.mem_reverse.1 hw)
    · exact hstack.2 w hw

theorem WalksBack.total {out : Except Fault PtrMap}
    (h : f.WalksBack id elem stack visited map out) (hstack : ∀ w ∈ stack, f.graph.Has w) :
    ∃ map', out = .ok map' := by
  induction h with
  | done => exact ⟨_, rfl⟩
  | next hstep _ ih =>
      obtain ⟨_, _, _, hstep', hhas⟩ := walkStep_total hf hclosed hbased hstack
      cases hstep.symm.trans hstep'
      exact ih hhas
  | fault hfault =>
      obtain ⟨_, _, _, hstep, -⟩ := walkStep_total hf hclosed hbased hstack
      cases hfault.symm.trans hstep

end Total

/-! ## The walks from all sites -/

/-- The walks from a list of instructions, without a bound on the steps of any of them, end with the
given outcome. -/
inductive Backwards (f : Function) (id : FuncId) :
    List InstId → PtrMap → Except Fault PtrMap → Prop
  | done {map : PtrMap} : Backwards f id [] map (.ok map)
  | pass {i : InstId} {is : List InstId} {map : PtrMap} {out : Except Fault PtrMap} :
      f.walkStart i = .ok none → Backwards f id is map out → Backwards f id (i :: is) map out
  | walk {i : InstId} {is : List InstId} {p : ValueId} {elem : Ty} {map map' : PtrMap}
      {out : Except Fault PtrMap} : f.walkStart i = .ok (some (p, elem)) →
      f.WalksBack id elem [p] .empty map (.ok map') → Backwards f id is map' out →
      Backwards f id (i :: is) map out
  | startFault {i : InstId} {is : List InstId} {map : PtrMap} {fault : Fault} :
      f.walkStart i = .error fault → Backwards f id (i :: is) map (.error fault)
  | walkFault {i : InstId} {is : List InstId} {p : ValueId} {elem : Ty} {map : PtrMap}
      {fault : Fault} : f.walkStart i = .ok (some (p, elem)) →
      f.WalksBack id elem [p] .empty map (.error fault) →
      Backwards f id (i :: is) map (.error fault)

/-- The phase is its walks without a bound. -/
theorem backwards_foldlM (f : Function) (id : FuncId) (is : List InstId) (map : PtrMap) :
    f.Backwards id is map (is.foldlM (f.walkFrom id) map) := by
  induction is generalizing map with
  | nil => exact .done
  | cons i is ih =>
      rw [List.foldlM_cons, walkFrom]
      cases hstart : f.walkStart i with
      | error fault => exact .startFault hstart
      | ok start =>
          cases start with
          | none => exact .pass hstart (ih map)
          | some start =>
              obtain ⟨p, elem⟩ := start
              have hwalk := f.walksBack_start id elem p map
              dsimp only [bind, Except.bind]
              cases hout : f.walkBack id elem f.walkBound [p] .empty map with
              | error fault => exact .walkFault hstart (hout ▸ hwalk)
              | ok map' => exact .walk hstart (hout ▸ hwalk) (ih map')

/-- A walk starts where an access through a pointer says what it points to. -/
theorem walkStart_eq_some : f.walkStart i = .ok (some (p, elem)) ↔ f.Binds i p elem := by
  unfold walkStart Binds
  constructor
  · intro h
    obtain ⟨site, hsite, hrest⟩ := bind_eq_ok_iff.1 h
    obtain ⟨binding, hbinding, hrest⟩ := bind_eq_ok_iff.1 hrest
    cases binding with
    | none => cases hrest
    | some binding =>
        obtain ⟨ptr, ty⟩ := binding
        dsimp only at hrest
        split at hrest
        · cases hrest
        · next helem =>
            obtain ⟨space, hspace, hrest⟩ := bind_eq_ok_iff.1 hrest
            cases space with
            | none => cases hrest
            | some space =>
                cases hrest
                exact ⟨site, space, hsite, hbinding, by simpa using helem, hspace⟩
  · rintro ⟨site, space, hsite, hbinding, helem, hspace⟩
    rw [hsite]
    show (site.binding f.graph >>= _) = _
    rw [hbinding]
    show (if elem.isPointer = true then _ else _) = _
    rw [helem, if_neg Bool.false_ne_true, hspace]
    rfl

/-- The walk from a site counts where no walk has come before, and those from the other sites count
elsewhere. -/
theorem Records.firstSite {is : List InstId} {mid : PtrMap}
    (h : f.Records id (fun v e => ∃ p, f.Binds i p e ∧ f.Reaches p v) map mid)
    (hrest : f.Records id (f.FirstSite is) mid map') :
    f.Records id (f.FirstSite (i :: is)) map map' := by
  refine (h.trans hrest).congr fun v e => ?_
  by_cases hsite : ∃ p e', f.Binds i p e' ∧ f.Reaches p v
  · obtain ⟨p, e', hbinds, hreaches⟩ := hsite
    rw [firstSite_head hbinds hreaches]
    constructor
    · rintro rfl
      exact .inl ⟨p, hbinds, hreaches⟩
    · rintro (⟨q, hbinds', -⟩ | ⟨hno, -⟩)
      · exact (hbinds'.unique hbinds).2
      · exact absurd ⟨p, hbinds, hreaches⟩ (hno e')
  · rw [firstSite_cons fun q e' hbinds hreaches => hsite ⟨q, e', hbinds, hreaches⟩]
    constructor
    · exact fun hfirst => .inr ⟨fun e' ⟨p, hp⟩ => hsite ⟨p, e', hp⟩, hfirst⟩
    · rintro (⟨p, hp⟩ | ⟨-, hfirst⟩)
      · exact absurd ⟨p, e, hp⟩ hsite
      · exact hfirst

/-- The walks from a list of sites leave what the first of them says. -/
theorem Backwards.records {is : List InstId} {out : Except Fault PtrMap}
    (h : f.Backwards id is map out) (hout : out = .ok map') :
    f.Records id (f.FirstSite is) map map' := by
  induction h with
  | done =>
      cases hout
      exact .refl fun v e ⟨front, i, back, p, hsplit, _⟩ => by simp at hsplit
  | pass hstart _ ih =>
      refine Records.firstSite (.refl fun v e ⟨p, hbinds, _⟩ => ?_) (ih hout)
      cases hstart.symm.trans (walkStart_eq_some.2 hbinds)
  | @walk i is p elem map mid out hstart hwalk _ ih =>
      have hbinds := walkStart_eq_some.1 hstart
      obtain ⟨_, space, -, -, -, hspace⟩ := walkStart_eq_some.1 hstart
      have hrecords := hwalk.records (.begin hspace) (.refl (by simp)) rfl
      refine Records.firstSite (hrecords.congr fun v e => ?_) (ih hout)
      constructor
      · rintro ⟨q, hbinds', hreaches⟩
        obtain ⟨rfl, rfl⟩ := hbinds'.unique hbinds
        exact ⟨hreaches, rfl⟩
      · rintro ⟨hreaches, rfl⟩
        exact ⟨p, hbinds, hreaches⟩
  | startFault | walkFault => cases hout

theorem backwards_backward (f : Function) (id : FuncId) (map : PtrMap) :
    f.Backwards id f.insts map (f.backward id map) := f.backwards_foldlM id f.insts map

theorem backward_records (h : f.backward id map = .ok map') :
    f.Records id (f.FirstSite f.insts) map map' := (f.backwards_backward id map).records h

section Total

variable (hf : f.Sound) (hclosed : f.graph.Closed)
  (hbased : ∀ i, ¬ f.InstIs i (·.lacksBase = true))
include hf hclosed hbased

/-- Where a walk from an instruction starts can be read, and there is a value. -/
theorem walkStart_total (hi : i ∈ f.insts) :
    ∃ start, f.walkStart i = .ok start ∧ ∀ p elem, start = some (p, elem) → f.graph.Has p := by
  obtain ⟨inst, hinst⟩ := Graph.exists_inst (hf.lt_of_mem_insts hi)
  have hhas : ∀ v ∈ inst.operands, f.graph.Has v := hclosed.has_operand hinst
  obtain ⟨site, hofInst⟩ := Site.ofInst_total fun hlacks => hbased i ⟨inst, hinst, hlacks⟩
  have hsite : f.graph.site i = .ok site := Graph.site_eq_ok.2 ⟨inst, hinst, hofInst⟩
  obtain ⟨binding, hbinding, hptr⟩ := Site.binding_total hofInst hhas
  unfold walkStart
  rw [hsite]
  show ∃ start, (site.binding f.graph >>= _) = Except.ok start ∧ _
  rw [hbinding]
  cases binding with
  | none => exact ⟨none, rfl, by simp⟩
  | some binding =>
      obtain ⟨ptr, elem⟩ := binding
      have hhasPtr := hhas ptr (hptr ptr elem rfl)
      obtain ⟨val, hval⟩ := hhasPtr.exists_value
      dsimp only [bind, Except.bind]
      split
      · exact ⟨none, rfl, by simp⟩
      · rw [Graph.spaceOf_eq_ok.2 ⟨val, hval, rfl⟩]
        refine ⟨_, rfl, fun p e heq => ?_⟩
        obtain ⟨_, -, heq⟩ := Option.map_eq_some_iff.1 heq
        cases heq
        exact hhasPtr

theorem Backwards.total {is : List InstId} {out : Except Fault PtrMap}
    (h : f.Backwards id is map out) (his : ∀ i ∈ is, i ∈ f.insts) : ∃ map', out = .ok map' := by
  induction h with
  | done => exact ⟨_, rfl⟩
  | pass _ _ ih | walk _ _ _ ih => exact ih (List.forall_mem_cons.1 his).2
  | startFault hfault =>
      obtain ⟨start, hstart, -⟩ :=
        walkStart_total hf hclosed hbased (List.forall_mem_cons.1 his).1
      cases hfault.symm.trans hstart
  | walkFault hstart hwalk =>
      obtain ⟨start, hstart', hhas⟩ :=
        walkStart_total hf hclosed hbased (List.forall_mem_cons.1 his).1
      cases hstart.symm.trans hstart'
      obtain ⟨map', heq⟩ := hwalk.total hf hclosed hbased (by simpa using hhas _ _ rfl)
      cases heq

end Total

/-- The backward phase comes to an end on every graph. It ends well if the function is sound and its
graph closed, unless an address computation has no base. It keeps every descriptor. A pointer
without one gets one exactly if it reaches the pointer operand of a site that accesses something
other than a pointer: the first such site in layout order says what it points to, and it stays in
its own address space. Nothing else is recorded. -/
theorem backward_takes_first_site (f : Function) (id : FuncId) (map : PtrMap) :
    f.Backwards id f.insts map (f.backward id map) ∧
      (f.Sound → f.graph.Closed →
        (∃ i, f.InstIs i (·.lacksBase = true)) ∨ ∃ map', f.backward id map = .ok map') ∧
      ∀ map', f.backward id map = .ok map' →
        (∀ key d, map.get? key = some d → map'.get? key = some d) ∧
        (∀ v, map.get? (.value id v) = none →
          ((∃ d, map'.get? (.value id v) = some d) ↔
            ∃ i ∈ f.insts, ∃ p elem, f.Binds i p elem ∧ f.Reaches p v) ∧
          ∀ d, map'.get? (.value id v) = some d →
            f.FirstSite f.insts v d.pointee ∧ f.graph.spaceOf v = .ok (some d.space)) ∧
        ∀ key, (∀ v, key ≠ .value id v) → map'.get? key = map.get? key := by
  refine ⟨f.backwards_backward id map, fun hf hclosed => ?_, fun map' h => ?_⟩
  · rw [or_iff_not_imp_left]
    intro hbased
    exact (f.backwards_backward id map).total hf hclosed (fun i hi => hbased ⟨i, hi⟩)
      fun i hi => hi
  · have hrecords : f.Records id (f.FirstSite f.insts) map map' := backward_records h
    refine ⟨hrecords.kept, fun v hnone => ⟨?_, fun d hd => ?_⟩, fun key hkey => ?_⟩
    · rw [← exists_firstSite]
      constructor
      · rintro ⟨d, hd⟩
        obtain ⟨w, hw, hfirst, -⟩ := (hrecords.new _ d hnone).1 hd
        cases hw
        exact ⟨_, hfirst⟩
      · rintro ⟨elem, hfirst⟩
        obtain ⟨space, hspace⟩ := hfirst.localPointer.exists_spaceOf
        exact ⟨⟨elem, space⟩, (hrecords.new _ _ hnone).2 ⟨v, rfl, hfirst, hspace⟩⟩
    · obtain ⟨w, hw, hfirst⟩ := (hrecords.new _ d hnone).1 hd
      cases hw
      exact hfirst
    · cases hmap : map.get? key with
      | some d => exact hrecords.kept key d hmap
      | none =>
          refine Option.eq_none_iff_forall_ne_some.2 fun d hd => ?_
          obtain ⟨w, hw, -⟩ := (hrecords.new key d hmap).1 hd
          exact hkey w hw

end Function

namespace Module

/-- A block that jumps to itself. Its phi and a cast of the address space pass the argument on to
each other, and two accesses of different types go through them. -/
def pointerLoop : Except Fault Module :=
  ofInsts ⟨.air64, .bitcode, .v7⟩ ⟨"f", .exported, [.genericPtr], .unit, none⟩
    [.phi .genericPtr [(⟨0⟩, ⟨0⟩), (⟨2⟩, ⟨0⟩)], .cast .spaceCast ⟨1⟩ (.ptr ⟨1⟩),
      .load ⟨2⟩ .i32, .load ⟨1⟩ .i8, .jump ⟨0⟩]

end Module

namespace Function

/-- The walks end, though the phi and the cast are tied into a cycle. The phi has a descriptor from
the start, which it keeps; the argument gets the type of the first access through it. -/
theorem backward_takes_first_site_pointerLoop : ∃ m f map', Module.pointerLoop = .ok m ∧
    m.func ⟨0⟩ = .ok f ∧ f.Sound ∧ f.graph.Closed ∧
    f.Backwards ⟨0⟩ f.insts (PtrMap.empty.insert (.value ⟨0⟩ ⟨1⟩) ⟨.i64, .generic⟩) (.ok map') ∧
    f.backward ⟨0⟩ (PtrMap.empty.insert (.value ⟨0⟩ ⟨1⟩) ⟨.i64, .generic⟩) = .ok map' ∧
    map'.get? (.value ⟨0⟩ ⟨1⟩) = some ⟨.i64, .generic⟩ ∧
    map'.get? (.value ⟨0⟩ ⟨2⟩) = some ⟨.i32, ⟨1⟩⟩ ∧
    map'.get? (.value ⟨0⟩ ⟨0⟩) = some ⟨.i32, .generic⟩ ∧ f.FirstSite f.insts ⟨0⟩ .i32 := by
  have hrun : succeeds Module.pointerLoop (fun m => succeeds (m.func ⟨0⟩) fun f =>
      f.graph.checkClosed && succeeds
        (f.backward ⟨0⟩ (PtrMap.empty.insert (.value ⟨0⟩ ⟨1⟩) ⟨.i64, .generic⟩)) fun map' =>
          map'.get? (.value ⟨0⟩ ⟨2⟩) = some ⟨.i32, ⟨1⟩⟩ &&
          map'.get? (.value ⟨0⟩ ⟨0⟩) = some ⟨.i32, .generic⟩) = true := by
    decide +kernel
  obtain ⟨m, hm, hrun⟩ := exists_of_succeeds hrun
  obtain ⟨f, hf, hrun⟩ := exists_of_succeeds hrun
  obtain ⟨hclosed, hrun⟩ := Bool.and_eq_true_iff.1 hrun
  obtain ⟨map', hmap', hrun⟩ := exists_of_succeeds hrun
  simp only [Bool.and_eq_true, decide_eq_true_eq] at hrun
  have hsound : f.Sound := (Module.built_of_ofItems hm).sound hf
  have hclosed := Graph.closed_of_checkClosed hclosed
  obtain ⟨hends, -, hsays⟩ := backward_takes_first_site f ⟨0⟩
    (PtrMap.empty.insert (.value ⟨0⟩ ⟨1⟩) ⟨.i64, .generic⟩)
  obtain ⟨hkept, hnew, -⟩ := hsays map' hmap'
  exact ⟨m, f, map', hm, hf, hsound, hclosed, hmap' ▸ hends, hmap', hkept _ _ rfl, hrun.1, hrun.2,
    ((hnew ⟨0⟩ rfl).2 _ hrun.2).1⟩

end Function

end Pointee
