import Pointee.Proofs.Histories
import Pointee.Proofs.Mismatches

/-!
# Patching is exact

Patching puts a cast before each access that disagrees with the map and changes nothing else, by
`Module.patching_is_exact`. It works on a function that grows under its hands, but what it makes of
one access decides nothing about another, so it does not matter whether a mismatch is read before
the run, when the access has its turn, or at the end. `Patching.Progress` is the invariant of the
turns: it says where casts stand, what was recorded, and that each instruction behind is settled.
Nothing is asked of the graph: operands may name values that do not exist, and consumers may be
recorded at will.
-/

namespace Pointee

open PtrMap

/-! ## One turn -/

namespace Patching

variable {config : Config} {id : FuncId} {s t : Patching} {i j : InstId} {inst : Inst} {slot : Nat}
  {ptr v : ValueId} {space : AddrSpace}

/-- A cast of `ptr` to its own type is made, placed directly before `i` and recorded, and its value
takes the place of operand `slot` of `i`. -/
structure Casts (config : Config) (id : FuncId) (s : Patching) (i : InstId) (inst : Inst)
    (slot : Nat) (ptr : ValueId) (space : AddrSpace) (t : Patching) : Prop where
  args : t.func.args = s.func.args
  layout : ∀ b front back, s.func.layout.instsOf b = front ++ i :: back →
    s.func.layout.Inserts b front s.func.graph.nextInst (i :: back) t.func.layout
  insts : t.func.graph.insts = (s.func.graph.insts.push (.marker ptr (.ptr space))).setIfInBounds
    i.index (inst.setOperand slot s.func.graph.nextValue)
  values : t.func.graph.values =
    s.func.graph.values.push (.inst s.func.graph.nextInst (.ptr space))
  result? : ∀ j, t.func.graph.result? j =
    if j = s.func.graph.nextInst then some s.func.graph.nextValue else s.func.graph.result? j
  map : t.map = s.map.insert (.value id s.func.graph.nextValue) (config.fallbackIn space)
  patched : t.patched = s.patched + 1

theorem castPointer_casts (hs : s.func.layout.Sound) (hinst : s.func.graph.inst i = .ok inst)
    (h : s.castPointer config id i slot ptr space = .ok t) :
    Casts config id s i inst slot ptr space t := by
  obtain ⟨loc, ins, mid, v, inst', graph, hloc, hmid, hv, hinst', hgraph, rfl⟩ :=
    castPointer_eq_ok h
  -- A cast computes a value, so the value is made.
  have hmarker : s.func.graph.resultType (.marker ptr (.ptr space)) = .ok (some (.ptr space)) := rfl
  obtain ⟨rfl, hargs, hlayout, hinsts, hvalues, hresults⟩ := Function.insert_defines hmid hmarker
  cases hv
  obtain rfl : inst' = inst := by
    have hlt := Graph.inst_lt hinst
    rw [Graph.inst, hinsts, Array.getElem?_push_lt hlt, ← Array.getElem?_eq_getElem hlt] at hinst'
    exact Except.ok.inj (hinst'.symm.trans hinst)
  obtain ⟨-, hvalues', hresults', hinsts'⟩ := Graph.replaceInst_frame hgraph
  refine ⟨hargs, fun b front back hrow => ?_, ?_, hvalues'.trans hvalues, fun j => ?_, rfl, rfl⟩
  · obtain ⟨loc', hloc', hsplits⟩ := hs.before_splits hrow
    cases hloc.symm.trans hloc'
    obtain ⟨layout, hlayout', hins⟩ := hs.insertAt hsplits (hs.splits_of_insertAt hlayout).2
    cases hlayout.symm.trans hlayout'
    exact hins
  · rw [hinsts', hinsts]
  · rw [← hresults, Graph.result?, hresults']
    rfl

namespace Casts

theorem inst_eq (h : Casts config id s i inst slot ptr space t)
    (hi : s.func.graph.inst i = .ok inst) (j : InstId) : t.func.graph.inst j =
      if j = i then .ok (inst.setOperand slot s.func.graph.nextValue)
      else if j = s.func.graph.nextInst then .ok (.marker ptr (.ptr space))
      else s.func.graph.inst j := by
  have hlt := Graph.inst_lt hi
  have hpushed : i.index <
      ({ s.func.graph with insts := s.func.graph.insts.push (.marker ptr (.ptr space)) } :
        Graph).insts.size := by
    rw [Array.size_push]
    exact Nat.lt_succ_of_lt hlt
  rw [Graph.inst_of_set hpushed h.insts]
  congr 1
  simp only [Graph.inst, Array.getElem?_push, InstId.ext_iff, Graph.nextInst]
  split <;> rfl

theorem value_eq (h : Casts config id s i inst slot ptr space t) (v : ValueId) :
    t.func.graph.value v = if v = s.func.graph.nextValue
      then .ok (.inst s.func.graph.nextInst (.ptr space)) else s.func.graph.value v := by
  simp only [Graph.value, h.values, Array.getElem?_push, ValueId.ext_iff, Graph.nextValue]
  split <;> rfl

theorem get?_eq (h : Casts config id s i inst slot ptr space t)
    (hnew : s.map.get? (.value id s.func.graph.nextValue) = none) (key : PtrKey) :
    t.map.get? key = if key = .value id s.func.graph.nextValue
      then some (config.fallbackIn space) else s.map.get? key := by
  rw [h.map, get?_insert, hnew, Option.none_or]

end Casts

/-- Only a new value is made and recorded. -/
theorem Casts.extends (h : Casts config id s i inst slot ptr space t) :
    (s.reading id).Extends (t.reading id) := by
  have hfresh : ¬ s.func.graph.Has s.func.graph.nextValue := Nat.lt_irrefl _
  refine ⟨rfl, fun v val hv => ?_, fun key hkey => ?_⟩
  · show t.func.graph.value v = .ok val
    rw [h.value_eq, if_neg]
    · exact hv
    · rintro rfl
      exact hfresh (Graph.has_of_value hv)
  · show t.map.get? key = s.map.get? key
    rw [h.map, get?_insert, if_neg]
    rintro rfl
    exact hfresh (hkey id _ rfl).2

end Patching

/-! ## One function -/

namespace Function

variable {config : Config} {id : FuncId} {map map' : PtrMap} {f f' : Function} {i c : InstId}
  {v : ValueId} {cast : InstId → Option (InstId × ValueId)}

/-- `i` is an access of `f` that disagrees with the map. In `f'` it goes through `v`, the value of
the cast `c` of its pointer. Cast and value are new, and the value is recorded with the fallback
pointee. -/
structure CastAt (config : Config) (id : FuncId) (map : PtrMap) (f f' : Function) (i c : InstId)
    (v : ValueId) : Prop where
  placed : i ∈ f.insts
  newInst : f.graph.insts.size ≤ c.index
  notPlaced : c ∉ f.insts
  newValue : ¬ f.graph.Has v
  result : f'.graph.result? c = some v
  site : ∃ inst slot ptr space, f.graph.inst i = .ok inst ∧
    inst.Mismatch ⟨id, f'.graph, map⟩ slot ptr space ∧
    f'.graph.inst i = .ok (inst.setOperand slot v) ∧
    f'.graph.inst c = .ok (.marker ptr (.ptr space)) ∧
    f'.graph.value v = .ok (.inst c (.ptr space)) ∧
    map.get? (.value id v) = some (config.fallbackIn space)

/-- The instructions of a block, each with the cast that goes before it. -/
def withCasts (cast : InstId → Option (InstId × ValueId)) (row : List InstId) : List InstId :=
  row.flatMap fun i => ((cast i).map Prod.fst).toList ++ [i]

theorem mem_withCasts {row : List InstId} : c ∈ withCasts cast row ↔
    ∃ i ∈ row, c = i ∨ ∃ v, cast i = some (c, v) := by
  simp [withCasts, or_comm]

theorem withCasts_congr {cast' : InstId → Option (InstId × ValueId)} {row : List InstId}
    (h : ∀ i ∈ row, cast' i = cast i) : withCasts cast' row = withCasts cast row :=
  List.flatMap_congr fun i hi => by rw [h i hi]

theorem withCasts_split (cast : InstId → Option (InstId × ValueId)) (front : List InstId)
    (i : InstId) (back : List InstId) : withCasts cast (front ++ i :: back) =
      withCasts cast front ++ ((cast i).map Prod.fst).toList ++ i :: withCasts cast back := by
  simp [withCasts]

/-- `f'` is `f` with casts directly before some of its accesses. `cast i` is the cast before `i`
with its value, if there is one. Nothing else is made, placed or changed. -/
structure CastsBefore (config : Config) (id : FuncId) (map : PtrMap)
    (cast : InstId → Option (InstId × ValueId)) (f f' : Function) : Prop where
  args : f'.args = f.args
  blocks : f'.layout.blockOrder = f.layout.blockOrder
  rows : ∀ b, f'.layout.instsOf b = withCasts cast (f.layout.instsOf b)
  values : f.graph.Keeps f'.graph
  results : ∀ i inst, f.graph.inst i = .ok inst → f'.graph.result? i = f.graph.result? i
  insts : ∀ i inst, f.graph.inst i = .ok inst → cast i = none → f'.graph.inst i = .ok inst
  casts : ∀ i c v, cast i = some (c, v) → f.CastAt config id map f' i c v
  distinct : ∀ i j c v w, cast i = some (c, v) → cast j = some (c, w) → i = j
  madeInsts : ∀ c inst, f'.graph.inst c = .ok inst →
    c.index < f.graph.insts.size ∨ ∃ i v, cast i = some (c, v)
  madeValues : ∀ v, f'.graph.Has v → f.graph.Has v ∨ ∃ i c, cast i = some (c, v)

theorem CastsBefore.refl (config : Config) (id : FuncId) (map : PtrMap) (f : Function) :
    f.CastsBefore config id map (fun _ => none) f where
  args := rfl
  blocks := rfl
  rows b := by simp [withCasts]
  values := .refl _
  results _ _ _ := rfl
  insts _ _ hinst _ := hinst
  casts _ _ _ h := nomatch h
  distinct _ _ _ _ _ h := nomatch h
  madeInsts _ _ hinst := .inl (Graph.inst_lt hinst)
  madeValues _ hv := .inl hv

/-- What is recorded of other functions is no matter. -/
theorem CastAt.extends (h : f.CastAt config id map f' i c v)
    (hr : Reading.Extends ⟨id, f'.graph, map⟩ ⟨id, f'.graph, map'⟩) :
    f.CastAt config id map' f' i c v := by
  obtain ⟨inst, slot, ptr, space, hinst, hmismatch, hi, hc, hv, hd⟩ := h.site
  refine { h with site := ⟨inst, slot, ptr, space, hinst, hmismatch.extends hr, hi, hc, hv, ?_⟩ }
  refine (hr.known (.value id v) fun id' w hw => ?_).trans hd
  cases hw
  exact ⟨rfl, Graph.has_of_value hv⟩

theorem CastsBefore.extends (h : f.CastsBefore config id map cast f')
    (hr : Reading.Extends ⟨id, f'.graph, map⟩ ⟨id, f'.graph, map'⟩) :
    f.CastsBefore config id map' cast f' :=
  { h with casts := fun i c v hc => (h.casts i c v hc).extends hr }

/-- No instruction gets lost. -/
theorem CastsBefore.exists_inst (h : f.CastsBefore config id map cast f') {inst : Inst}
    (hinst : f.graph.inst i = .ok inst) : ∃ inst', f'.graph.inst i = .ok inst' := by
  cases hc : cast i with
  | none => exact ⟨inst, h.insts i inst hinst hc⟩
  | some cv =>
      obtain ⟨_, _, _, _, -, -, hi, -⟩ := (h.casts i cv.1 cv.2 hc).site
      exact ⟨_, hi⟩

theorem CastsBefore.mem_row (h : f.CastsBefore config id map cast f') {b : BlockId}
    (hi : i ∈ f.layout.instsOf b) : i ∈ f'.layout.instsOf b := by
  rw [h.rows]
  exact mem_withCasts.2 ⟨i, hi, .inl rfl⟩

/-- What is made next is new to the function as it was. -/
theorem CastsBefore.fresh (h : f.CastsBefore config id map cast f') (hf : f.layout.Sound)
    (hnew : ∀ b, f'.graph.nextInst ∉ f'.layout.instsOf b) :
    f.graph.insts.size ≤ f'.graph.nextInst.index ∧ f'.graph.nextInst ∉ f.insts ∧
      ¬ f.graph.Has f'.graph.nextValue := by
  refine ⟨Nat.not_lt.1 fun hlt => ?_, fun hmem => ?_, fun hv => ?_⟩
  · obtain ⟨inst, hinst⟩ := Graph.exists_inst hlt
    obtain ⟨inst', hinst'⟩ := h.exists_inst hinst
    exact Graph.ne_nextInst hinst' rfl
  · obtain ⟨b, hb⟩ := hf.mem_allInsts.1 hmem
    exact hnew b (h.mem_row hb)
  · exact Nat.lt_irrefl _ (h.values.has hv)

end Function

namespace Patching

variable {config : Config} {id : FuncId} {s₀ s t : Patching} {f : Function} {i j : InstId}
  {inst : Inst} {slot : Nat} {ptr : ValueId} {space : AddrSpace}
  {cast : InstId → Option (InstId × ValueId)}

/-- The casts of a round more. -/
def addCast (cast : InstId → Option (InstId × ValueId)) (i c : InstId) (v : ValueId) :
    InstId → Option (InstId × ValueId) :=
  fun j => if j = i then some (c, v) else cast j

theorem addCast_eq_some {c c' : InstId} {v v' : ValueId} :
    addCast cast i c v j = some (c', v') ↔
      j = i ∧ c' = c ∧ v' = v ∨ j ≠ i ∧ cast j = some (c', v') := by
  unfold addCast
  by_cases h : j = i
  · simp [h, eq_comm]
  · simp [h]

theorem addCast_eq_none {c : InstId} {v : ValueId} :
    addCast cast i c v j = none ↔ j ≠ i ∧ cast j = none := by
  unfold addCast
  by_cases h : j = i <;> simp [h]

theorem withCasts_addCast {row : List InstId} (hi : i ∉ row) (c : InstId) (v : ValueId) :
    Function.withCasts (addCast cast i c v) row = Function.withCasts cast row := by
  refine Function.withCasts_congr fun j hj => if_neg ?_
  rintro rfl
  exact hi hj

/-- A cast stands directly before its instruction. -/
theorem Casts.rows (h : Casts config id s i inst slot ptr space t)
    (hrows : ∀ b, s.func.layout.instsOf b = Function.withCasts cast (f.layout.instsOf b))
    (hf : f.layout.Sound) (hi : i ∈ f.insts) (hnone : cast i = none) (v : ValueId) :
    ∃ b front back, s.func.layout.Inserts b front s.func.graph.nextInst back t.func.layout ∧
      ∀ b, t.func.layout.instsOf b =
        Function.withCasts (addCast cast i s.func.graph.nextInst v) (f.layout.instsOf b) := by
  obtain ⟨b, hb⟩ := hf.mem_allInsts.1 hi
  obtain ⟨front, back, hrow⟩ := List.append_of_mem hb
  have hnodup := hf.nodup b
  rw [hrow, List.nodup_middle, List.nodup_cons, List.mem_append, not_or] at hnodup
  have hbefore : s.func.layout.instsOf b =
      Function.withCasts cast front ++ i :: Function.withCasts cast back := by
    rw [hrows, hrow, Function.withCasts_split, hnone]
    simp
  refine ⟨b, _, _, h.layout b _ _ hbefore, fun b' => ?_⟩
  rw [(h.layout b _ _ hbefore).instsOf_eq]
  split
  · next heq =>
      subst heq
      rw [hrow, Function.withCasts_split, withCasts_addCast hnodup.1.1,
        withCasts_addCast hnodup.1.2, addCast, if_pos rfl]
      simp
  · next hne => rw [hrows, withCasts_addCast fun hb' => hne (hf.block_unique hb hb')]

/-- The cast that a round makes. -/
theorem Casts.castAt_new (h : Casts config id s i inst slot ptr space t)
    (hinst : s.func.graph.inst i = .ok inst) (hfi : f.graph.inst i = .ok inst) (hi : i ∈ f.insts)
    (hfresh : f.graph.insts.size ≤ s.func.graph.nextInst.index ∧
      s.func.graph.nextInst ∉ f.insts ∧ ¬ f.graph.Has s.func.graph.nextValue)
    (hmismatch : inst.Mismatch (s.reading id) slot ptr space)
    (hunknown : s.map.get? (.value id s.func.graph.nextValue) = none) :
    f.CastAt config id t.map t.func i s.func.graph.nextInst s.func.graph.nextValue where
  placed := hi
  newInst := hfresh.1
  notPlaced := hfresh.2.1
  newValue := hfresh.2.2
  result := by rw [h.result?, if_pos rfl]
  site := by
    refine ⟨inst, slot, ptr, space, hfi, hmismatch.extends h.extends, ?_, ?_, ?_, ?_⟩
    · rw [h.inst_eq hinst, if_pos rfl]
    · rw [h.inst_eq hinst, if_neg (Graph.ne_nextInst hinst).symm, if_pos rfl]
    · rw [h.value_eq, if_pos rfl]
    · rw [h.get?_eq hunknown, if_pos rfl]

/-- A cast that was made before stays what it is. -/
theorem Casts.castAt_old (h : Casts config id s i inst slot ptr space t)
    (hcasts : f.CastsBefore config id s.map cast s.func) (hinst : s.func.graph.inst i = .ok inst)
    (hi : i.index < f.graph.insts.size) {c : InstId} {v : ValueId} (hji : j ≠ i)
    (hc : cast j = some (c, v)) : f.CastAt config id t.map t.func j c v := by
  have hcast := hcasts.casts j c v hc
  obtain ⟨old, slot', ptr', space', hold, hmismatch, hj, hmarker, hv, hd⟩ := hcast.site
  have hci : c ≠ i := by
    rintro rfl
    exact Nat.not_lt.2 hcast.newInst hi
  refine ⟨hcast.placed, hcast.newInst, hcast.notPlaced, hcast.newValue, ?_, old, slot', ptr',
    space', hold, hmismatch.extends h.extends, ?_, ?_, h.extends.values v _ hv, ?_⟩
  · rw [h.result?, if_neg (Graph.ne_nextInst hmarker)]
    exact hcast.result
  · rw [h.inst_eq hinst, if_neg hji, if_neg (Graph.ne_nextInst hj)]
    exact hj
  · rw [h.inst_eq hinst, if_neg hci, if_neg (Graph.ne_nextInst hmarker)]
    exact hmarker
  · refine (h.extends.known (.value id v) fun id' w hw => ?_).trans hd
    cases hw
    exact ⟨rfl, Graph.has_of_value hv⟩

/-- A round that casts puts one cast more. -/
theorem Casts.castsBefore (h : Casts config id s i inst slot ptr space t)
    (hcasts : f.CastsBefore config id s.map cast s.func) (hf : f.layout.Sound) (hi : i ∈ f.insts)
    (hnone : cast i = none) (hfi : f.graph.inst i = .ok inst)
    (hmismatch : inst.Mismatch (s.reading id) slot ptr space)
    (hunknown : s.map.get? (.value id s.func.graph.nextValue) = none) :
    t.func.layout.Sound ∧ f.CastsBefore config id t.map
      (addCast cast i s.func.graph.nextInst s.func.graph.nextValue) t.func := by
  have hinst := hcasts.insts i inst hfi hnone
  obtain ⟨b, front, back, hins, hrows⟩ := h.rows hcasts.rows hf hi hnone s.func.graph.nextValue
  have hfresh := hcasts.fresh hf hins.fresh
  -- A cast that was made before is not the new one.
  have hused : ∀ {j c v}, cast j = some (c, v) → c ≠ s.func.graph.nextInst := by
    intro j c v hc
    obtain ⟨_, _, _, _, -, -, -, hmarker, -⟩ := (hcasts.casts j c v hc).site
    exact Graph.ne_nextInst hmarker
  have hkept : ∀ {j c v}, cast j = some (c, v) →
      addCast cast i s.func.graph.nextInst s.func.graph.nextValue j = some (c, v) := by
    intro j c v hc
    refine addCast_eq_some.2 (.inr ⟨?_, hc⟩)
    rintro rfl
    cases hnone.symm.trans hc
  refine ⟨hins.sound, h.args.trans hcasts.args, hins.blockOrder_eq.trans hcasts.blocks, hrows,
    hcasts.values.trans h.extends.values, ?_, ?_, ?_, ?_, ?_, ?_⟩
  · intro j old hj
    obtain ⟨new, hnew⟩ := hcasts.exists_inst hj
    rw [h.result?, if_neg (Graph.ne_nextInst hnew)]
    exact hcasts.results j old hj
  · intro j old hj hnone'
    obtain ⟨hji, hcj⟩ := addCast_eq_none.1 hnone'
    have hj' := hcasts.insts j old hj hcj
    rw [h.inst_eq hinst, if_neg hji, if_neg (Graph.ne_nextInst hj')]
    exact hj'
  · intro j c v hc
    rcases addCast_eq_some.1 hc with ⟨rfl, rfl, rfl⟩ | ⟨hji, hc⟩
    · exact h.castAt_new hinst hfi hi hfresh hmismatch hunknown
    · exact h.castAt_old hcasts hinst (Graph.inst_lt hfi) hji hc
  · intro j k c v w hj hk
    rcases addCast_eq_some.1 hj with ⟨rfl, rfl, -⟩ | ⟨-, hj'⟩ <;>
      rcases addCast_eq_some.1 hk with ⟨rfl, heq, -⟩ | ⟨-, hk'⟩
    · rfl
    · exact absurd rfl (hused hk')
    · exact absurd heq (hused hj')
    · exact hcasts.distinct j k c v w hj' hk'
  · intro c made hmade
    rw [h.inst_eq hinst] at hmade
    split at hmade
    · next heq => exact .inl (heq ▸ Graph.inst_lt hfi)
    · split at hmade
      · next heq => exact .inr ⟨i, _, addCast_eq_some.2 (.inl ⟨rfl, heq, rfl⟩)⟩
      · exact (hcasts.madeInsts c made hmade).imp_right fun ⟨j, v, hc⟩ => ⟨j, v, hkept hc⟩
  · intro v hv
    by_cases heq : v = s.func.graph.nextValue
    · exact .inr ⟨i, _, addCast_eq_some.2 (.inl ⟨rfl, rfl, heq⟩)⟩
    · obtain ⟨val, hval⟩ := hv.exists_value
      rw [h.value_eq, if_neg heq] at hval
      exact (hcasts.madeValues v (Graph.has_of_value hval)).imp_right
        fun ⟨j, c, hc⟩ => ⟨j, c, hkept hc⟩

/-- What patching has done when the instructions `done` have had their turns. -/
structure Progress (config : Config) (id : FuncId) (s₀ : Patching) (done : List InstId)
    (cast : InstId → Option (InstId × ValueId)) (s : Patching) : Prop where
  sound : s.func.layout.Sound
  casts : s₀.func.CastsBefore config id s.map cast s.func
  turns : ∀ i c, cast i = some c → i ∈ done
  settled : ∀ i ∈ done, cast i = none →
    ∃ inst, s₀.func.graph.inst i = .ok inst ∧ inst.Settled (s.reading id)
  grows : (s₀.reading id).Extends (s.reading id)
  known : ∀ v d, s.map.get? (.value id v) = some d → s.func.graph.Has v
  adds : AddsValues [id] s₀.map s.map
  new : ∀ key d, s.map.get? key = some d →
    s₀.map.get? key = some d ∨ ∃ i c v, cast i = some (c, v) ∧ key = .value id v
  frame : s.map.signatures = s₀.map.signatures ∧ s.map.contents = s₀.map.contents
  count : s₀.patched ≤ s.patched ∧ (s₀.patched < s.patched ↔ ∃ i c, cast i = some c)

theorem Progress.start (config : Config) (hs : s.func.layout.Sound)
    (hknown : ∀ v d, s.map.get? (.value id v) = some d → s.func.graph.Has v) :
    Progress config id s [] (fun _ => none) s where
  sound := hs
  casts := .refl config id s.map s.func
  turns _ _ h := nomatch h
  settled _ h := absurd h List.not_mem_nil
  grows := .refl _
  known := hknown
  adds := .refl _ _
  new _ _ h := .inl h
  frame := ⟨rfl, rfl⟩
  count := ⟨Nat.le_refl _, by simp⟩

namespace Progress

variable {done : List InstId}

/-- An instruction that waits for its turn is what it was. -/
theorem inst_eq (h : Progress config id s₀ done cast s) (hi : i ∈ s₀.func.insts) (hdone : i ∉ done)
    (hinst : s.func.graph.inst i = .ok inst) :
    cast i = none ∧ s₀.func.graph.inst i = .ok inst := by
  have hnone : cast i = none := Option.eq_none_iff_forall_ne_some.2 fun c hc =>
    hdone (h.turns i c hc)
  refine ⟨hnone, ?_⟩
  rcases h.casts.madeInsts i inst hinst with hlt | ⟨j, v, hc⟩
  · obtain ⟨old, hold⟩ := Graph.exists_inst hlt
    cases (h.casts.insts i old hold hnone).symm.trans hinst
    exact hold
  · exact absurd hi (h.casts.casts j i v hc).notPlaced

/-- A turn that changes nothing. -/
theorem skip (h : Progress config id s₀ done cast s) (hi : s₀.func.graph.inst i = .ok inst)
    (hsettled : inst.Settled (s.reading id)) :
    Progress config id s₀ (done ++ [i]) cast s := by
  refine { h with turns := ?_, settled := ?_ }
  · exact fun j c hc => List.mem_append_left _ (h.turns j c hc)
  · intro j hj hnone
    rcases List.mem_append.1 hj with hj | hj
    · exact h.settled j hj hnone
    · obtain rfl := List.mem_singleton.1 hj
      exact ⟨inst, hi, hsettled⟩

/-- A turn that casts. -/
theorem turn (h : Progress config id s₀ done cast s) (hs₀ : s₀.func.layout.Sound)
    (hi : i ∈ s₀.func.insts) (hnone : cast i = none) (hinst : s₀.func.graph.inst i = .ok inst)
    (hmismatch : inst.Mismatch (s.reading id) slot ptr space)
    (hcasts : Casts config id s i inst slot ptr space t) :
    Progress config id s₀ (done ++ [i])
      (addCast cast i s.func.graph.nextInst s.func.graph.nextValue) t := by
  have hunknown : s.map.get? (.value id s.func.graph.nextValue) = none :=
    Option.eq_none_iff_forall_ne_some.2 fun d hd => Nat.lt_irrefl _ (h.known _ d hd)
  have hget := hcasts.get?_eq hunknown
  have hadded : addCast cast i s.func.graph.nextInst s.func.graph.nextValue i =
      some (s.func.graph.nextInst, s.func.graph.nextValue) := if_pos rfl
  obtain ⟨hsound, hbefore⟩ := hcasts.castsBefore h.casts hs₀ hi hnone hinst hmismatch hunknown
  refine ⟨hsound, hbefore, fun j cv hc => ?_, fun j hj hc => ?_, h.grows.trans hcasts.extends,
    fun v d hd => ?_, h.adds.trans (hcasts.map ▸ .insert id s.map _ _), fun key d hd => ?_, ?_, ?_⟩
  · obtain ⟨c, v⟩ := cv
    rcases addCast_eq_some.1 hc with ⟨rfl, -⟩ | ⟨-, hc⟩
    · exact List.mem_append_right _ (List.mem_singleton_self j)
    · exact List.mem_append_left _ (h.turns j _ hc)
  · obtain ⟨hji, hc⟩ := addCast_eq_none.1 hc
    obtain ⟨old, hold, hsettled⟩ := h.settled j (by simpa [hji] using hj) hc
    exact ⟨old, hold, hsettled.extends hcasts.extends⟩
  · rw [hget] at hd
    split at hd
    · next heq =>
        cases heq
        exact Graph.has_of_value ((hcasts.value_eq _).trans (if_pos rfl))
    · exact hcasts.extends.values.has (h.known v d hd)
  · rw [hget] at hd
    split at hd
    · next heq => exact .inr ⟨i, _, _, hadded, heq⟩
    · refine (h.new key d hd).imp_right fun ⟨j, c, v, hc, hkey⟩ => ⟨j, c, v, ?_, hkey⟩
      refine addCast_eq_some.2 (.inr ⟨?_, hc⟩)
      rintro rfl
      cases hnone.symm.trans hc
  · rw [hcasts.map]
    exact ⟨(insert_frame ..).1.trans h.frame.1, (insert_frame ..).2.trans h.frame.2⟩
  · rw [hcasts.patched]
    have hle := h.count.1
    exact ⟨by omega, fun _ => ⟨i, _, hadded⟩, fun _ => by omega⟩

end Progress

/-- Patching gives every instruction its turn. -/
theorem patchFunction_progress (hs : s.func.layout.Sound)
    (hknown : ∀ v d, s.map.get? (.value id v) = some d → s.func.graph.Has v)
    (h : s.patchFunction config id = .ok t) :
    ∃ cast, Progress config id s s.func.insts cast t := by
  refine foldlM_rounds (P := fun done t => ∃ cast, Progress config id s done cast t) ?_
    ⟨_, .start config hs hknown⟩ h
  rintro done i rest u u' hsplit ⟨cast, hu⟩ hturn
  have hi : i ∈ s.func.insts := by simp [hsplit]
  have hdone : i ∉ done := by
    have hnodup := hs.nodup_allInsts
    rw [show s.func.layout.allInsts = done ++ i :: rest from hsplit] at hnodup
    exact fun hmem => (List.nodup_append.1 hnodup).2.2 i hmem i List.mem_cons_self rfl
  obtain ⟨inst, hinst, ⟨rfl, hsettled⟩ | ⟨slot, ptr, space, hmismatch, hcast⟩⟩ :=
    patchInst_eq_ok hturn
  · exact ⟨cast, hu.skip (hu.inst_eq hi hdone hinst).2 hsettled⟩
  · obtain ⟨hnone, hold⟩ := hu.inst_eq hi hdone hinst
    exact ⟨_, hu.turn hs hi hnone hold hmismatch (castPointer_casts hu.sound hinst hcast)⟩

end Patching

/-! ## Exactness -/

namespace Function

variable {config : Config} {id : FuncId} {map map' map₁ map₂ : PtrMap} {f f' : Function}
  {cast : InstId → Option (InstId × ValueId)}

/-- `f'` is `f` with casts, and the instructions that got none need none. -/
structure Settles (config : Config) (id : FuncId) (map map' : PtrMap)
    (cast : InstId → Option (InstId × ValueId)) (f f' : Function) : Prop
    extends CastsBefore config id map' cast f f' where
  settled : ∀ i ∈ f.insts, cast i = none →
    ∃ inst, f.graph.inst i = .ok inst ∧ inst.Settled ⟨id, f'.graph, map'⟩
  grows : Reading.Extends ⟨id, f.graph, map⟩ ⟨id, f'.graph, map'⟩

/-- What becomes of other functions before and after is no matter. -/
theorem Settles.extends (h : f.Settles config id map₁ map₂ cast f')
    (hstart : Reading.Extends ⟨id, f.graph, map⟩ ⟨id, f.graph, map₁⟩)
    (hend : Reading.Extends ⟨id, f'.graph, map₂⟩ ⟨id, f'.graph, map'⟩) :
    f.Settles config id map map' cast f' where
  toCastsBefore := h.toCastsBefore.extends hend
  settled i hi hnone := by
    obtain ⟨inst, hinst, hsettled⟩ := h.settled i hi hnone
    exact ⟨inst, hinst, hsettled.extends hend⟩
  grows := (hstart.trans h.grows).trans hend

/-- `f'` is `f` with a cast before each access that disagrees with the map, and before no other
instruction. What disagrees may be read at the end or, if the operands exist then, at the start. At
the end, every pointer that memory is accessed through has a descriptor. -/
structure PatchedExactly (config : Config) (id : FuncId) (map map' : PtrMap)
    (cast : InstId → Option (InstId × ValueId)) (f f' : Function) : Prop
    extends CastsBefore config id map' cast f f' where
  cast_iff : ∀ i ∈ f.insts, ∃ inst, f.graph.inst i = .ok inst ∧
    ((cast i).isSome = true ↔
      ∃ slot ptr space, inst.Mismatch ⟨id, f'.graph, map'⟩ slot ptr space) ∧
    ((∀ v ∈ inst.operands, f.graph.Has v) → ((cast i).isSome = true ↔
      ∃ slot ptr space, inst.Mismatch ⟨id, f.graph, map⟩ slot ptr space))
  described : ∀ i ∈ f'.insts, ∀ inst slot ptr elem space, f'.graph.inst i = .ok inst →
    inst.Accesses f'.graph slot ptr elem → f'.graph.typeOf ptr = .ok (.ptr space) →
    ∃ d, map'.ofValue? id f'.graph ptr = .ok (some d)

theorem Settles.cast_iff (h : f.Settles config id map map' cast f') {i : InstId}
    (hi : i ∈ f.insts) : ∃ inst, f.graph.inst i = .ok inst ∧
      ((cast i).isSome = true ↔
        ∃ slot ptr space, inst.Mismatch ⟨id, f'.graph, map'⟩ slot ptr space) ∧
      ((∀ v ∈ inst.operands, f.graph.Has v) → ((cast i).isSome = true ↔
        ∃ slot ptr space, inst.Mismatch ⟨id, f.graph, map⟩ slot ptr space)) := by
  cases hc : cast i with
  | none =>
      obtain ⟨inst, hinst, hsettled⟩ := h.settled i hi hc
      refine ⟨inst, hinst, iff_of_false (by simp) ?_, fun _ => iff_of_false (by simp) ?_⟩
      · exact fun ⟨_, _, _, hmismatch⟩ => hsettled.not_mismatch hmismatch
      · exact fun ⟨_, _, _, hmismatch⟩ => hsettled.not_mismatch (hmismatch.extends h.grows)
  | some cv =>
      obtain ⟨inst, slot, ptr, space, hinst, hmismatch, -⟩ := (h.casts i cv.1 cv.2 hc).site
      refine ⟨inst, hinst, iff_of_true rfl ⟨slot, ptr, space, hmismatch⟩, fun hhas => ?_⟩
      exact iff_of_true rfl ⟨slot, ptr, space, hmismatch.of_extends h.grows hhas⟩

theorem Settles.described (h : f.Settles config id map map' cast f') {i : InstId}
    (hi : i ∈ f'.insts) {inst : Inst} {slot : Nat} {ptr : ValueId} {elem : Ty} {space : AddrSpace}
    (hinst : f'.graph.inst i = .ok inst) (haccess : inst.Accesses f'.graph slot ptr elem)
    (hty : f'.graph.typeOf ptr = .ok (.ptr space)) :
    ∃ d, map'.ofValue? id f'.graph ptr = .ok (some d) := by
  obtain ⟨b, hb, hi⟩ := List.mem_flatMap.1 hi
  rw [h.rows] at hi
  obtain ⟨j, hj, rfl | ⟨v, hc⟩⟩ := mem_withCasts.1 hi
  · cases hc : cast i with
    | none =>
        obtain ⟨old, hold, hsettled⟩ :=
          h.settled i (List.mem_flatMap.2 ⟨b, h.blocks ▸ hb, hj⟩) hc
        cases (h.insts i old hold hc).symm.trans hinst
        cases hsettled with
        | idle hnone => cases hnone.symm.trans haccess.pointerSlot.1
        | number haccess' hty' hspace =>
            obtain ⟨-, rfl, -⟩ := haccess.unique haccess'
            cases hty.symm.trans hty'
            cases hspace
        | @known _ _ d haccess' hd =>
            obtain ⟨-, rfl, -⟩ := haccess.unique haccess'
            exact ⟨d, hd⟩
    | some cv =>
        obtain ⟨old, slot', ptr', space', -, ⟨elem', haccess', -⟩, hi', -, hv, hd⟩ :=
          (h.casts i cv.1 cv.2 hc).site
        cases hi'.symm.trans hinst
        obtain ⟨-, rfl, -⟩ := haccess.unique (haccess'.setOperand cv.2)
        refine ⟨config.fallbackIn space', ?_⟩
        rw [← hd]
        exact Reading.descriptor?_result (r := ⟨id, f'.graph, map'⟩) hv
  · -- A cast accesses no memory.
    obtain ⟨_, _, _, _, -, -, -, hmarker, -⟩ := (h.casts j i v hc).site
    cases hmarker.symm.trans hinst
    cases haccess

theorem Settles.patchedExactly (h : f.Settles config id map map' cast f') :
    f.PatchedExactly config id map map' cast f' where
  toCastsBefore := h.toCastsBefore
  cast_iff _ hi := h.cast_iff hi
  described _ hi _ _ _ _ _ hinst haccess hty := h.described hi hinst haccess hty

end Function

/-! ## All functions -/

namespace Module

variable {m m' m₁ : Module} {config : Config} {map map' map₁ : PtrMap} {n : Nat}
  {cast : FuncId → InstId → Option (InstId × ValueId)} {done : List FuncId}

/-- What patching has done to a module when the functions `done` have had their turns. -/
structure PatchRun (m : Module) (config : Config) (map : PtrMap) (done : List FuncId)
    (cast : FuncId → InstId → Option (InstId × ValueId)) (map₁ : PtrMap) (n : Nat) (m₁ : Module) :
    Prop where
  ctx : m₁.ctx = m.ctx
  size : m₁.funcs.size = m.funcs.size
  turns : ∀ id i c, cast id i = some c → id ∈ done
  waiting : ∀ id f, m.func id = .ok f → id ∉ done → m₁.func id = .ok f
  settles : ∀ id f, m.func id = .ok f → id ∈ done →
    ∃ f', m₁.func id = .ok f' ∧ f.Settles config id map map₁ (cast id) f'
  kept : ∀ key d, map.get? key = some d → map₁.get? key = some d
  new : ∀ key d, map₁.get? key = some d →
    map.get? key = some d ∨ ∃ id i c v, cast id i = some (c, v) ∧ key = .value id v
  frame : map₁.signatures = map.signatures ∧ map₁.contents = map.contents
  count : 0 < n ↔ ∃ id i c, cast id i = some c

theorem PatchRun.start (m : Module) (config : Config) (map : PtrMap) :
    m.PatchRun config map [] (fun _ _ => none) map 0 m where
  ctx := rfl
  size := rfl
  turns _ _ _ h := nomatch h
  waiting _ _ hf _ := hf
  settles _ _ _ h := absurd h List.not_mem_nil
  kept _ _ h := h
  new _ _ h := .inl h
  frame := ⟨rfl, rfl⟩
  count := by simp

/-- What is recorded of one function is no matter for another. -/
theorem extends_of_adds {id id' : FuncId} (h : AddsValues [id] map map') (hne : id' ≠ id)
    (g : Graph) : Reading.Extends ⟨id', g, map⟩ ⟨id', g, map'⟩ := by
  refine ⟨rfl, .refl g, fun key hkey => h.frame key fun id₁ hid₁ v heq => hne ?_⟩
  rw [← List.mem_singleton.1 hid₁]
  exact (hkey id₁ v heq).1.symm

/-- Of a function that waits for its turn, nothing new is known. -/
theorem PatchRun.waiting_extends {id : FuncId} (h : m.PatchRun config map done cast map₁ n m₁)
    (hid : id ∉ done) (g : Graph) : Reading.Extends ⟨id, g, map⟩ ⟨id, g, map₁⟩ := by
  refine ⟨rfl, .refl g, fun key hkey => ?_⟩
  show map₁.get? key = map.get? key
  cases hd : map₁.get? key with
  | none =>
      refine (Option.eq_none_iff_forall_ne_some.2 fun d hd' => ?_).symm
      cases hd.symm.trans (h.kept key d hd')
  | some d =>
      rcases h.new key d hd with hd | ⟨id', i, c, v, hc, heq⟩
      · exact hd.symm
      · obtain ⟨rfl, -⟩ := hkey id' v heq
        exact absurd (h.turns id' i _ hc) hid

/-- A function has its turn. -/
theorem PatchRun.turn {id : FuncId} {f : Function} {s : Patching}
    (h : m.PatchRun config map done cast map₁ n m₁) (hid : id ∉ done) (hf : m.func id = .ok f)
    (hsound : f.layout.Sound)
    (hmade : ∀ v d, map.get? (.value id v) = some d → f.graph.Has v)
    (hrun : Patching.patchFunction config id ⟨f, map₁, n⟩ = .ok s) :
    ∃ cast, m.PatchRun config map (done ++ [id]) cast s.map s.patched (m₁.setFunc id s.func) := by
  have hknown : ∀ v d, map₁.get? (.value id v) = some d → f.graph.Has v := by
    intro v d hd
    rcases h.new _ d hd with hd | ⟨id', i, c, w, hc, heq⟩
    · exact hmade v d hd
    · cases heq
      exact absurd (h.turns id i _ hc) hid
  obtain ⟨castId, hp⟩ := Patching.patchFunction_progress hsound hknown hrun
  have hlt : id.index < m₁.funcs.size :=
    h.size.symm ▸ (Array.getElem?_eq_some_iff.1 (func_eq_ok.1 hf)).1
  have hown : ∀ {i c}, castId i = some c → (if id = id then castId else cast id) i = some c :=
    fun hc => by rwa [if_pos rfl]
  have hothers : ∀ {id' i c}, cast id' i = some c →
      (if id' = id then castId else cast id') i = some c := fun {id' i c} hc => by
    rwa [if_neg fun heq : id' = id => hid (heq ▸ h.turns id' i c hc)]
  refine ⟨fun id' => if id' = id then castId else cast id', h.ctx,
    (Array.size_setIfInBounds ..).trans h.size, fun id' i c hc => ?_, fun id' g hg hid' => ?_,
    fun id' g hg hid' => ?_, fun key d hd => hp.adds.kept key d (h.kept key d hd),
    fun key d hd => ?_, ⟨hp.frame.1.trans h.frame.1, hp.frame.2.trans h.frame.2⟩, ?_⟩
  · split at hc
    · next heq => exact List.mem_append_right _ (List.mem_singleton.2 heq)
    · exact List.mem_append_left _ (h.turns id' i c hc)
  · rw [List.mem_append, not_or, List.mem_singleton] at hid'
    rw [func_setFunc hlt, if_neg hid'.2]
    exact h.waiting id' g hg hid'.1
  · rw [func_setFunc hlt]
    by_cases heq : id' = id
    · subst heq
      cases hf.symm.trans hg
      rw [if_pos rfl, if_pos rfl]
      exact ⟨s.func, rfl, hp.casts, hp.settled, (h.waiting_extends hid f.graph).trans hp.grows⟩
    · rw [if_neg heq, if_neg heq]
      have hmem : id' ∈ done := by simpa [heq] using hid'
      obtain ⟨g', hg', hsettles⟩ := h.settles id' g hg hmem
      exact ⟨g', hg', hsettles.extends (.refl _) (extends_of_adds hp.adds heq g'.graph)⟩
  · rcases hp.new key d hd with hd | ⟨i, c, v, hc, hkey⟩
    · exact (h.new key d hd).imp_right
        fun ⟨id', i, c, v, hc, hkey⟩ => ⟨id', i, c, v, hothers hc, hkey⟩
    · exact .inr ⟨id, i, c, v, hown hc, hkey⟩
  · obtain ⟨hle, hcount⟩ := hp.count
    constructor
    · intro hpos
      by_cases hn : 0 < n
      · obtain ⟨id', i, c, hc⟩ := h.count.1 hn
        exact ⟨id', i, c, hothers hc⟩
      · obtain ⟨i, c, hc⟩ := hcount.1 (Nat.lt_of_le_of_lt (Nat.not_lt.1 hn) hpos)
        exact ⟨id, i, c, hown hc⟩
    · rintro ⟨id', i, c, hc⟩
      split at hc
      · exact Nat.lt_of_le_of_lt (Nat.zero_le n) (hcount.2 ⟨i, c, hc⟩)
      · exact Nat.lt_of_lt_of_le (h.count.2 ⟨id', i, c, hc⟩) hle

/-- Patching gives every function its turn. -/
theorem patch_run {changed : Bool}
    (hlayouts : ∀ id f, m.func id = .ok f → f.layout.Sound)
    (hmade : ∀ id f, m.func id = .ok f → ∀ v d, map.get? (.value id v) = some d → f.graph.Has v)
    (h : m.patch config map = .ok (changed, map', m')) :
    ∃ cast n, m.PatchRun config map m.funcIds cast map' n m' ∧ (changed = true ↔ 0 < n) := by
  obtain ⟨⟨map₁, n, m₁⟩, hloop, hrest⟩ := bind_eq_ok_iff.1 h
  cases pure_eq_ok_iff.1 hrest
  have hrun : ∃ cast, m.PatchRun config map (m.funcList.map Prod.fst) cast map' n m' := by
    refine foldlM_rounds (P := fun done (state : PtrMap × Nat × Module) => ∃ cast,
      m.PatchRun config map (done.map Prod.fst) cast state.1 state.2.1 state.2.2)
      (s := (map, 0, m)) ?_ ⟨_, .start m config map⟩ hloop
    rintro done ⟨id, f⟩ rest ⟨map₁, n₁, m₁⟩ ⟨map₂, n₂, m₂⟩ hsplit ⟨cast, hrun⟩ hround
    obtain ⟨s, hs, hrest⟩ := bind_eq_ok_iff.1 hround
    cases pure_eq_ok_iff.1 hrest
    have hf : m.func id = .ok f := mem_funcList.1 (by simp [hsplit])
    have hid : id ∉ done.map Prod.fst := by
      have hnodup := m.nodup_funcIds
      rw [← map_fst_funcList, hsplit, List.map_append, List.map_cons] at hnodup
      exact fun hmem => (List.nodup_append.1 hnodup).2.2 id hmem id List.mem_cons_self rfl
    rw [List.map_append]
    exact hrun.turn hid hf (hlayouts id f hf) (hmade id f hf) hs
  obtain ⟨cast, hrun⟩ := hrun
  rw [map_fst_funcList] at hrun
  exact ⟨cast, n, hrun, decide_eq_true_iff⟩

/-- Patching puts a cast directly before each access that disagrees with the map, and the access
goes through the value of the cast, which is recorded with the fallback pointee. Nothing else is
made, changed or recorded. The outcome says whether there was such an access. At the end, every
pointer that memory is accessed through has a descriptor. -/
theorem patching_is_exact {changed : Bool}
    (hlayouts : ∀ id f, m.func id = .ok f → f.layout.Reached)
    (hmade : ∀ id f, m.func id = .ok f → ∀ v d, map.get? (.value id v) = some d → f.graph.Has v)
    (h : m.patch config map = .ok (changed, map', m')) :
    ∃ cast : FuncId → InstId → Option (InstId × ValueId),
      m'.ctx = m.ctx ∧ m'.funcs.size = m.funcs.size ∧
      (∀ id f, m.func id = .ok f →
        ∃ f', m'.func id = .ok f' ∧ f.PatchedExactly config id map map' (cast id) f') ∧
      (∀ key d, map.get? key = some d → map'.get? key = some d) ∧
      (∀ key d, map'.get? key = some d → map.get? key = some d ∨
        ∃ id i c v, cast id i = some (c, v) ∧ key = .value id v) ∧
      map'.signatures = map.signatures ∧ map'.contents = map.contents ∧
      (changed = true ↔ ∃ id f i c, m.func id = .ok f ∧ cast id i = some c) := by
  obtain ⟨cast, n, hrun, hchanged⟩ :=
    patch_run (fun id f hf => (hlayouts id f hf).sound) hmade h
  refine ⟨cast, hrun.ctx, hrun.size, fun id f hf => ?_, hrun.kept, hrun.new, hrun.frame.1,
    hrun.frame.2, hchanged.trans (hrun.count.trans ?_)⟩
  · obtain ⟨f', hf', hsettles⟩ := hrun.settles id f hf (mem_funcIds hf)
    exact ⟨f', hf', hsettles.patchedExactly⟩
  · constructor
    · rintro ⟨id, i, c, hc⟩
      obtain ⟨f, hf⟩ := exists_func_of_mem (hrun.turns id i c hc)
      exact ⟨id, f, i, c, hf, hc⟩
    · rintro ⟨id, f, i, c, -, hc⟩
      exact ⟨id, i, c, hc⟩

/-- A number is read through an argument, and then the argument is stored where it points to. -/
def storesAtItself : Except Fault Module :=
  ofInsts ⟨.air64, .bitcode, .v7⟩ ⟨"f", .exported, [.genericPtr], .unit, none⟩
    [.load ⟨0⟩ .i32, .store ⟨0⟩ ⟨0⟩, .ret none]

/-- If the argument is known to point to a number, only the store is patched, and only its second
operand. -/
theorem patching_is_exact_storesAtItself :
    ∃ m map m' map' f f' cast, storesAtItself = .ok m ∧
      map = PtrMap.empty.insert (.value ⟨0⟩ ⟨0⟩) ⟨.i32, .generic⟩ ∧
      m.patch (.ofStrategy .analytical) map = .ok (true, map', m') ∧
      m.func ⟨0⟩ = .ok f ∧ m'.func ⟨0⟩ = .ok f' ∧
      f.PatchedExactly (.ofStrategy .analytical) ⟨0⟩ map map' cast f' ∧
      f'.insts = [⟨0⟩, ⟨3⟩, ⟨1⟩, ⟨2⟩] ∧ f'.graph.inst ⟨1⟩ = .ok (.store ⟨0⟩ ⟨2⟩) := by
  have hrun : succeeds storesAtItself (fun m =>
      succeeds (m.func ⟨0⟩) fun f => f.graph.values.size = 2 &&
        succeeds (m.patch (.ofStrategy .analytical)
          (PtrMap.empty.insert (.value ⟨0⟩ ⟨0⟩) ⟨.i32, .generic⟩)) fun out =>
            out.1 && succeeds (out.2.2.func ⟨0⟩) fun f' => f'.insts = [⟨0⟩, ⟨3⟩, ⟨1⟩, ⟨2⟩] &&
              succeeds (f'.graph.inst ⟨1⟩) fun inst => inst = .store ⟨0⟩ ⟨2⟩) = true := by
    decide +kernel
  obtain ⟨m, hm, hrun⟩ := exists_of_succeeds hrun
  obtain ⟨f, hf, hrun⟩ := exists_of_succeeds hrun
  rw [Bool.and_eq_true, decide_eq_true_eq] at hrun
  obtain ⟨hsize, hrun⟩ := hrun
  obtain ⟨⟨changed, map', m'⟩, hpatch, hrun⟩ := exists_of_succeeds hrun
  rw [Bool.and_eq_true] at hrun
  obtain ⟨rfl, hrun⟩ := hrun
  obtain ⟨f', hf', hrun⟩ := exists_of_succeeds hrun
  rw [Bool.and_eq_true, decide_eq_true_eq] at hrun
  obtain ⟨hinsts, hrun⟩ := hrun
  obtain ⟨inst, hinst, hrun⟩ := exists_of_succeeds hrun
  rw [decide_eq_true_eq] at hrun
  subst hrun
  have hmade : ∀ id g, m.func id = .ok g → ∀ v d,
      (PtrMap.empty.insert (.value ⟨0⟩ ⟨0⟩) ⟨.i32, .generic⟩).get? (.value id v) = some d →
        g.graph.Has v := by
    intro id g hg v d hd
    rw [get?_insert] at hd
    split at hd
    · next heq =>
        cases heq
        cases hf.symm.trans hg
        exact Nat.lt_of_lt_of_eq Nat.zero_lt_two hsize.symm
    · cases hd
  obtain ⟨cast, -, -, hfuncs, -⟩ := patching_is_exact
    (fun id g hg => (built_of_ofItems hm).reached hg) hmade hpatch
  obtain ⟨f'', hf'', hexact⟩ := hfuncs ⟨0⟩ f hf
  cases hf'.symm.trans hf''
  exact ⟨m, _, m', map', f, f', cast ⟨0⟩, hm, rfl, hpatch, hf, hf', hexact, hinsts, hinst⟩

end Module

end Pointee
