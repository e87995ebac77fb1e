import Pointee.Proofs.GraphConsistency
import Pointee.Proofs.LocationWalks

/-!
# Runs of insertions before an instruction

A pass that needs several new instructions before `u` asks once for the location before `u` and then
goes on behind each instruction that it has put there. No step of this puts anything directly before
`u` by name: the first one lands behind the neighbour of `u` or at the top of its block, and the
others behind one another. `Layout.run_before_is_insertBefore` says that the layout is nevertheless
the one that `Layout.insertBefore` makes, down to the last link. The argument is one step: an
insertion at the location before `u` is an insertion before `u`, and the location of the instruction
that it puts there is the location before `u` in the layout that it makes.
-/

namespace Pointee

/-! ## Writes to different rows -/

namespace Table

variable {α : Type} [Inhabited α]

/-- A table is known by its size and its rows. -/
theorem ext_get {t t' : Table α} (hsize : t.size = t'.size) (hget : ∀ i, t.get i = t'.get i) :
    t = t' := by
  obtain ⟨rows⟩ := t
  obtain ⟨rows'⟩ := t'
  refine congrArg Table.mk (Array.ext hsize fun i hi hi' => ?_)
  simpa [get, hi, hi'] using hget i

theorem modify_comm (t : Table α) {i j : Nat} (hij : i ≠ j) (f g : α → α) :
    (t.modify i f).modify j g = (t.modify j g).modify i f := by
  refine ext_get ?_ fun k => ?_
  · simp only [modify, size_set]
    omega
  · simp only [get_modify]
    by_cases hi : i = k
    · have hj : j ≠ k := fun hj => hij (hi.trans hj.symm)
      simp [hi, hj]
    · simp [hi]

end Table

namespace Layout

theorem modifyInst_comm (l : Layout) {i j : InstId} (hij : i ≠ j) (f g : InstNode → InstNode) :
    (l.modifyInst i f).modifyInst j g = (l.modifyInst j g).modifyInst i f := by
  simp only [modifyInst, Table.modify_comm l.insts (fun h => hij (InstId.ext h)) f g]

/-! ## One step -/

/-- Seen from what stands behind it, the new instruction is the last one before. -/
theorem Inserts.row_after_snoc {l l' : Layout} {b : BlockId} {front back : List InstId} {i : InstId}
    (h : l.Inserts b front i back l') : l'.instsOf b = (front ++ [i]) ++ back := by
  simpa using h.row_after

namespace Sound

variable {l l' : Layout} {b : BlockId} {front back : List InstId} {i u : InstId} {loc : Location}

/-- An insertion at the location before `u` writes the links that an insertion before `u` writes. -/
theorem insertAt_before (hl : l.Sound) (hrow : l.instsOf b = front ++ u :: back)
    (hloc : Location.before l u = .ok loc) (i : InstId) :
    l.insertAt i loc = l.insertBefore i u := by
  have hu : u ∈ l.instsOf b := by rw [hrow]; simp
  have hplaced : l.instInserted u = true := hl.instInserted_iff.2 ⟨b, hu⟩
  have hloc : front.getLast?.elim (.top b) .inst = loc :=
    Except.ok.inj ((hl.prev_inst hrow).symm.trans hloc)
  cases hfront : front.getLast? with
  | none =>
      -- `u` is the first of its block: what goes to the top goes before it.
      obtain rfl : front = [] := by simpa using hfront
      obtain rfl : Location.top b = loc := hloc
      have hblock : l.blockInserted b = true := hl.blockInserted_iff.2 (hl.mem_order hu)
      have hfirst : (l.blockNode b).first = some u := by rw [hl.first_inst, hrow]; rfl
      simp only [Layout.insertAt, Layout.prependInst, Layout.insertBefore, hblock, hplaced, hfirst,
        hl.blockOf_eq hu, hl.links hrow]
      rfl
  | some j =>
      obtain ⟨start, rfl⟩ := List.getLast?_eq_some_iff.1 hfront
      obtain rfl : Location.inst j = loc := by simpa using hloc
      have hrow' : l.instsOf b = start ++ j :: u :: back := by simpa using hrow
      have hj : j ∈ l.instsOf b := by rw [hrow']; simp
      have hne : u ≠ j := by
        rintro rfl
        have hnodup := hl.nodup b
        rw [hrow'] at hnodup
        simp [List.nodup_append] at hnodup
      -- Both write the nodes of `j` and `u`, but not in the same order.
      simp only [Layout.insertAt, Layout.insertAfter, Layout.insertBefore, hplaced,
        hl.instInserted_iff.2 ⟨b, hj⟩, hl.blockOf_eq hu, hl.blockOf_eq hj, hl.links hrow,
        hl.links hrow', List.getLast?_concat, List.head?_cons, l.modifyInst_comm hne]

/-- What an insertion before `u` makes, and where the next one goes. -/
theorem insertBefore_step (hl : l.Sound) (hrow : l.instsOf b = front ++ u :: back)
    (h : l.insertBefore i u = .ok l') :
    l.Inserts b front i (u :: back) l' ∧ Location.before l' u = .ok (.inst i) := by
  have hfresh : ∀ c, i ∉ l.instsOf c := by
    intro c hc
    rw [Layout.insertBefore, hl.instInserted_iff.2 ⟨c, hc⟩, Bool.or_true] at h
    cases h
  obtain ⟨l₁, hl₁, hins⟩ := hl.insertBefore hrow hfresh
  cases h.symm.trans hl₁
  refine ⟨hins, ?_⟩
  rw [Location.before, hins.sound.prev_inst hins.row_after_snoc, List.getLast?_concat]
  rfl

end Sound

/-! ## Runs in a layout -/

/-- `l'` is `l` with the new instructions `is` between `front` and `back` in block `b`. -/
structure InsertsAll (l : Layout) (b : BlockId) (front is back : List InstId) (l' : Layout) :
    Prop where
  sound : l'.Sound
  blockOrder_eq : l'.blockOrder = l.blockOrder
  instsOf_eq : ∀ c, l'.instsOf c = if b = c then front ++ is ++ back else l.instsOf c

namespace InsertsAll

variable {l l₁ l₂ : Layout} {b : BlockId} {front is back : List InstId} {i : InstId}

theorem nil (hl : l.Sound) (hrow : l.instsOf b = front ++ back) :
    l.InsertsAll b front [] back l := by
  refine ⟨hl, rfl, fun c => ?_⟩
  split
  · next hc => simpa [← hc] using hrow
  · rfl

theorem row (h : l.InsertsAll b front is back l₁) : l₁.instsOf b = (front ++ is) ++ back := by
  rw [h.instsOf_eq, if_pos rfl]

/-- One more instruction goes behind the others. -/
theorem snoc (h : l.InsertsAll b front is back l₁) (hins : l₁.Inserts b (front ++ is) i back l₂) :
    l.InsertsAll b front (is ++ [i]) back l₂ := by
  refine ⟨hins.sound, hins.blockOrder_eq.trans h.blockOrder_eq, fun c => ?_⟩
  rw [hins.instsOf_eq, h.instsOf_eq]
  split
  · simp
  · rfl

/-- An instruction that has a place had it before or is one of the new ones. -/
theorem mem_instsOf (h : l.InsertsAll b front is back l₁) (hrow : l.instsOf b = front ++ back)
    {c : BlockId} (hi : i ∈ l₁.instsOf c) : i ∈ l.instsOf c ∨ i ∈ is := by
  rw [h.instsOf_eq] at hi
  split at hi
  · next hc =>
      subst hc
      rw [hrow]
      simp only [List.mem_append] at hi ⊢
      tauto
  · exact .inl hi

end InsertsAll

/-- Puts instructions into a layout, the first at a location and each other one behind the one
before it. -/
def insertRun (l : Layout) (loc : Location) : List InstId → Except Fault Layout
  | [] => .ok l
  | i :: rest => do (← l.insertAt i loc).insertRun (.inst i) rest

/-- Puts instructions into a layout, each directly before `u`. -/
def insertAllBefore (l : Layout) (u : InstId) (is : List InstId) : Except Fault Layout :=
  is.foldlM (fun l i => l.insertBefore i u) l

namespace Sound

variable {l l' : Layout} {b : BlockId} {front back is : List InstId} {u : InstId} {loc : Location}

/-- A run from the location before `u` is a run of insertions before `u`, also if it ends with a
fault. -/
theorem insertRun_before (hl : l.Sound) (hrow : l.instsOf b = front ++ u :: back)
    (hloc : Location.before l u = .ok loc) (is : List InstId) :
    l.insertRun loc is = l.insertAllBefore u is := by
  induction is generalizing l front loc with
  | nil => rfl
  | cons i rest ih =>
      unfold insertRun insertAllBefore
      rw [hl.insertAt_before hrow hloc, List.foldlM_cons]
      cases hstep : l.insertBefore i u with
      | error fault => rfl
      | ok l' =>
          obtain ⟨hins, hnext⟩ := hl.insertBefore_step hrow hstep
          exact ih hins.sound hins.row_after_snoc hnext

/-- The instructions of a run stand in order directly before `u`, and nothing else has moved. -/
theorem insertsAll_before (hl : l.Sound) (hrow : l.instsOf b = front ++ u :: back)
    (h : l.insertAllBefore u is = .ok l') : l.InsertsAll b front is (u :: back) l' := by
  refine foldlM_rounds (P := fun done l₁ => l.InsertsAll b front done (u :: back) l₁) ?_
    (.nil hl hrow) h
  intro done i rest l₁ l₂ _ hdone hstep
  exact hdone.snoc (hdone.sound.insertBefore_step hdone.row hstep).1

/-- New instructions can be put before an instruction that has a place. -/
theorem insertAllBefore_total (hl : l.Sound) (hrow : l.instsOf b = front ++ u :: back)
    (hnodup : is.Nodup) (hfresh : ∀ i ∈ is, ∀ c, i ∉ l.instsOf c) :
    ∃ l', l.insertAllBefore u is = .ok l' ∧ l.InsertsAll b front is (u :: back) l' := by
  refine foldlM_total (P := fun done l₁ => l.InsertsAll b front done (u :: back) l₁) ?_
    (.nil hl hrow)
  intro done i rest l₁ his hdone
  have hnotDone : i ∉ done := by
    rw [his, List.nodup_middle, List.nodup_cons] at hnodup
    exact fun hi => hnodup.1 (List.mem_append_left _ hi)
  have hi : ∀ c, i ∉ l₁.instsOf c := by
    intro c hc
    rcases hdone.mem_instsOf hrow hc with hc | hc
    · exact hfresh i (by rw [his]; simp) c hc
    · exact hnotDone hc
  obtain ⟨l₂, hl₂, hins⟩ := hdone.sound.insertBefore hdone.row hi
  exact ⟨l₂, hl₂, hdone.snoc hins⟩

end Sound

end Layout

/-! ## Runs in a function -/

namespace Function

/-- Makes an instruction, puts it directly before `u`, and makes the value it defines. -/
def insertBefore (f : Function) (u : InstId) (inst : Inst) :
    Except Fault (Insertion × Function) := do
  let (i, graph) := f.graph.addInst inst
  let layout ← f.layout.insertBefore i u
  let (result, graph) ← graph.addResult i
  return (⟨i, result⟩, { f with graph, layout })

/-- Makes instructions and puts each of them directly before `u`. -/
def insertAllBefore (f : Function) (u : InstId) :
    List Inst → Except Fault (List Insertion × Function)
  | [] => .ok ([], f)
  | inst :: rest => do
      let (ins, f) ← f.insertBefore u inst
      let (done, f) ← f.insertAllBefore u rest
      return (ins :: done, f)

variable {f f' : Function} {u : InstId} {inst : Inst}

theorem insertBefore_eq_ok {ins : Insertion} (h : f.insertBefore u inst = .ok (ins, f')) :
    f.layout.insertBefore ins.inst u = .ok f'.layout := by
  obtain ⟨layout, hlayout, h⟩ := bind_eq_ok_iff.1 h
  obtain ⟨⟨result, graph⟩, -, h⟩ := bind_eq_ok_iff.1 h
  cases pure_eq_ok_iff.1 h
  exact hlayout

/-- The layout gets the instructions that are made, in the order in which they are made. -/
theorem insertAllBefore_layout {insts : List Inst} {done : List Insertion}
    (h : f.insertAllBefore u insts = .ok (done, f')) :
    f.layout.insertAllBefore u (done.map (·.inst)) = .ok f'.layout := by
  induction insts generalizing f done with
  | nil =>
      cases h
      rfl
  | cons inst rest ih =>
      obtain ⟨⟨ins, f₁⟩, hstep, h⟩ := bind_eq_ok_iff.1 h
      obtain ⟨⟨done, f₂⟩, hrest, h⟩ := bind_eq_ok_iff.1 h
      cases pure_eq_ok_iff.1 h
      rw [List.map_cons, Layout.insertAllBefore, List.foldlM_cons]
      exact bind_eq_ok_iff.2 ⟨f₁.layout, insertBefore_eq_ok hstep, ih hrest⟩

/-- Two insertions that do the same to the layout do the same to the function. -/
theorem insert_eq_insertBefore {loc : Location}
    (h : f.layout.insertAt f.graph.nextInst loc = f.layout.insertBefore f.graph.nextInst u) :
    f.insert loc inst = f.insertBefore u inst := by
  have hplace : f.place loc inst = (f.layout.insertBefore f.graph.nextInst u >>= fun layout =>
      pure (f.graph.nextInst, { f with graph := (f.graph.addInst inst).2, layout })) := by
    rw [← h]
    rfl
  rw [insert, hplace, bind_assoc]
  rfl

end Function

namespace Draft

/-- Writes instructions one after another. -/
def insertAll (d : Draft) : List Inst → Except Fault (List Function.Insertion × Draft)
  | [] => .ok ([], d)
  | inst :: rest => do
      let (ins, d) ← d.insert inst
      let (done, d) ← d.insertAll rest
      return (ins :: done, d)

variable {d d' : Draft} {b : BlockId} {front back : List InstId} {u : InstId}

/-- Writing from the location before `u` is inserting before `u`: it gives the same instructions and
values and the same function, or the same fault. -/
theorem insertAll_before (hl : d.func.layout.Sound)
    (hrow : d.func.layout.instsOf b = front ++ u :: back)
    (hloc : Location.before d.func.layout u = .ok d.loc) (insts : List Inst) :
    Prod.map id func <$> d.insertAll insts = d.func.insertAllBefore u insts := by
  induction insts generalizing d front with
  | nil => rfl
  | cons inst rest ih =>
      have hstep : d.func.insert d.loc inst = d.func.insertBefore u inst :=
        Function.insert_eq_insertBefore (hl.insertAt_before hrow hloc _)
      rw [insertAll, Function.insertAllBefore, insert, hstep]
      cases hins : d.func.insertBefore u inst with
      | error fault => rfl
      | ok out =>
          obtain ⟨ins, f'⟩ := out
          obtain ⟨hinserts, hnext⟩ := hl.insertBefore_step hrow (Function.insertBefore_eq_ok hins)
          have hrest := ih (d := { d with func := f', loc := .inst ins.inst }) hinserts.sound
            hinserts.row_after_snoc hnext
          show Prod.map id func <$> (insertAll _ rest >>= fun out => pure (ins :: out.1, out.2)) =
            (f'.insertAllBefore u rest >>= fun out => pure (ins :: out.1, out.2))
          rw [← hrest]
          cases insertAll { d with func := f', loc := .inst ins.inst } rest <;> rfl

end Draft

/-- New instructions that are put at the location before `u`, and then each behind the one before
it, make the layout that inserting each of them before `u` makes. They stand in order directly
before `u`, and nothing else has moved. A draft that writes from there does the same, with the
instructions that it makes. -/
theorem Layout.run_before_is_insertBefore {l : Layout} {u : InstId} (h : l.Reached)
    (hu : l.instInserted u = true) :
    ∃ loc b front back, Location.before l u = .ok loc ∧ l.instsOf b = front ++ u :: back ∧
      (∀ is : List InstId, is.Nodup → (∀ i ∈ is, l.instInserted i = false) →
        ∃ l', l.insertRun loc is = .ok l' ∧ l.insertAllBefore u is = .ok l' ∧
          l'.blockOrder = l.blockOrder ∧
          ∀ c, l'.instsOf c = if b = c then front ++ is ++ u :: back else l.instsOf c) ∧
      ∀ (d : Draft) (insts : List Inst), d.func.layout = l → d.loc = loc →
        Prod.map id Draft.func <$> d.insertAll insts = d.func.insertAllBefore u insts ∧
        ∀ done d', d.insertAll insts = .ok (done, d') →
          l.insertAllBefore u (done.map (·.inst)) = .ok d'.func.layout ∧
          d'.func.layout.instsOf b = front ++ done.map (·.inst) ++ u :: back := by
  have hl := h.sound
  obtain ⟨b, hb⟩ := hl.instInserted_iff.1 hu
  obtain ⟨front, back, hrow⟩ := List.append_of_mem hb
  obtain ⟨loc, hloc, -⟩ := hl.before_splits hrow
  refine ⟨loc, b, front, back, hloc, hrow, fun is hnodup hfresh => ?_, ?_⟩
  · have hfresh : ∀ i ∈ is, ∀ c, i ∉ l.instsOf c := by
      intro i hi c hc
      have hplaced := hl.instInserted_iff.2 ⟨c, hc⟩
      rw [hfresh i hi] at hplaced
      cases hplaced
    obtain ⟨l', hrun, hinserts⟩ := hl.insertAllBefore_total hrow hnodup hfresh
    exact ⟨l', (hl.insertRun_before hrow hloc is).trans hrun, hrun, hinserts.blockOrder_eq,
      hinserts.instsOf_eq⟩
  · rintro d insts rfl rfl
    have hall := Draft.insertAll_before hl hrow hloc insts
    refine ⟨hall, fun done d' hrun => ?_⟩
    have hfunc : d.func.insertAllBefore u insts = .ok (done, d'.func) := by
      rw [← hall, hrun]
      rfl
    have hbefore := Function.insertAllBefore_layout hfunc
    exact ⟨hbefore, (hl.insertsAll_before hrow hbefore).row⟩

/-- The instruction is the first of its block, so the first new one goes to the top. -/
theorem Layout.run_before_is_insertBefore_first : ∃ (l l' : Layout) (d d' : Draft),
    l.Reached ∧ l.instInserted ⟨0⟩ = true ∧ Location.before l ⟨0⟩ = .ok (.top ⟨0⟩) ∧
    l.insertRun (.top ⟨0⟩) [⟨3⟩, ⟨2⟩] = .ok l' ∧ l.insertAllBefore ⟨0⟩ [⟨3⟩, ⟨2⟩] = .ok l' ∧
    l'.instsOf ⟨0⟩ = [⟨3⟩, ⟨2⟩, ⟨0⟩, ⟨1⟩] ∧ d.func.layout = l ∧ d.loc = .top ⟨0⟩ ∧
    d.insertAll [.alloca .i32 .generic, .alloca .i8 .generic] =
      .ok ([⟨⟨2⟩, some ⟨0⟩⟩, ⟨⟨3⟩, some ⟨1⟩⟩], d') ∧
    d'.func.layout.instsOf ⟨0⟩ = [⟨2⟩, ⟨3⟩, ⟨0⟩, ⟨1⟩] := by
  let graph : Graph := ((Graph.empty.addInst (.jump ⟨0⟩)).2.addInst (.jump ⟨0⟩)).2
  have hrun : succeeds ([Edit.appendBlock ⟨0⟩, .appendInst ⟨0⟩ ⟨0⟩, .appendInst ⟨1⟩ ⟨0⟩].foldlM
      edit .empty) (fun l => l.instInserted ⟨0⟩ && l.instsOf ⟨0⟩ = [⟨0⟩, ⟨1⟩] &&
        succeeds (Location.before l ⟨0⟩) (· = .top ⟨0⟩) &&
        [(⟨3⟩ : InstId), ⟨2⟩].all (fun i => !l.instInserted i) &&
        succeeds ((⟨⟨0⟩, ⟨[], graph, l⟩, .top ⟨0⟩⟩ : Draft).insertAll
          [.alloca .i32 .generic, .alloca .i8 .generic])
          (fun out => out.1 = [⟨⟨2⟩, some ⟨0⟩⟩, ⟨⟨3⟩, some ⟨1⟩⟩])) = true := by
    decide +kernel
  obtain ⟨l, hl, hrun⟩ := exists_of_succeeds hrun
  simp only [Bool.and_eq_true, decide_eq_true_eq] at hrun
  obtain ⟨⟨⟨⟨hu, hinsts⟩, hbefore⟩, hfresh⟩, hwrite⟩ := hrun
  obtain ⟨top, htop, heq⟩ := exists_of_succeeds hbefore
  obtain rfl : top = .top ⟨0⟩ := by simpa using heq
  obtain ⟨⟨done, d'⟩, hwrite, heq⟩ := exists_of_succeeds hwrite
  obtain rfl : done = [⟨⟨2⟩, some ⟨0⟩⟩, ⟨⟨3⟩, some ⟨1⟩⟩] := by simpa using heq
  have hreached : l.Reached := ⟨_, hl⟩
  obtain ⟨loc, b, front, back, hloc, hrow, hrun, hdraft⟩ := run_before_is_insertBefore hreached hu
  obtain rfl : loc = .top ⟨0⟩ := Except.ok.inj (hloc.symm.trans htop)
  have hfirst : l.instsOf ⟨0⟩ = [] ++ ⟨0⟩ :: [⟨1⟩] := hinsts
  obtain ⟨rfl, rfl, rfl⟩ := hreached.sound.row_split hfirst hrow
  obtain ⟨l', hrun, hall, -, hrows⟩ := hrun [⟨3⟩, ⟨2⟩] (by decide) (by simpa using hfresh)
  have hdone := ((hdraft _ _ rfl rfl).2 _ d' hwrite).2
  exact ⟨l, l', _, d', hreached, hu, htop, hrun, hall, hrows ⟨0⟩, rfl, rfl, hwrite, hdone⟩

end Pointee
