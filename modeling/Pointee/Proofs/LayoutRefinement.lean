import Pointee.Proofs.LayoutOrder
import Pointee.Proofs.Outcome

/-!
# Layouts refine outlines

An outline is a list of blocks together with the list of instructions of each block. `Layout.Shows`
says that a layout answers every question, and ends every iteration, as an outline does.
`Outline.Edits` says what an edit does to an outline: a block goes behind all others, and an
instruction goes to the named position of a row while everything else stays where it is.
`Layout.edits_refine_outline` relates the two along every sequence of edits.
-/

namespace Pointee

/-- The blocks of a function in order, and the instructions of each of them in order. No block
occurs twice, and no instruction does, be it in one block or in two. -/
structure Outline where
  order : List BlockId
  row : BlockId → List InstId
  order_nodup : order.Nodup
  row_nodup : ∀ b, (row b).Nodup
  row_disjoint : ∀ b c i, i ∈ row b → i ∈ row c → b = c
  row_absent : ∀ b, b ∉ order → row b = []

namespace Outline

variable {o : Outline} {b : BlockId} {i : InstId}

/-- All instructions, block after block. -/
def insts (o : Outline) : List InstId := o.order.flatMap o.row

theorem mem_order (hi : i ∈ o.row b) : b ∈ o.order := by
  by_contra hb
  rw [o.row_absent b hb] at hi
  exact absurd hi List.not_mem_nil

theorem mem_insts : i ∈ o.insts ↔ ∃ b, i ∈ o.row b := by
  unfold insts
  rw [List.mem_flatMap]
  constructor
  · intro ⟨b, _, hi⟩
    exact ⟨b, hi⟩
  · intro ⟨b, hi⟩
    exact ⟨b, mem_order hi, hi⟩

theorem notMem_row (hi : i ∉ o.insts) (b : BlockId) : i ∉ o.row b :=
  fun hb => hi (mem_insts.2 ⟨b, hb⟩)

/-- `o'` is `o` with the instruction `i` between `front` and `back` in block `b`. -/
structure Splices (o : Outline) (b : BlockId) (front : List InstId) (i : InstId)
    (back : List InstId) (o' : Outline) : Prop where
  row_before : o.row b = front ++ back
  row_after : o'.row b = front ++ i :: back
  row_other : ∀ c, c ≠ b → o'.row c = o.row c
  order : o'.order = o.order

end Outline

namespace Layout

/-- One edit of a layout. -/
inductive Edit where
  | appendBlock (b : BlockId)
  | appendInst (i : InstId) (b : BlockId)
  | prependInst (i : InstId) (b : BlockId)
  | insertBefore (i before : InstId)
  | insertAfter (i after : InstId)

/-- Edits a layout. -/
def edit (l : Layout) : Edit → Except Fault Layout
  | .appendBlock b => l.appendBlock b
  | .appendInst i b => l.appendInst i b
  | .prependInst i b => l.prependInst i b
  | .insertBefore i before => l.insertBefore i before
  | .insertAfter i after => l.insertAfter i after

/-- What is inserted has no place yet, and the block or the instruction that it is put next to has
one. -/
def Edit.Allowed (o : Outline) : Edit → Prop
  | .appendBlock b => b ∉ o.order
  | .appendInst i b => b ∈ o.order ∧ i ∉ o.insts
  | .prependInst i b => b ∈ o.order ∧ i ∉ o.insts
  | .insertBefore i before => before ∈ o.insts ∧ i ∉ o.insts
  | .insertAfter i after => after ∈ o.insts ∧ i ∉ o.insts

end Layout

/-- `o'` is what the edit makes of `o`. -/
inductive Outline.Edits (o : Outline) : Layout.Edit → Outline → Prop
  | appendBlock {b : BlockId} {o' : Outline} :
      o'.order = o.order ++ [b] → o'.row = o.row → Edits o (.appendBlock b) o'
  | appendInst {i : InstId} {b : BlockId} {o' : Outline} :
      o.Splices b (o.row b) i [] o' → Edits o (.appendInst i b) o'
  | prependInst {i : InstId} {b : BlockId} {o' : Outline} :
      o.Splices b [] i (o.row b) o' → Edits o (.prependInst i b) o'
  | insertBefore {i j : InstId} {b : BlockId} {front back : List InstId} {o' : Outline} :
      o.Splices b front i (j :: back) o' → Edits o (.insertBefore i j) o'
  | insertAfter {i j : InstId} {b : BlockId} {front back : List InstId} {o' : Outline} :
      o.Splices b (front ++ [j]) i back o' → Edits o (.insertAfter i j) o'

namespace Layout

variable {l l' : Layout}

/-! ## Answers -/

/-- The layout answers as the outline does. A question about a block or an instruction that has no
place is a fault. -/
structure Shows (l : Layout) (o : Outline) : Prop where
  blockOrder : l.blockOrder = o.order
  allInsts : l.allInsts = o.insts
  /-- No instruction is met twice. -/
  allInsts_nodup : l.allInsts.Nodup
  /-- Following the links from block to block comes to an end. -/
  visits_blocks : Visits (fun b => (l.blockNode b).next) l.entry o.order
  /-- So does following them from instruction to instruction. -/
  visits_insts : ∀ b ∈ o.order,
    Visits (fun i => (l.instNode i).next) (l.blockNode b).first (o.row b)
  entry : l.entry = o.order.head?
  last : l.last = o.order.getLast?
  blockInserted : ∀ b, l.blockInserted b = true ↔ b ∈ o.order
  instInserted : ∀ i, l.instInserted i = true ↔ i ∈ o.insts
  nextBlock : ∀ front b back, o.order = front ++ b :: back → l.nextBlock b = .ok back.head?
  block : ∀ b ∈ o.order, l.blockInsts b = .ok (o.row b) ∧
    l.firstInst b = .ok (o.row b).head? ∧ l.lastInst b = .ok (o.row b).getLast?
  inst : ∀ b front i back, o.row b = front ++ i :: back → l.blockOf i = .ok b ∧
    l.prevInst i = .ok front.getLast? ∧ l.nextInst i = .ok back.head?
  block_absent : ∀ b, b ∉ o.order → l.nextBlock b = .error .precondition ∧
    l.blockInsts b = .error .precondition ∧ l.firstInst b = .error .precondition ∧
    l.lastInst b = .error .precondition
  inst_absent : ∀ i, i ∉ o.insts → l.blockOf i = .error (.notInserted i) ∧
    l.prevInst i = .error .precondition ∧ l.nextInst i = .error .precondition

namespace Sound

variable {b : BlockId} {front back : List InstId} {i j : InstId}

/-- The outline that a sound layout spells. -/
def outline (hl : l.Sound) : Outline where
  order := l.blockOrder
  row := l.instsOf
  order_nodup := hl.order_nodup
  row_nodup := hl.nodup
  row_disjoint _ _ _ := hl.block_unique
  row_absent _ := hl.row_absent

/-- A question about a block that has a place is put to its node. -/
theorem insertedBlock_eq (hl : l.Sound) (hb : b ∈ l.blockOrder) :
    l.insertedBlock b = .ok (l.blockNode b) := by
  rw [insertedBlock, if_pos (hl.blockInserted_iff.2 hb)]

theorem insertedBlock_absent (hl : l.Sound) (hb : b ∉ l.blockOrder) :
    l.insertedBlock b = .error .precondition := by
  rw [insertedBlock, if_neg (fun h => hb (hl.blockInserted_iff.1 h))]

/-- A question about an instruction that has a place is put to its node. -/
theorem insertedInst_eq (hl : l.Sound) (hi : i ∈ l.instsOf b) :
    l.insertedInst i = .ok (l.instNode i) := by
  rw [insertedInst, if_pos (hl.instInserted_iff.2 ⟨b, hi⟩)]

theorem insertedInst_absent (hl : l.Sound) (hi : ∀ b, i ∉ l.instsOf b) :
    l.insertedInst i = .error .precondition := by
  rw [insertedInst, hl.instInserted_eq_false hi]
  rfl

theorem shows_outline (hl : l.Sound) : l.Shows hl.outline where
  blockOrder := rfl
  allInsts := rfl
  allInsts_nodup := hl.nodup_allInsts
  visits_blocks := hl.visits_blocks
  visits_insts b _ := hl.visits_insts b
  entry := hl.entry
  last := hl.last
  blockInserted _ := hl.blockInserted_iff
  instInserted i := by
    rw [hl.instInserted_iff, Outline.mem_insts]
    rfl
  nextBlock front b back heq := by
    have heq : l.blockOrder = front ++ b :: back := heq
    have hb : b ∈ l.blockOrder := by rw [heq]; simp
    rw [Layout.nextBlock, hl.insertedBlock_eq hb]
    exact congrArg Except.ok (hl.blocks front b back heq).2
  block b hb := by
    refine ⟨?_, ?_, hl.lastInst_eq hb⟩
    · rw [blockInsts, if_pos (hl.blockInserted_iff.2 hb)]
      rfl
    · rw [firstInst, hl.insertedBlock_eq hb]
      exact congrArg Except.ok (hl.first_inst b)
  inst b front i back heq := by
    have heq : l.instsOf b = front ++ i :: back := heq
    have hi : i ∈ l.instsOf b := by rw [heq]; simp
    obtain ⟨hprev, hnext⟩ := hl.insts b front i back heq
    refine ⟨hl.blockOf_eq hi, ?_, ?_⟩
    · rw [prevInst, hl.insertedInst_eq hi]
      exact congrArg Except.ok hprev
    · rw [nextInst, hl.insertedInst_eq hi]
      exact congrArg Except.ok hnext
  block_absent b hb := by
    have hnode := hl.insertedBlock_absent hb
    refine ⟨?_, ?_, ?_, ?_⟩
    · rw [Layout.nextBlock, hnode]
      rfl
    · rw [blockInsts, if_neg (fun h => hb (hl.blockInserted_iff.1 h))]
    · rw [firstInst, hnode]
      rfl
    · rw [lastInst, hnode]
      rfl
  inst_absent i hi := by
    have hrows : ∀ b, i ∉ l.instsOf b := fun b => Outline.notMem_row hi b
    have hnode := hl.insertedInst_absent hrows
    refine ⟨?_, ?_, ?_⟩
    · rw [blockOf, hl.inst_absent i hrows]
      rfl
    · rw [prevInst, hnode]
      rfl
    · rw [nextInst, hnode]
      rfl

end Sound

/-! ## Edits -/

/-- An insertion into a layout splices its outline. -/
theorem Inserts.splices {b : BlockId} {front back : List InstId} {i : InstId}
    (h : l.Inserts b front i back l') (hl : l.Sound) :
    hl.outline.Splices b front i back h.sound.outline where
  row_before := h.row_before
  row_after := h.row_after
  row_other c hc := (h.instsOf_eq c).trans (if_neg hc.symm)
  order := h.blockOrder_eq

/-- An edit that is allowed succeeds and does to the outline what it should. -/
theorem Sound.edit_of_allowed (hl : l.Sound) {e : Edit} (he : e.Allowed hl.outline) :
    ∃ l', l.edit e = .ok l' ∧ ∃ hl' : l'.Sound, hl.outline.Edits e hl'.outline := by
  cases e with
  | appendBlock b =>
      have hok : ∃ l', l.appendBlock b = .ok l' := by
        unfold Layout.appendBlock
        rw [if_neg (fun h => he (hl.blockInserted_iff.1 h))]
        exact ⟨_, rfl⟩
      obtain ⟨l', hl'⟩ := hok
      have hspells := hl.appendBlock hl'
      exact ⟨l', hl', hspells.sound, .appendBlock hspells.blockOrder_eq hspells.instsOf_eq⟩
  | appendInst i b =>
      obtain ⟨l', hl', hins⟩ := hl.appendInst he.1 (Outline.notMem_row he.2)
      exact ⟨l', hl', hins.sound, .appendInst (hins.splices hl)⟩
  | prependInst i b =>
      obtain ⟨l', hl', hins⟩ := hl.prependInst he.1 (Outline.notMem_row he.2)
      exact ⟨l', hl', hins.sound, .prependInst (hins.splices hl)⟩
  | insertBefore i j =>
      obtain ⟨b, hj⟩ := Outline.mem_insts.1 he.1
      obtain ⟨front, back, hrow⟩ := List.append_of_mem hj
      obtain ⟨l', hl', hins⟩ := hl.insertBefore hrow (Outline.notMem_row he.2)
      exact ⟨l', hl', hins.sound, .insertBefore (hins.splices hl)⟩
  | insertAfter i j =>
      obtain ⟨b, hj⟩ := Outline.mem_insts.1 he.1
      obtain ⟨front, back, hrow⟩ := List.append_of_mem hj
      obtain ⟨l', hl', hins⟩ := hl.insertAfter hrow (Outline.notMem_row he.2)
      exact ⟨l', hl', hins.sound, .insertAfter (hins.splices hl)⟩

/-- An edit that is not allowed is a fault. -/
theorem Sound.edit_of_not_allowed (hl : l.Sound) {e : Edit} (he : ¬ e.Allowed hl.outline) :
    l.edit e = .error .precondition := by
  have hblock : ∀ b, l.blockInserted b = true ↔ b ∈ hl.outline.order :=
    hl.shows_outline.blockInserted
  have hinst : ∀ i, l.instInserted i = true ↔ i ∈ hl.outline.insts :=
    hl.shows_outline.instInserted
  -- What each edit checks is what makes it allowed.
  cases e with
  | appendBlock b =>
      refine if_pos ?_
      rw [hblock]
      exact not_not.1 he
  | appendInst i b | prependInst i b =>
      refine if_pos ?_
      rw [Bool.or_eq_true, Bool.not_eq_true', ← Bool.not_eq_true, hblock, hinst]
      exact (not_and_or.1 he).imp_right not_not.1
  | insertBefore i j | insertAfter i j =>
      refine if_pos ?_
      rw [Bool.or_eq_true, Bool.not_eq_true', ← Bool.not_eq_true, hinst, hinst]
      exact (not_and_or.1 he).imp_right not_not.1

/-- Every layout that edits lead to is sound. -/
theorem sound_of_edits {es : List Edit} (h : es.foldlM edit .empty = .ok l) : l.Sound := by
  refine foldlM_invariant (P := Layout.Sound) ?_ sound_empty h
  intro l₁ l₂ e _ hl hedit
  by_cases he : e.Allowed hl.outline
  · obtain ⟨l', hl', hsound, -⟩ := hl.edit_of_allowed he
    cases hedit.symm.trans hl'
    exact hsound
  · cases hedit.symm.trans (hl.edit_of_not_allowed he)

/-- The layout is reached from the empty one by edits. -/
def Reached (l : Layout) : Prop := ∃ es : List Edit, es.foldlM edit .empty = .ok l

theorem Reached.empty : Layout.empty.Reached := ⟨[], rfl⟩

theorem Reached.edit (h : l.Reached) {e : Edit} {l' : Layout} (he : l.edit e = .ok l') :
    l'.Reached := by
  obtain ⟨es, hes⟩ := h
  refine ⟨es ++ [e], ?_⟩
  rw [List.foldlM_append]
  exact bind_eq_ok_iff.2 ⟨l, hes, bind_eq_ok_iff.2 ⟨l', he, rfl⟩⟩

/-- An insertion at a location is an edit. -/
theorem Reached.insertAt (h : l.Reached) {i : InstId} {loc : Location} {l' : Layout}
    (hins : l.insertAt i loc = .ok l') : l'.Reached := by
  cases loc with
  | inst j => exact h.edit (e := .insertAfter i j) hins
  | top b => exact h.edit (e := .prependInst i b) hins
  | bottom b => exact h.edit (e := .appendInst i b) hins
  | nowhere => cases hins

theorem Reached.sound (h : l.Reached) : l.Sound := by
  obtain ⟨es, hes⟩ := h
  exact sound_of_edits hes

/-- Every layout that a sequence of edits leads to shows an outline. A further edit ends well
exactly if what it inserts is new and what it names has a place, and then it changes the outline at
the named position and nowhere else. -/
theorem edits_refine_outline {es : List Edit} (h : es.foldlM edit .empty = .ok l) :
    ∃ o : Outline, l.Shows o ∧ ∀ e : Edit,
      (e.Allowed o → ∃ l' o', l.edit e = .ok l' ∧ o.Edits e o' ∧ l'.Shows o') ∧
      (¬ e.Allowed o → l.edit e = .error .precondition) := by
  have hl := sound_of_edits h
  refine ⟨hl.outline, hl.shows_outline, fun e => ⟨fun he => ?_, hl.edit_of_not_allowed⟩⟩
  obtain ⟨l', hedit, hl', hedits⟩ := hl.edit_of_allowed he
  exact ⟨l', hl'.outline, hedit, hedits, hl'.shows_outline⟩

/-- Four instructions are put into a block by four kinds of edits, each next to another one. The
last of them cannot be put anywhere a second time. -/
theorem edits_refine_outline_fourInsts : ∃ l o,
    [Edit.appendBlock ⟨0⟩, .appendInst ⟨1⟩ ⟨0⟩, .prependInst ⟨0⟩ ⟨0⟩, .insertAfter ⟨3⟩ ⟨1⟩,
      .insertBefore ⟨2⟩ ⟨3⟩].foldlM edit .empty = .ok l ∧ l.Shows o ∧ o.order = [⟨0⟩] ∧
    o.row ⟨0⟩ = [⟨0⟩, ⟨1⟩, ⟨2⟩, ⟨3⟩] ∧ l.edit (.insertBefore ⟨2⟩ ⟨0⟩) = .error .precondition := by
  have hrun : succeeds ([Edit.appendBlock ⟨0⟩, .appendInst ⟨1⟩ ⟨0⟩, .prependInst ⟨0⟩ ⟨0⟩,
      .insertAfter ⟨3⟩ ⟨1⟩, .insertBefore ⟨2⟩ ⟨3⟩].foldlM edit .empty)
      (fun l => l.blockOrder = [⟨0⟩] && l.instsOf ⟨0⟩ = [⟨0⟩, ⟨1⟩, ⟨2⟩, ⟨3⟩] &&
        l.allInsts = [⟨0⟩, ⟨1⟩, ⟨2⟩, ⟨3⟩]) = true := by
    decide +kernel
  obtain ⟨l, hl, hrun⟩ := exists_of_succeeds hrun
  simp only [Bool.and_eq_true, decide_eq_true_eq] at hrun
  obtain ⟨⟨horder, hrow⟩, hall⟩ := hrun
  obtain ⟨o, hshows, hedit⟩ := edits_refine_outline hl
  have hblock : (⟨0⟩ : BlockId) ∈ o.order := by
    rw [← hshows.blockOrder, horder]
    exact List.mem_singleton_self _
  have hinsts : l.blockInsts ⟨0⟩ = .ok (l.instsOf ⟨0⟩) := by
    rw [blockInsts, if_pos ((hshows.blockInserted ⟨0⟩).2 hblock)]
  refine ⟨l, o, hl, hshows, hshows.blockOrder.symm.trans horder, ?_, (hedit _).2 fun he => ?_⟩
  · rw [← hrow]
    exact (Except.ok.inj (hinsts.symm.trans (hshows.block ⟨0⟩ hblock).1)).symm
  · refine he.2 ?_
    rw [← hshows.allInsts, hall]
    decide

end Layout

end Pointee
