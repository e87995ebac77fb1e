import Mathlib.Data.List.Nodup
import Pointee.Layout.Location

/-!
# The lists that a layout spells

`Layout.Spells` relates the linked nodes of a layout to a list of blocks and a list of instructions
for each block. Read `Spells.splice` first: it is the one argument about links, and every edit of a
block is an instance of it. `Layout.Sound` says that a layout spells the lists that iteration gives;
its lemmas answer the queries from those lists, so that later proofs never look at a node.
-/

namespace Pointee

namespace Layout

/-! ## Neighbour links -/

section Linked

variable {α : Type} [DecidableEq α] {prev next prev' next' : α → Option α}
  {xs front back : List α} {x : α}

/-- The neighbours of every element of a list are the ones that the links name. -/
def Linked (prev next : α → Option α) (xs : List α) : Prop :=
  ∀ front a back, xs = front ++ a :: back → prev a = front.getLast? ∧ next a = back.head?

/-- A new element is linked in by writing its own node and the two nodes beside it. -/
theorem Linked.insert (h : Linked prev next (front ++ back)) (hnodup : (front ++ x :: back).Nodup)
    (hx : prev' x = front.getLast? ∧ next' x = back.head?)
    (hprev : ∀ a ∈ front ++ back, prev' a = if back.head? = some a then some x else prev a)
    (hnext : ∀ a ∈ front ++ back, next' a = if front.getLast? = some a then some x else next a) :
    Linked prev' next' (front ++ x :: back) := by
  intro left a right heq
  rcases List.append_eq_append_iff.1 heq with ⟨mid, hleft, hmid⟩ | ⟨mid, hfront, hright⟩
  · cases mid with
    | nil =>
        obtain ⟨rfl, rfl⟩ : x = a ∧ back = right := by simpa using hmid
        simpa [hleft] using hx
    | cons y mid =>
        obtain ⟨rfl, rfl⟩ : x = y ∧ back = mid ++ a :: right := by simpa using hmid
        subst hleft
        obtain ⟨hp, hn⟩ := h (front ++ mid) a right (by simp)
        have hlast : front.getLast? ≠ some a := by
          intro hlast
          have := List.mem_of_getLast? hlast
          simp [List.nodup_append] at hnodup
          grind
        rw [hprev a (by simp), hnext a (by simp), if_neg hlast, hn, hp]
        refine ⟨?_, rfl⟩
        cases mid with
        | nil => simp
        | cons z mid =>
            have hz : z ≠ a := by
              simp [List.nodup_append] at hnodup
              grind
            simp [hz, List.getLast?_cons]
  · subst hfront
    cases mid with
    | nil =>
        obtain ⟨rfl, rfl⟩ : a = x ∧ right = back := by simpa using hright
        simpa using hx
    | cons y mid =>
        obtain ⟨rfl, rfl⟩ : a = y ∧ right = mid ++ x :: back := by simpa using hright
        obtain ⟨hp, hn⟩ := h left a (mid ++ back) (by simp)
        have hhead : back.head? ≠ some a := by
          intro hhead
          have := List.mem_of_head? hhead
          simp [List.nodup_append] at hnodup
          grind
        rw [hprev a (by simp), hnext a (by simp), if_neg hhead, hn, hp]
        refine ⟨rfl, ?_⟩
        cases hmid : mid.getLast? with
        | none =>
            obtain rfl : mid = [] := by simpa using hmid
            simp
        | some z =>
            have hz : z ≠ a := by
              have := List.mem_of_getLast? hmid
              simp [List.nodup_append] at hnodup
              grind
            cases mid with
            | nil => simp at hmid
            | cons w mid => simp [List.getLast?_append, List.getLast?_cons] at hmid ⊢; grind

/-- Following the links from `start` visits the elements of `xs`, in order, and comes to an end
behind the last of them. -/
inductive Visits (next : α → Option α) : Option α → List α → Prop
  | stop : Visits next none []
  | go {a : α} {xs : List α} : Visits next (next a) xs → Visits next (some a) (a :: xs)

omit [DecidableEq α] in
/-- Following the links from the first element visits the whole list. -/
theorem visits_of_next (h : ∀ front a back, xs = front ++ a :: back → next a = back.head?) :
    Visits next xs.head? xs := by
  induction xs with
  | nil => exact .stop
  | cons a rest ih =>
      refine .go ?_
      rw [h [] a rest rfl]
      exact ih fun front b back heq => h (a :: front) b back (by rw [heq]; rfl)

omit [DecidableEq α] in
/-- A chain that is cut off behind its end is complete. -/
theorem Visits.chain_eq {start : Option α} (h : Visits next start xs) {bound : Nat}
    (hbound : xs.length ≤ bound) : chain next bound start = xs := by
  induction h generalizing bound with
  | stop => cases bound <;> rfl
  | go _ ih =>
      cases bound with
      | zero => simp at hbound
      | succ bound => exact congrArg _ (ih (by simpa using hbound))

end Linked

/-! ## Nodes after a write -/

variable {l l' : Layout} {order : List BlockId} {rows : BlockId → List InstId}

@[simp] theorem instNode_setInst (l : Layout) (i j : InstId) (node : InstNode) :
    (l.setInst i node).instNode j = if i = j then node else l.instNode j := by
  simp [instNode, setInst, Table.get_set, InstId.ext_iff]

@[simp] theorem instNode_modifyInst (l : Layout) (i j : InstId) (f : InstNode → InstNode) :
    (l.modifyInst i f).instNode j = if i = j then f (l.instNode j) else l.instNode j := by
  simp [instNode, modifyInst, Table.get_modify, InstId.ext_iff]

@[simp] theorem blockNode_modifyBlock (l : Layout) (b c : BlockId) (f : BlockNode → BlockNode) :
    (l.modifyBlock b f).blockNode c = if b = c then f (l.blockNode c) else l.blockNode c := by
  simp [blockNode, modifyBlock, Table.get_modify, BlockId.ext_iff]

@[simp] theorem instNode_modifyBlock (l : Layout) (b : BlockId) (i : InstId)
    (f : BlockNode → BlockNode) : (l.modifyBlock b f).instNode i = l.instNode i := rfl

@[simp] theorem blockNode_modifyInst (l : Layout) (i : InstId) (b : BlockId)
    (f : InstNode → InstNode) : (l.modifyInst i f).blockNode b = l.blockNode b := rfl

@[simp] theorem blockNode_setInst (l : Layout) (i : InstId) (b : BlockId) (node : InstNode) :
    (l.setInst i node).blockNode b = l.blockNode b := rfl

theorem size_blocks_modifyBlock (l : Layout) (b : BlockId) (f : BlockNode → BlockNode) :
    l.blocks.size ≤ (l.modifyBlock b f).blocks.size := by
  simp only [modifyBlock, Table.modify, Table.size_set]
  omega

/-! ## Spelling -/

/-- The nodes of `l` spell the blocks `order`, and the instructions `rows b` of each block `b`. -/
structure Spells (l : Layout) (order : List BlockId) (rows : BlockId → List InstId) : Prop where
  order_nodup : order.Nodup
  entry : l.entry = order.head?
  last : l.last = order.getLast?
  blocks : Linked (fun b => (l.blockNode b).prev) (fun b => (l.blockNode b).next) order
  block_lt : ∀ b ∈ order, b.index < l.blocks.size
  block_absent : ∀ b, b ∉ order → l.blockNode b = default
  first_inst : ∀ b, (l.blockNode b).first = (rows b).head?
  last_inst : ∀ b, (l.blockNode b).last = (rows b).getLast?
  nodup : ∀ b, (rows b).Nodup
  insts : ∀ b, Linked (fun i => (l.instNode i).prev) (fun i => (l.instNode i).next) (rows b)
  block : ∀ b, ∀ i ∈ rows b, (l.instNode i).block = some b
  inst_absent : ∀ i, (∀ b, i ∉ rows b) → l.instNode i = default

theorem empty_spells : Layout.empty.Spells [] (fun _ => []) where
  order_nodup := List.nodup_nil
  entry := rfl
  last := rfl
  blocks := by intro front a back h; simp at h
  block_lt := by simp
  block_absent := by simp [blockNode, empty]
  first_inst := by simp [blockNode, empty]; rfl
  last_inst := by simp [blockNode, empty]; rfl
  nodup := by simp
  insts := by intro b front a back h; simp at h
  block := by simp
  inst_absent := by simp [instNode, empty]

namespace Spells

/-- An instruction stands in one block only. -/
theorem block_unique (h : l.Spells order rows) {b c : BlockId} {i : InstId} (hb : i ∈ rows b)
    (hc : i ∈ rows c) : b = c := by
  have heq := (h.block b i hb).symm.trans (h.block c i hc)
  exact Option.some.inj heq

/-- A block without a place has no instructions. -/
theorem row_absent (h : l.Spells order rows) {b : BlockId} (hb : b ∉ order) : rows b = [] := by
  have hfirst := h.first_inst b
  rw [h.block_absent b hb] at hfirst
  exact List.head?_eq_none_iff.1 hfirst.symm

/-- A block that holds an instruction has a place. -/
theorem mem_order (h : l.Spells order rows) {b : BlockId} {i : InstId} (hi : i ∈ rows b) :
    b ∈ order := by
  by_contra hb
  rw [h.row_absent hb] at hi
  exact absurd hi List.not_mem_nil

theorem instNode_ne_default (h : l.Spells order rows) {b : BlockId} {i : InstId}
    (hi : i ∈ rows b) : l.instNode i ≠ default := by
  intro hnode
  have hblock := h.block b i hi
  rw [hnode] at hblock
  exact absurd hblock (by simp [default, instInhabitedInstNode.default])

/-- The links from block to block visit the spelled list. -/
theorem visits_blocks (h : l.Spells order rows) :
    Visits (fun b => (l.blockNode b).next) l.entry order := by
  rw [h.entry]
  exact visits_of_next fun front b back heq => (h.blocks front b back heq).2

/-- The links from instruction to instruction visit the spelled list. -/
theorem visits_insts (h : l.Spells order rows) (b : BlockId) :
    Visits (fun i => (l.instNode i).next) (l.blockNode b).first (rows b) := by
  rw [h.first_inst]
  exact visits_of_next fun front i back heq => (h.insts b front i back heq).2

/-- Iteration over the blocks gives the spelled list. -/
theorem blockOrder_eq (h : l.Spells order rows) : l.blockOrder = order := by
  have hlen : order.length ≤ l.blocks.size := by
    have hsub : order.map BlockId.index ⊆ List.range l.blocks.size := by
      intro n hn
      obtain ⟨b, hb, rfl⟩ := List.mem_map.1 hn
      exact List.mem_range.2 (h.block_lt b hb)
    have hnodup : (order.map BlockId.index).Nodup :=
      h.order_nodup.map fun b c heq => BlockId.ext heq
    simpa using hnodup.length_le_of_subset hsub
  rw [blockOrder]
  exact h.visits_blocks.chain_eq hlen

/-- Iteration over the instructions of a block gives the spelled list. -/
theorem instsOf_eq (h : l.Spells order rows) : l.instsOf = rows := by
  funext b
  have hlen : (rows b).length ≤ l.insts.size := by
    have hsub : (rows b).map InstId.index ⊆ List.range l.insts.size := by
      intro n hn
      obtain ⟨i, hi, rfl⟩ := List.mem_map.1 hn
      by_contra hlt
      refine h.instNode_ne_default hi (Table.get_of_size_le ?_)
      simpa using hlt
    have hnodup : ((rows b).map InstId.index).Nodup :=
      (h.nodup b).map fun i j heq => InstId.ext heq
    simpa using hnodup.length_le_of_subset hsub
  rw [instsOf]
  exact (h.visits_insts b).chain_eq hlen

/-- Writing the node of a new instruction and the links beside it splices it into its row. -/
theorem splice (h : l.Spells order rows) {b : BlockId} {front back : List InstId} {x : InstId}
    (hb : b ∈ order) (hrow : rows b = front ++ back) (hx : ∀ c, x ∉ rows c)
    (hentry : l'.entry = l.entry) (hlast : l'.last = l.last)
    (hsize : l.blocks.size ≤ l'.blocks.size)
    (hnew : l'.instNode x = ⟨some b, front.getLast?, back.head?⟩)
    (hinst : ∀ i, i ≠ x → l'.instNode i = ⟨(l.instNode i).block,
      if back.head? = some i then some x else (l.instNode i).prev,
      if front.getLast? = some i then some x else (l.instNode i).next⟩)
    (hblock : ∀ c, l'.blockNode c =
      if b = c then ⟨(l.blockNode c).prev, (l.blockNode c).next, (front ++ x :: back).head?,
        (front ++ x :: back).getLast?⟩ else l.blockNode c) :
    l'.Spells order (fun c => if b = c then front ++ x :: back else rows c) := by
  have hnodup : (front ++ x :: back).Nodup := by
    refine List.nodup_middle.2 (List.nodup_cons.2 ⟨hrow ▸ hx b, hrow ▸ h.nodup b⟩)
  have hne : ∀ {c i}, i ∈ rows c → i ≠ x := fun hi heq => hx _ (heq ▸ hi)
  have hhead : ∀ {i}, back.head? = some i → i ∈ rows b := fun hi =>
    hrow ▸ List.mem_append_right _ (List.mem_of_head? hi)
  have hgetLast : ∀ {i}, front.getLast? = some i → i ∈ rows b := fun hi =>
    hrow ▸ List.mem_append_left _ (List.mem_of_getLast? hi)
  refine
    { order_nodup := h.order_nodup
      entry := hentry.trans h.entry
      last := hlast.trans h.last
      blocks := ?_
      block_lt := fun c hc => Nat.lt_of_lt_of_le (h.block_lt c hc) hsize
      block_absent := ?_
      first_inst := ?_
      last_inst := ?_
      nodup := ?_
      insts := ?_
      block := ?_
      inst_absent := ?_ }
  · intro left c right heq
    have hlinks := h.blocks left c right heq
    dsimp only at hlinks ⊢
    rw [hblock c]
    split
    · exact hlinks
    · exact hlinks
  · intro c hc
    have hbc : b ≠ c := fun heq => hc (heq ▸ hb)
    rw [hblock c, if_neg hbc, h.block_absent c hc]
  · intro c
    rw [hblock c]
    split
    · rfl
    · exact h.first_inst c
  · intro c
    rw [hblock c]
    split
    · rfl
    · exact h.last_inst c
  · intro c
    split
    · exact hnodup
    · exact h.nodup c
  · intro c
    split
    · refine Linked.insert (hrow ▸ h.insts b) hnodup ?_ ?_ ?_
      · rw [hnew]
        exact ⟨rfl, rfl⟩
      · intro i hi
        rw [hinst i (hne (hrow ▸ hi))]
      · intro i hi
        rw [hinst i (hne (hrow ▸ hi))]
    · next hc =>
        intro left i right heq
        have hi : i ∈ rows c := by rw [heq]; simp
        have hrowb : i ∉ rows b := fun hib => hc (h.block_unique hib hi)
        have hlinks := h.insts c left i right heq
        dsimp only at hlinks ⊢
        rw [hinst i (hne hi), if_neg (fun hh => hrowb (hhead hh)),
          if_neg (fun hg => hrowb (hgetLast hg))]
        exact hlinks
  · intro c i hi
    split at hi
    · next heq =>
        subst heq
        rcases List.mem_append.1 hi with hi | hi
        · have hib : i ∈ rows b := hrow ▸ List.mem_append_left _ hi
          rw [hinst i (hne hib)]
          exact h.block b i hib
        · rcases List.mem_cons.1 hi with rfl | hi
          · rw [hnew]
          · have hib : i ∈ rows b := hrow ▸ List.mem_append_right _ hi
            rw [hinst i (hne hib)]
            exact h.block b i hib
    · rw [hinst i (hne hi)]
      exact h.block c i hi
  · intro i hi
    have hix : i ≠ x := by
      rintro rfl
      exact hi b (by simp)
    have habsent : ∀ c, i ∉ rows c := by
      intro c hc
      refine hi c ?_
      split
      · next heq =>
          subst heq
          rw [hrow] at hc
          rcases List.mem_append.1 hc with hc | hc
          · exact List.mem_append_left _ hc
          · exact List.mem_append_right _ (List.mem_cons_of_mem _ hc)
      · exact hc
    rw [hinst i hix, if_neg (fun hh => habsent b (hhead hh)),
      if_neg (fun hg => habsent b (hgetLast hg))]
    exact h.inst_absent i habsent

/-- Linking a block to the last one puts it behind all others. -/
theorem extend (h : l.Spells order rows) {b : BlockId} (hb : b ∉ order)
    (hentry : l'.entry = order.head?.or (some b)) (hlast : l'.last = some b)
    (hsize : l.blocks.size ≤ l'.blocks.size) (hlt : b.index < l'.blocks.size)
    (hinst : ∀ i, l'.instNode i = l.instNode i)
    (hblock : ∀ c, l'.blockNode c =
      if b = c then ⟨l.last, none, none, none⟩
      else if l.last = some c then { l.blockNode c with next := some b } else l.blockNode c) :
    l'.Spells (order ++ [b]) rows := by
  have hne : ∀ {c}, c ∈ order → b ≠ c := fun hc heq => hb (heq ▸ hc)
  have hmem : ∀ {c}, l.last = some c → c ∈ order := fun hc =>
    List.mem_of_getLast? (h.last ▸ hc)
  have hends : ∀ c, (l'.blockNode c).first = (l.blockNode c).first ∧
      (l'.blockNode c).last = (l.blockNode c).last := by
    intro c
    rw [hblock c]
    split
    · next heq =>
        subst heq
        rw [h.block_absent b hb]
        exact ⟨rfl, rfl⟩
    · split <;> exact ⟨rfl, rfl⟩
  have hnodup : (order ++ [b]).Nodup :=
    List.nodup_middle.2 (List.nodup_cons.2 ⟨by simpa using hb, by simpa using h.order_nodup⟩)
  refine
    { order_nodup := hnodup
      entry := hentry.trans (by simp [List.head?_append])
      last := hlast.trans (by simp)
      blocks := ?_
      block_lt := ?_
      block_absent := ?_
      first_inst := fun c => (hends c).1.trans (h.first_inst c)
      last_inst := fun c => (hends c).2.trans (h.last_inst c)
      nodup := h.nodup
      insts := fun c left i right heq => by
        dsimp only
        rw [hinst i]
        exact h.insts c left i right heq
      block := fun c i hi => by
        rw [hinst i]
        exact h.block c i hi
      inst_absent := fun i hi => (hinst i).trans (h.inst_absent i hi) }
  · refine Linked.insert (by simpa using h.blocks) hnodup ?_ ?_ ?_
    · simp [hblock b, h.last]
    · intro c hc
      have hc : c ∈ order := by simpa using hc
      rw [hblock c, if_neg (hne hc)]
      split <;> simp
    · intro c hc
      have hc : c ∈ order := by simpa using hc
      rw [hblock c, if_neg (hne hc), h.last]
      split <;> rfl
  · intro c hc
    rcases List.mem_append.1 hc with hc | hc
    · exact Nat.lt_of_lt_of_le (h.block_lt c hc) hsize
    · rw [List.mem_singleton.1 hc]
      exact hlt
  · intro c hc
    simp only [List.mem_append, List.mem_singleton, not_or] at hc
    rw [hblock c, if_neg (fun heq => hc.2 heq.symm), if_neg (fun heq => hc.1 (hmem heq)),
      h.block_absent c hc.1]

end Spells

/-! ## Sound layouts -/

/-- The nodes of a layout spell the lists that iteration gives. -/
def Sound (l : Layout) : Prop := l.Spells l.blockOrder l.instsOf

theorem Spells.sound (h : l.Spells order rows) : l.Sound := by
  unfold Sound
  rw [h.blockOrder_eq, h.instsOf_eq]
  exact h

theorem sound_empty : Layout.empty.Sound := empty_spells.sound

namespace Sound

theorem blockInserted_iff (hl : l.Sound) {b : BlockId} :
    l.blockInserted b = true ↔ b ∈ l.blockOrder := by
  unfold blockInserted
  constructor
  · intro h
    by_contra hb
    have hentry : l.entry ≠ some b := by
      rw [hl.entry]
      exact fun hhead => hb (List.mem_of_head? hhead)
    simp [hentry, hl.block_absent b hb] at h
  · intro hb
    obtain ⟨front, back, heq⟩ := List.append_of_mem hb
    cases hfront : front.getLast? with
    | none =>
        obtain rfl : front = [] := by simpa using hfront
        have hentry : l.entry = some b := by rw [hl.entry, heq]; rfl
        simp [hentry]
    | some c =>
        have hprev : (l.blockNode b).prev = some c := (hl.blocks front b back heq).1.trans hfront
        have hnode : l.blockNode b ≠ default := by
          intro hnode
          rw [hnode] at hprev
          exact absurd hprev (by simp [default, instInhabitedBlockNode.default])
        simp [hnode]

theorem instInserted_iff (hl : l.Sound) {i : InstId} :
    l.instInserted i = true ↔ ∃ b, i ∈ l.instsOf b := by
  unfold instInserted
  constructor
  · intro h
    by_contra hi
    have hnode := hl.inst_absent i fun b hb => hi ⟨b, hb⟩
    simp [hnode] at h
  · rintro ⟨b, hb⟩
    simpa using hl.instNode_ne_default hb

theorem blockOf_eq (hl : l.Sound) {b : BlockId} {i : InstId} (hi : i ∈ l.instsOf b) :
    l.blockOf i = .ok b := by
  rw [blockOf, hl.block b i hi]
  rfl

theorem lastInst_eq (hl : l.Sound) {b : BlockId} (hb : b ∈ l.blockOrder) :
    l.lastInst b = .ok (l.instsOf b).getLast? := by
  simp [lastInst, insertedBlock, hl.blockInserted_iff.2 hb, hl.last_inst]

/-- The last instruction is asked for only of a block that has a place. -/
theorem mem_order_of_lastInst (hl : l.Sound) {b : BlockId} {last : Option InstId}
    (h : l.lastInst b = .ok last) : b ∈ l.blockOrder ∧ last = (l.instsOf b).getLast? := by
  have hb : b ∈ l.blockOrder := by
    rw [← hl.blockInserted_iff]
    by_contra hb
    rw [lastInst, insertedBlock, if_neg hb] at h
    cases h
  rw [hl.lastInst_eq hb] at h
  exact ⟨hb, (Except.ok.inj h).symm⟩

theorem mem_allInsts (hl : l.Sound) {i : InstId} : i ∈ l.allInsts ↔ ∃ b, i ∈ l.instsOf b := by
  unfold allInsts
  rw [List.mem_flatMap]
  constructor
  · rintro ⟨b, _, hi⟩
    exact ⟨b, hi⟩
  · rintro ⟨b, hi⟩
    exact ⟨b, hl.mem_order hi, hi⟩

/-- An instruction has one place only. -/
theorem nodup_allInsts (hl : l.Sound) : l.allInsts.Nodup := by
  unfold allInsts
  rw [List.nodup_flatMap]
  refine ⟨fun b _ => hl.nodup b, hl.order_nodup.imp fun hne => ?_⟩
  intro i hi hi'
  exact hne (hl.block_unique hi hi')

/-- A new block goes behind all others. -/
theorem appendBlock (hl : l.Sound) {b : BlockId} (h : l.appendBlock b = .ok l') :
    l'.Spells (l.blockOrder ++ [b]) l.instsOf := by
  unfold Layout.appendBlock at h
  split at h
  · cases h
  · next hinserted =>
      have hb : b ∉ l.blockOrder := fun hb => hinserted (hl.blockInserted_iff.2 hb)
      injection h with h
      subst h
      cases hlast : l.last with
      | none =>
          have horder : l.blockOrder = [] := by
            rw [← List.getLast?_eq_none_iff, ← hl.last, hlast]
          refine Spells.extend hl hb ?_ rfl ?_ ?_ (fun i => rfl) ?_
          · rw [horder]
            rfl
          · simp only [Table.size_set]
            omega
          · simp only [Table.size_set]
            omega
          · intro c
            simp [hlast, blockNode, Table.get_set, BlockId.ext_iff]
      | some last =>
          have hhead : ∃ c, l.blockOrder.head? = some c := by
            cases horder : l.blockOrder with
            | nil => rw [hl.last, horder] at hlast; cases hlast
            | cons c rest => exact ⟨c, rfl⟩
          obtain ⟨c, hc⟩ := hhead
          refine Spells.extend hl hb ?_ rfl ?_ ?_ (fun i => rfl) ?_
          · rw [hc]
            exact hl.entry.trans hc
          · simp only [modifyBlock, Table.modify, Table.size_set]
            omega
          · simp only [modifyBlock, Table.modify, Table.size_set]
            omega
          · intro c
            simp [hlast, blockNode, modifyBlock, Table.get_set, Table.get_modify, BlockId.ext_iff]

end Sound

/-! ## Insertions -/

/-- `l'` is `l` with the new instruction `i` between `front` and `back` in block `b`. -/
structure Inserts (l : Layout) (b : BlockId) (front : List InstId) (i : InstId)
    (back : List InstId) (l' : Layout) : Prop where
  mem_order : b ∈ l.blockOrder
  fresh : ∀ c, i ∉ l.instsOf c
  row_before : l.instsOf b = front ++ back
  spells : l'.Spells l.blockOrder (fun c => if b = c then front ++ i :: back else l.instsOf c)

namespace Inserts

variable {b c : BlockId} {front back : List InstId} {i j : InstId}

theorem sound (h : l.Inserts b front i back l') : l'.Sound := h.spells.sound

theorem blockOrder_eq (h : l.Inserts b front i back l') : l'.blockOrder = l.blockOrder :=
  h.spells.blockOrder_eq

theorem instsOf_eq (h : l.Inserts b front i back l') (c : BlockId) :
    l'.instsOf c = if b = c then front ++ i :: back else l.instsOf c := by
  rw [h.spells.instsOf_eq]

theorem row_after (h : l.Inserts b front i back l') : l'.instsOf b = front ++ i :: back := by
  rw [h.instsOf_eq, if_pos rfl]

/-- The instructions that were there keep their blocks; the new one stands in `b`. -/
theorem mem_instsOf (h : l.Inserts b front i back l') :
    j ∈ l'.instsOf c ↔ j ∈ l.instsOf c ∨ (j = i ∧ c = b) := by
  rw [h.instsOf_eq]
  split
  · next heq =>
      subst heq
      rw [h.row_before]
      simp only [List.mem_append, List.mem_cons]
      tauto
  · next hne =>
      constructor
      · exact Or.inl
      · rintro (hj | ⟨_, rfl⟩)
        · exact hj
        · exact absurd rfl hne

/-- The new instruction is the only one that gets a place. -/
theorem mem_allInsts (h : l.Inserts b front i back l') (hl : l.Sound) :
    j ∈ l'.allInsts ↔ j ∈ l.allInsts ∨ j = i := by
  rw [h.sound.mem_allInsts, hl.mem_allInsts]
  simp only [h.mem_instsOf, exists_or, exists_and_left, exists_eq, and_true]

end Inserts

namespace Sound

variable {b : BlockId} {front back : List InstId} {i j : InstId}

/-- The links between two neighbours of a row are taken from the row. -/
theorem links (hl : l.Sound) (hrow : l.instsOf b = front ++ j :: back) :
    l.instNode j = ⟨some b, front.getLast?, back.head?⟩ := by
  obtain ⟨hprev, hnext⟩ := hl.insts b front j back hrow
  have hblock := hl.block b j (by rw [hrow]; simp)
  cases hnode : l.instNode j with
  | mk block prev next =>
      simp only [hnode] at hblock hprev hnext
      rw [hblock, hprev, hnext]

/-- An instruction occurs once, so its row splits at it in one way. -/
theorem row_split (hl : l.Sound) {c : BlockId} {front' back' : List InstId}
    (h : l.instsOf b = front ++ i :: back) (h' : l.instsOf c = front' ++ i :: back') :
    b = c ∧ front = front' ∧ back = back' := by
  have hb : i ∈ l.instsOf b := by rw [h]; simp
  have hc : i ∈ l.instsOf c := by rw [h']; simp
  obtain rfl : b = c := hl.block_unique hb hc
  have hnodup := hl.nodup b
  rw [h, List.nodup_middle, List.nodup_cons] at hnodup
  have hi : i ∉ front ∧ i ∉ back := by simpa using hnodup.1
  have heq := h.symm.trans h'
  rw [List.append_cons_inj_of_notMem hi.1 hi.2] at heq
  exact ⟨rfl, heq.1, heq.2.2⟩

theorem instInserted_eq_false (hl : l.Sound) (hi : ∀ c, i ∉ l.instsOf c) :
    l.instInserted i = false := by
  rw [← Bool.not_eq_true, hl.instInserted_iff]
  exact fun ⟨c, hc⟩ => hi c hc

/-- The node of a block names the ends of its row. -/
theorem blockNode_eq (hl : l.Sound) (b : BlockId) : l.blockNode b =
    ⟨(l.blockNode b).prev, (l.blockNode b).next, (l.instsOf b).head?, (l.instsOf b).getLast?⟩ := by
  rw [← hl.first_inst, ← hl.last_inst]

/-- An instruction goes directly behind one that has a place. -/
theorem insertAfter (hl : l.Sound) (hrow : l.instsOf b = front ++ j :: back)
    (hi : ∀ c, i ∉ l.instsOf c) :
    ∃ l', l.insertAfter i j = .ok l' ∧ l.Inserts b (front ++ [j]) i back l' := by
  have hj : j ∈ l.instsOf b := by rw [hrow]; simp
  have hb : b ∈ l.blockOrder := hl.mem_order hj
  have hij : i ≠ j := fun heq => hi b (heq ▸ hj)
  have hrow' : l.instsOf b = (front ++ [j]) ++ back := by simpa using hrow
  have hnodup := hl.nodup b
  rw [hrow] at hnodup
  unfold Layout.insertAfter
  rw [hl.instInserted_iff.2 ⟨b, hj⟩, hl.instInserted_eq_false hi, hl.blockOf_eq hj, hl.links hrow]
  refine ⟨_, rfl, hb, hi, hrow', ?_⟩
  cases back with
  | nil =>
      refine Spells.splice hl hb hrow' hi rfl rfl (size_blocks_modifyBlock ..) (by simp) ?_ ?_
      · intro k hk
        by_cases hkj : j = k
        · subst hkj
          simp [hk.symm]
        · simp [hk.symm, hkj]
      · intro c
        by_cases hc : b = c
        · subst hc
          simp [hl.first_inst, hrow, List.head?_append]
        · simp [hc]
  | cons n rest =>
      have hn : n ∈ l.instsOf b := by rw [hrow]; simp
      have hin : i ≠ n := fun heq => hi b (heq ▸ hn)
      have hjn : j ≠ n := by
        rintro rfl
        simp [List.nodup_append] at hnodup
      refine Spells.splice hl hb hrow' hi rfl rfl (Nat.le_refl _) (by simp) ?_ ?_
      · intro k hk
        by_cases hkj : j = k
        · subst hkj
          simp [hk.symm, hjn.symm]
        · by_cases hkn : n = k
          · subst hkn
            simp [hk.symm, hkj]
          · simp [hk.symm, hkj, hkn]
      · intro c
        by_cases hc : b = c
        · subst hc
          rw [if_pos rfl]
          refine (hl.blockNode_eq b).trans ?_
          simp [hrow, List.head?_append, List.getLast?_append, List.getLast?_cons]
        · simp [hc]

/-- An instruction goes directly before one that has a place. -/
theorem insertBefore (hl : l.Sound) (hrow : l.instsOf b = front ++ j :: back)
    (hi : ∀ c, i ∉ l.instsOf c) :
    ∃ l', l.insertBefore i j = .ok l' ∧ l.Inserts b front i (j :: back) l' := by
  have hj : j ∈ l.instsOf b := by rw [hrow]; simp
  have hb : b ∈ l.blockOrder := hl.mem_order hj
  have hij : i ≠ j := fun heq => hi b (heq ▸ hj)
  have hnodup := hl.nodup b
  rw [hrow] at hnodup
  unfold Layout.insertBefore
  rw [hl.instInserted_iff.2 ⟨b, hj⟩, hl.instInserted_eq_false hi, hl.blockOf_eq hj, hl.links hrow]
  refine ⟨_, rfl, hb, hi, hrow, ?_⟩
  cases hprev : front.getLast? with
  | none =>
      obtain rfl : front = [] := by simpa using hprev
      refine Spells.splice hl hb hrow hi rfl rfl (size_blocks_modifyBlock ..) (by simp) ?_ ?_
      · intro k hk
        by_cases hkj : j = k
        · subst hkj
          simp [hk.symm]
        · simp [hk.symm, hkj]
      · intro c
        by_cases hc : b = c
        · subst hc
          simp [hl.last_inst, hrow, List.getLast?_cons]
        · simp [hc]
  | some p =>
      have hp : p ∈ l.instsOf b := by
        rw [hrow]
        exact List.mem_append_left _ (List.mem_of_getLast? hprev)
      have hip : i ≠ p := fun heq => hi b (heq ▸ hp)
      have hjp : j ≠ p := by
        rintro rfl
        have := List.mem_of_getLast? hprev
        simp [List.nodup_append] at hnodup
        grind
      refine Spells.splice hl hb hrow hi rfl rfl (Nat.le_refl _) (by simp [hprev]) ?_ ?_
      · intro k hk
        by_cases hkj : j = k
        · subst hkj
          simp [hk.symm, hprev, hjp.symm]
        · by_cases hkp : p = k
          · subst hkp
            simp [hk.symm, hkj, hprev]
          · simp [hk.symm, hkj, hkp, hprev]
      · intro c
        by_cases hc : b = c
        · subst hc
          rw [if_pos rfl]
          refine (hl.blockNode_eq b).trans ?_
          cases front with
          | nil => simp at hprev
          | cons n rest => simp [hrow, List.getLast?_cons, List.getLast?_append]
        · simp [hc]

/-- An instruction goes to the start of a block that has a place. -/
theorem prependInst (hl : l.Sound) (hb : b ∈ l.blockOrder) (hi : ∀ c, i ∉ l.instsOf c) :
    ∃ l', l.prependInst i b = .ok l' ∧ l.Inserts b [] i (l.instsOf b) l' := by
  unfold Layout.prependInst
  rw [hl.blockInserted_iff.2 hb, hl.instInserted_eq_false hi, hl.first_inst b]
  refine ⟨_, rfl, hb, hi, rfl, ?_⟩
  cases hrow : l.instsOf b with
  | nil =>
      refine Spells.splice hl hb hrow hi rfl rfl ?_ (by simp) ?_ ?_
      · exact Nat.le_trans (size_blocks_modifyBlock ..) (size_blocks_modifyBlock ..)
      · intro k hk
        simp [hk.symm]
      · intro c
        by_cases hc : b = c
        · subst hc
          simp
        · simp [hc]
  | cons n rest =>
      have hn : n ∈ l.instsOf b := by rw [hrow]; simp
      have hin : i ≠ n := fun heq => hi b (heq ▸ hn)
      refine Spells.splice hl hb hrow hi rfl rfl (size_blocks_modifyBlock ..) (by simp) ?_ ?_
      · intro k hk
        by_cases hkn : n = k
        · subst hkn
          simp [hk.symm]
        · simp [hk.symm, hkn]
      · intro c
        by_cases hc : b = c
        · subst hc
          simp [hl.last_inst, hrow, List.getLast?_cons]
        · simp [hc]

/-- An instruction goes to the end of a block that has a place. -/
theorem appendInst (hl : l.Sound) (hb : b ∈ l.blockOrder) (hi : ∀ c, i ∉ l.instsOf c) :
    ∃ l', l.appendInst i b = .ok l' ∧ l.Inserts b (l.instsOf b) i [] l' := by
  unfold Layout.appendInst
  rw [hl.blockInserted_iff.2 hb, hl.instInserted_eq_false hi, hl.last_inst b]
  have hrow : l.instsOf b = l.instsOf b ++ [] := by simp
  refine ⟨_, rfl, hb, hi, hrow, ?_⟩
  cases hlast : (l.instsOf b).getLast? with
  | none =>
      have hnil : l.instsOf b = [] := by simpa using hlast
      refine Spells.splice hl hb hrow hi rfl rfl ?_ (by simp [hlast]) ?_ ?_
      · exact Nat.le_trans (size_blocks_modifyBlock ..) (size_blocks_modifyBlock ..)
      · intro k hk
        simp [hk.symm, hlast]
      · intro c
        by_cases hc : b = c
        · subst hc
          simp [hnil]
        · simp [hc]
  | some n =>
      have hn : n ∈ l.instsOf b := List.mem_of_getLast? hlast
      have hin : i ≠ n := fun heq => hi b (heq ▸ hn)
      refine Spells.splice hl hb hrow hi rfl rfl (size_blocks_modifyBlock ..) (by simp [hlast])
        ?_ ?_
      · intro k hk
        by_cases hkn : n = k
        · subst hkn
          simp [hk.symm, hlast]
        · simp [hk.symm, hkn, hlast]
      · intro c
        by_cases hc : b = c
        · subst hc
          cases hfirst : l.instsOf b with
          | nil => rw [hfirst] at hn; cases hn
          | cons m rest => simp [hl.first_inst, hfirst, List.getLast?_cons]
        · simp [hc]

end Sound

end Layout

/-! ## Locations -/

/-- An insertion at `loc` lands between `front` and `back` in block `b`. -/
def Location.Splits (loc : Location) (l : Layout) (b : BlockId) (front back : List InstId) : Prop :=
  b ∈ l.blockOrder ∧ l.instsOf b = front ++ back ∧
    match loc with
    | inst j => front.getLast? = some j
    | top c => c = b ∧ front = []
    | bottom c => c = b ∧ back = []
    | nowhere => False

namespace Layout.Sound

variable {l l' : Layout} {loc : Location} {b : BlockId} {front back : List InstId} {i : InstId}

/-- A new instruction can go to every location that splits a block. -/
theorem insertAt (hl : l.Sound) (hs : loc.Splits l b front back) (hi : ∀ c, i ∉ l.instsOf c) :
    ∃ l', l.insertAt i loc = .ok l' ∧ l.Inserts b front i back l' := by
  obtain ⟨hb, hrow, hloc⟩ := hs
  cases loc with
  | inst j =>
      obtain ⟨ys, rfl⟩ := List.getLast?_eq_some_iff.1 hloc
      exact hl.insertAfter (by simpa using hrow) hi
  | top c =>
      obtain ⟨rfl, rfl⟩ := hloc
      obtain rfl : l.instsOf c = back := hrow
      exact hl.prependInst hb hi
  | bottom c =>
      obtain ⟨rfl, rfl⟩ := hloc
      obtain rfl : l.instsOf c = front := by simpa using hrow
      exact hl.appendInst hb hi
  | nowhere => exact hloc.elim

/-- An insertion that succeeds is at a location that splits a block, and of a new instruction. -/
theorem splits_of_insertAt (hl : l.Sound) (h : l.insertAt i loc = .ok l') :
    (∃ b front back, loc.Splits l b front back) ∧ ∀ c, i ∉ l.instsOf c := by
  cases loc with
  | inst j =>
      simp only [Layout.insertAt, Layout.insertAfter] at h
      split at h
      · cases h
      · next hcond =>
          simp only [Bool.or_eq_true, Bool.not_eq_true', not_or, Bool.not_eq_false,
            hl.instInserted_iff] at hcond
          obtain ⟨⟨b, hj⟩, hi⟩ := hcond
          obtain ⟨front, back, hrow⟩ := List.append_of_mem hj
          refine ⟨⟨b, front ++ [j], back, hl.mem_order hj, by simpa using hrow, by simp⟩, ?_⟩
          exact fun c hc => hi ⟨c, hc⟩
  | top c =>
      simp only [Layout.insertAt, Layout.prependInst] at h
      split at h
      · cases h
      · next hcond =>
          simp only [Bool.or_eq_true, Bool.not_eq_true', not_or, Bool.not_eq_false,
            hl.instInserted_iff, hl.blockInserted_iff] at hcond
          exact ⟨⟨c, [], l.instsOf c, hcond.1, rfl, rfl, rfl⟩, fun d hd => hcond.2 ⟨d, hd⟩⟩
  | bottom c =>
      simp only [Layout.insertAt, Layout.appendInst] at h
      split at h
      · cases h
      · next hcond =>
          simp only [Bool.or_eq_true, Bool.not_eq_true', not_or, Bool.not_eq_false,
            hl.instInserted_iff, hl.blockInserted_iff] at hcond
          exact ⟨⟨c, l.instsOf c, [], hcond.1, by simp, rfl, rfl⟩, fun d hd => hcond.2 ⟨d, hd⟩⟩
  | nowhere => cases h

/-- One step back from an instruction leads to its neighbour or to the top of its block. -/
theorem prev_inst (hl : l.Sound) (hrow : l.instsOf b = front ++ i :: back) :
    (Location.inst i).prev l = .ok (front.getLast?.elim (.top b) .inst) := by
  have hi : i ∈ l.instsOf b := by rw [hrow]; simp
  have hprev : l.prevInst i = .ok front.getLast? := by
    simp only [prevInst, insertedInst, hl.instInserted_iff.2 ⟨b, hi⟩, if_true, hl.links hrow]
    rfl
  simp only [Location.prev, hprev]
  cases front.getLast? with
  | none =>
      show (l.blockOf i >>= fun c => pure (Location.top c)) = _
      rw [hl.blockOf_eq hi]
      rfl
  | some j => rfl

/-- The location before an instruction splits its block there. -/
theorem before_splits (hl : l.Sound) (hrow : l.instsOf b = front ++ i :: back) :
    ∃ loc, Location.before l i = .ok loc ∧ loc.Splits l b front (i :: back) := by
  have hb : b ∈ l.blockOrder := hl.mem_order (by rw [hrow]; simp : i ∈ l.instsOf b)
  refine ⟨_, hl.prev_inst hrow, hb, hrow, ?_⟩
  cases hfront : front.getLast? with
  | none => exact ⟨rfl, by simpa using hfront⟩
  | some j => rfl

/-- The location before an instruction exists only if the instruction has a place. -/
theorem mem_of_before (hl : l.Sound) (h : Location.before l i = .ok loc) :
    ∃ b, i ∈ l.instsOf b := by
  by_contra hi
  have hfalse : l.instInserted i = false := hl.instInserted_eq_false fun b hb => hi ⟨b, hb⟩
  simp only [Location.before, Location.prev, prevInst, insertedInst, hfalse] at h
  cases h

end Layout.Sound

end Pointee
