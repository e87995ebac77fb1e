import Pointee.Draft
import Pointee.Proofs.LayoutRefinement

/-!
# Walking through a layout

A draft that goes ahead from the top of the first block meets every location once: the top of a
block, its instructions in order, its bottom, and then the top of the block that follows. A walk
takes other links than iteration does, so that the two agree is a fact about the links.
`Layout.Sound.next_inst` and its neighbours say where one step leads. `Location.Tours` puts the
steps of a whole walk together, and `Draft.walk_follows_layout` is the result.
-/

namespace Pointee

/-! ## Locations in order -/

namespace Layout

/-- The locations of a block: its instructions in order, between its top and its bottom. -/
def locationsOf (l : Layout) (b : BlockId) : List Location :=
  .top b :: ((l.instsOf b).map .inst ++ [.bottom b])

/-- All locations, block after block. -/
def locations (l : Layout) : List Location := l.blockOrder.flatMap l.locationsOf

theorem length_locations (l : Layout) :
    l.locations.length = l.allInsts.length + 2 * l.blockOrder.length := by
  unfold locations allInsts
  induction l.blockOrder with
  | nil => rfl
  | cons b rest ih =>
      simp only [List.flatMap_cons, List.length_append, List.length_cons, locationsOf,
        List.length_map, List.length_nil, ih]
      omega

theorem filterMap_inst?_locations (l : Layout) :
    l.locations.filterMap Location.inst? = l.allInsts := by
  have hblock : ∀ b, (l.locationsOf b).filterMap Location.inst? = l.instsOf b := by
    intro b
    show ((l.instsOf b).map Location.inst ++ [Location.bottom b]).filterMap Location.inst? = _
    rw [List.filterMap_append, List.filterMap_map]
    exact (List.append_nil _).trans List.filterMap_some
  unfold locations allInsts
  rw [List.filterMap_flatMap]
  simp only [hblock]

theorem nowhere_notMem_locations (l : Layout) : Location.nowhere ∉ l.locations := by
  simp [locations, locationsOf]

/-! ## Where one step leads -/

namespace Sound

variable {l : Layout} {b : BlockId} {front back : List InstId} {i : InstId}

theorem next_inst (hl : l.Sound) (hrow : l.instsOf b = front ++ i :: back) :
    (Location.inst i).next l = .ok (back.head?.elim (.bottom b) .inst) := by
  obtain ⟨hblock, -, hnext⟩ := hl.shows_outline.inst b front i back hrow
  simp only [Location.next, hnext]
  cases back with
  | nil =>
      show (l.blockOf i >>= fun c => pure (Location.bottom c)) = _
      rw [hblock]
      rfl
  | cons j rest => rfl

theorem next_top (hl : l.Sound) (hb : b ∈ l.blockOrder) :
    (Location.top b).next l = .ok ((l.instsOf b).head?.elim (.bottom b) .inst) := by
  have hfirst : l.firstInst b = .ok (l.instsOf b).head? := (hl.shows_outline.block b hb).2.1
  simp only [Location.next, hfirst]
  cases (l.instsOf b).head? <;> rfl

theorem next_bottom (hl : l.Sound) {before behind : List BlockId}
    (horder : l.blockOrder = before ++ b :: behind) :
    (Location.bottom b).next l = .ok (behind.head?.elim .nowhere .top) := by
  have hnext : l.nextBlock b = .ok behind.head? :=
    hl.shows_outline.nextBlock before b behind horder
  simp only [Location.next, hnext]
  cases behind.head? <;> rfl

theorem prev_bottom (hl : l.Sound) (hb : b ∈ l.blockOrder) :
    (Location.bottom b).prev l = .ok ((l.instsOf b).getLast?.elim (.top b) .inst) := by
  simp only [Location.prev, hl.lastInst_eq hb]
  cases (l.instsOf b).getLast? <;> rfl

/-- A step ahead from the top of a block is undone by a step back. -/
theorem prev_next_top (hl : l.Sound) (hb : b ∈ l.blockOrder) :
    ((Location.top b).next l >>= fun loc => loc.prev l) = .ok (.top b) := by
  rw [hl.next_top hb]
  cases hrow : l.instsOf b with
  | nil =>
      show (Location.bottom b).prev l = _
      rw [hl.prev_bottom hb, hrow]
      rfl
  | cons i rest =>
      have hfirst : l.instsOf b = [] ++ i :: rest := hrow
      exact hl.prev_inst hfirst

/-- A step ahead from an instruction is undone by a step back. -/
theorem prev_next_inst (hl : l.Sound) (hi : i ∈ l.instsOf b) :
    ((Location.inst i).next l >>= fun loc => loc.prev l) = .ok (.inst i) := by
  obtain ⟨front, back, hrow⟩ := List.append_of_mem hi
  rw [hl.next_inst hrow]
  cases back with
  | nil =>
      show (Location.bottom b).prev l = _
      rw [hl.prev_bottom (hl.mem_order hi), hrow, List.getLast?_concat]
      rfl
  | cons j rest =>
      have hrow' : l.instsOf b = (front ++ [i]) ++ j :: rest := by simpa using hrow
      show (Location.inst j).prev l = _
      rw [hl.prev_inst hrow', List.getLast?_concat]
      rfl

end Sound

end Layout

/-! ## Whole walks -/

/-- Going ahead from a location meets the locations of a list, one a step, and then leads
nowhere. -/
inductive Location.Tours (l : Layout) : Location → List Location → Prop
  | stop : Tours l nowhere []
  | go {loc loc' : Location} {met : List Location} :
      loc.next l = .ok loc' → Tours l loc' met → Tours l loc (loc :: met)

namespace Layout.Sound

variable {l : Layout} {b : BlockId} {met : List Location}

/-- What is left of a row is met before the bottom of the block. -/
theorem tours_row (hl : l.Sound) (h : (Location.bottom b).Tours l met) {front back : List InstId}
    (hrow : l.instsOf b = front ++ back) :
    (back.head?.elim (Location.bottom b) .inst).Tours l (back.map .inst ++ met) := by
  induction back generalizing front with
  | nil => exact h
  | cons i rest ih =>
      have hrow' : l.instsOf b = (front ++ [i]) ++ rest := by simpa using hrow
      exact .go (hl.next_inst hrow) (ih hrow')

/-- What is left of the blocks is met before the walk leads nowhere. -/
theorem tours_blocks (hl : l.Sound) {front back : List BlockId}
    (horder : l.blockOrder = front ++ back) :
    (back.head?.elim Location.nowhere .top).Tours l (back.flatMap l.locationsOf) := by
  induction back generalizing front with
  | nil => exact .stop
  | cons b rest ih =>
      have hb : b ∈ l.blockOrder := by rw [horder]; simp
      have horder' : l.blockOrder = (front ++ [b]) ++ rest := by simpa using horder
      have hrow : l.instsOf b = [] ++ l.instsOf b := rfl
      have hbottom : (Location.bottom b).Tours l (.bottom b :: rest.flatMap l.locationsOf) :=
        .go (hl.next_bottom horder) (ih horder')
      simpa [locationsOf] using Location.Tours.go (hl.next_top hb) (hl.tours_row hbottom hrow)

theorem tours_entry (hl : l.Sound) : (Location.ofEntry l).Tours l l.locations := by
  have hentry : Location.ofEntry l = l.blockOrder.head?.elim .nowhere .top := by
    rw [Location.ofEntry, hl.entry]
    cases l.blockOrder.head? <;> rfl
  have horder : l.blockOrder = [] ++ l.blockOrder := rfl
  rw [hentry]
  exact hl.tours_blocks horder

end Layout.Sound

namespace Draft

/-- Goes `n` locations ahead. -/
def proceedBy : Nat → Draft → Except Fault Draft
  | 0, d => .ok d
  | n + 1, d => d.proceed >>= proceedBy n

/-- A draft that goes ahead meets what a tour of its layout meets, and stays nowhere behind it. -/
theorem proceedBy_of_tours {d : Draft} {start : Location} {met : List Location}
    (h : start.Tours d.func.layout met) (n : Nat) :
    (d.moveTo start).proceedBy n = .ok (d.moveTo (met[n]?.getD .nowhere)) := by
  induction n generalizing start met with
  | zero =>
      cases h with
      | stop => rfl
      | go _ _ => rfl
  | succ n ih =>
      have hstep : ∀ {loc loc' : Location}, loc.next d.func.layout = .ok loc' →
          (d.moveTo loc).proceedBy (n + 1) = (d.moveTo loc').proceedBy n := by
        intro loc loc' hnext
        show ((d.moveTo loc).proceed >>= proceedBy n) = _
        have hproceed : (d.moveTo loc).proceed = .ok (d.moveTo loc') :=
          bind_eq_ok_iff.2 ⟨loc', hnext, rfl⟩
        rw [hproceed]
        rfl
      cases h with
      | stop =>
          -- Nowhere is followed by itself, so the empty tour goes on for ever.
          rw [hstep rfl]
          exact ih .stop
      | go hnext hrest =>
          rw [hstep hnext, List.getElem?_cons_succ]
          exact ih hrest

/-- A step ahead and a step back move the draft as they move its location. -/
theorem proceed_back_eq (d : Draft) (loc : Location) :
    ((d.moveTo loc).proceed >>= back) =
      (d.moveTo <$> (loc.next d.func.layout >>= fun loc => loc.prev d.func.layout)) := by
  show ((loc.next d.func.layout >>= fun next => pure (d.moveTo next)) >>= back) = _
  cases loc.next d.func.layout with
  | error fault => rfl
  | ok next => exact (map_eq_pure_bind d.moveTo (next.prev d.func.layout)).symm

/-- A draft that goes ahead from its entry meets the instructions in the order of iteration, those
of each block between its top and its bottom. It comes to nowhere after one step for each
instruction and two for each block, and stays there. A step ahead from the top of a block or from an
instruction is undone by a step back. -/
theorem walk_follows_layout {d : Draft} (h : d.func.layout.Reached) :
    (∃ trace : Nat → Location,
      (∀ n, d.moveToEntry.proceedBy n = .ok (d.moveTo (trace n))) ∧
      (List.range (d.func.layout.allInsts.length + 2 * d.func.layout.blockOrder.length)).map trace =
        d.func.layout.locations ∧
      ∀ n, trace n = .nowhere ↔
        d.func.layout.allInsts.length + 2 * d.func.layout.blockOrder.length ≤ n) ∧
    d.func.layout.locations.filterMap Location.inst? = d.func.layout.allInsts ∧
    (∀ b, d.func.layout.blockInserted b = true →
      ((d.moveTo (.top b)).proceed >>= back) = .ok (d.moveTo (.top b))) ∧
    ∀ i, d.func.layout.instInserted i = true →
      ((d.moveTo (.inst i)).proceed >>= back) = .ok (d.moveTo (.inst i)) := by
  have hl := h.sound
  rw [← d.func.layout.length_locations]
  refine ⟨⟨fun n => d.func.layout.locations[n]?.getD .nowhere, ?_, ?_, ?_⟩,
    d.func.layout.filterMap_inst?_locations, ?_, ?_⟩
  · exact proceedBy_of_tours hl.tours_entry
  · refine List.ext_getElem (by simp) fun n hn hn' => ?_
    simp [hn']
  · intro n
    constructor
    · intro hn
      by_contra hlt
      have hlt : n < d.func.layout.locations.length := by omega
      refine d.func.layout.nowhere_notMem_locations ?_
      rw [← hn]
      simp [List.getElem?_eq_getElem hlt]
    · intro hn
      simp [List.getElem?_eq_none hn]
  · intro b hb
    rw [proceed_back_eq, hl.prev_next_top (hl.blockInserted_iff.1 hb)]
    rfl
  · intro i hi
    obtain ⟨b, hb⟩ := hl.instInserted_iff.1 hi
    rw [proceed_back_eq, hl.prev_next_inst hb]
    rfl

/-- The second block is empty, and the first one got its first instruction last. -/
theorem walk_follows_layout_twoBlocks : ∃ d : Draft, d.func.layout.Reached ∧
    d.func.layout.allInsts = [⟨1⟩, ⟨0⟩] ∧ d.func.layout.blockOrder = [⟨0⟩, ⟨1⟩] ∧
    d.moveToEntry.proceedBy 2 = .ok (d.moveTo (.inst ⟨0⟩)) ∧
    d.moveToEntry.proceedBy 5 = .ok (d.moveTo (.bottom ⟨1⟩)) ∧
    d.moveToEntry.proceedBy 6 = .ok (d.moveTo .nowhere) ∧
    ((d.moveTo (.top ⟨1⟩)).proceed >>= back) = .ok (d.moveTo (.top ⟨1⟩)) := by
  have hrun : succeeds ([Layout.Edit.appendBlock ⟨0⟩, .appendBlock ⟨1⟩, .appendInst ⟨0⟩ ⟨0⟩,
      .prependInst ⟨1⟩ ⟨0⟩].foldlM Layout.edit .empty)
      (fun l => l.allInsts = [⟨1⟩, ⟨0⟩] && l.blockOrder = [⟨0⟩, ⟨1⟩] && l.blockInserted ⟨1⟩ &&
        l.locations = [.top ⟨0⟩, .inst ⟨1⟩, .inst ⟨0⟩, .bottom ⟨0⟩, .top ⟨1⟩, .bottom ⟨1⟩]) =
      true := by
    decide +kernel
  obtain ⟨l, hl, hrun⟩ := exists_of_succeeds hrun
  simp only [Bool.and_eq_true, decide_eq_true_eq] at hrun
  obtain ⟨⟨⟨hinsts, horder⟩, hinserted⟩, hlocations⟩ := hrun
  have hreached : l.Reached := ⟨_, hl⟩
  let d : Draft := ⟨⟨0⟩, ⟨[], .empty, l⟩, .nowhere⟩
  obtain ⟨⟨trace, hwalk, hmet, hnowhere⟩, -, htop, -⟩ := walk_follows_layout (d := d) hreached
  have hcount : l.allInsts.length + 2 * l.blockOrder.length = 6 := by rw [hinsts, horder]; rfl
  have hmet : (List.range 6).map trace =
      [.top ⟨0⟩, .inst ⟨1⟩, .inst ⟨0⟩, .bottom ⟨0⟩, .top ⟨1⟩, .bottom ⟨1⟩] := by
    rw [← hcount, ← hlocations]
    exact hmet
  have hthird : trace 2 = .inst ⟨0⟩ := Option.some.inj (congrArg (·[2]?) hmet)
  have hlast : trace 5 = .bottom ⟨1⟩ := Option.some.inj (congrArg (·[5]?) hmet)
  refine ⟨d, hreached, hinsts, horder, ?_, ?_, ?_, htop ⟨1⟩ hinserted⟩
  · rw [hwalk 2, hthird]
  · rw [hwalk 5, hlast]
  · rw [hwalk 6, (hnowhere 6).2 (Nat.le_of_eq hcount)]

end Draft

end Pointee
