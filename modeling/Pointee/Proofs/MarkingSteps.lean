import Mathlib.Logic.Relation
import Pointee.Marking
import Pointee.Proofs.Building

/-!
# The edits of marking

Marking makes three kinds of edits, and `Function.MarkStep` lists them: it wraps an operand with a
marker, it puts a marker behind the instruction that defines an address, and it lets a consumer of
the address take the marker's value instead. `Marking.markFunction_marked` says that whatever the
outcome of a run, the function it leaves is reached by such edits from the one it was given. What a
run keeps is then shown for one edit at a time. What each part of a run comes down to in a function
that need not be sound is said first, by `Function.WrapsSlots` for operands and by
`Function.wrapResult_eq_ok` for results.
-/

namespace Pointee

/-- Whether the instruction defines a new address, which marking wraps. -/
def Inst.makesAddress : Inst → Bool
  | gep .. | alloca .. => true
  | _ => false

namespace Function

variable {start : Nat} {i : InstId} {f f' f₀ : Function}

/-! ## What wrapping comes down to -/

/-- Wrapping an operand inserts a marker and sets the operand to a value. -/
theorem wrapOperand_inserts {slot : Nat} (h : f.wrapOperand i slot = .ok f') :
    ∃ v ty loc ins mid w, f.insert loc (.marker v ty) = .ok (ins, mid) ∧
      mid.setOperand i slot w = .ok f' := by
  obtain ⟨v, -, hrest⟩ := bind_eq_ok_iff.1 h
  obtain ⟨ty, -, hrest⟩ := bind_eq_ok_iff.1 hrest
  obtain ⟨loc, -, hrest⟩ := bind_eq_ok_iff.1 hrest
  obtain ⟨⟨ins, mid⟩, hinsert, hset⟩ := bind_eq_ok_iff.1 hrest
  obtain ⟨w, hw⟩ := result_of_insert (e := .cast .bitcast v ty) hinsert
  dsimp only at hset
  rw [hw] at hset
  exact ⟨v, ty, loc, ins, mid, w, hinsert, hset⟩

/-- An operand is left alone, or it is the address of a global and wrapped. -/
theorem wrapGlobal_eq_ok {slots slots' : List Nat} {slot : Nat}
    (h : wrapGlobal i (slots, f) slot = .ok (slots', f')) :
    slots' = slots ∧ f' = f ∨
      (∃ v id ty, f.graph.operand i slot = .ok v ∧ f.graph.value v = .ok (.global id ty)) ∧
        slots' = slots ++ [slot] ∧ f.wrapOperand i slot = .ok f' := by
  obtain ⟨v, hv, hrest⟩ := bind_eq_ok_iff.1 h
  obtain ⟨val, hval, hrest⟩ := bind_eq_ok_iff.1 hrest
  cases val with
  | global id ty =>
      obtain ⟨mid, hwrap, hrest⟩ := bind_eq_ok_iff.1 hrest
      cases pure_eq_ok_iff.1 hrest
      exact .inr ⟨⟨v, id, ty, hv, hval⟩, rfl, hwrap⟩
  | _ =>
      cases pure_eq_ok_iff.1 hrest
      exact .inl ⟨rfl, rfl⟩

/-- The pointer operand is left alone if it is wrapped already, and wrapped otherwise. -/
theorem wrapPointer_eq_ok {slots slots' : List Nat}
    (h : f.wrapPointer i slots = .ok (slots', f')) :
    ∃ inst, f.graph.inst i = .ok inst ∧
      ((∀ slot, inst.pointerSlot? = some slot → slot ∈ slots) ∧ slots' = slots ∧ f' = f ∨
        ∃ slot, inst.pointerSlot? = some slot ∧ slots' = slots ++ [slot] ∧
          f.wrapOperand i slot = .ok f') := by
  obtain ⟨inst, hinst, hrest⟩ := bind_eq_ok_iff.1 h
  refine ⟨inst, hinst, ?_⟩
  cases hslot : inst.pointerSlot? with
  | none =>
      simp only [hslot] at hrest
      cases pure_eq_ok_iff.1 hrest
      exact .inl ⟨by simp, rfl, rfl⟩
  | some slot =>
      simp only [hslot] at hrest
      split at hrest
      · next hmem =>
          cases pure_eq_ok_iff.1 hrest
          refine .inl ⟨fun slot' heq => ?_, rfl, rfl⟩
          cases heq
          exact hmem
      · obtain ⟨mid, hwrap, hrest⟩ := bind_eq_ok_iff.1 hrest
        cases pure_eq_ok_iff.1 hrest
        exact .inr ⟨slot, rfl, rfl, hwrap⟩

/-- The function `f'` is `f` after wrapping the given operands of `i`, one after another. -/
inductive WrapsSlots (i : InstId) (f : Function) : List Nat → Function → Prop
  | refl : WrapsSlots i f [] f
  | wrap {slots : List Nat} {s : Nat} {g g' : Function} :
      WrapsSlots i f slots g → g.wrapOperand i s = .ok g' → WrapsSlots i f (slots ++ [s]) g'

theorem WrapsSlots.trans {g g' : Function} {slots more : List Nat} (h : f.WrapsSlots i slots g)
    (hrun : more.foldlM (wrapOperand i) g = .ok g') : f.WrapsSlots i (slots ++ more) g' := by
  induction more generalizing slots g with
  | nil =>
      cases pure_eq_ok_iff.1 hrun
      simpa using h
  | cons s more ih =>
      rw [List.foldlM_cons] at hrun
      obtain ⟨g₁, hg₁, hrun⟩ := bind_eq_ok_iff.1 hrun
      simpa using ih (h.wrap hg₁) hrun

theorem wrapGlobals_wraps {slots : List Nat} (h : f.wrapGlobals i = .ok (slots, f')) :
    f.WrapsSlots i slots f' := by
  obtain ⟨inst, -, hloop⟩ := bind_eq_ok_iff.1 h
  refine foldlM_invariant (P := fun state => f.WrapsSlots i state.1 state.2) ?_ .refl hloop
  rintro ⟨slots, g⟩ ⟨slots', g'⟩ s - hstate hround
  rcases wrapGlobal_eq_ok hround with ⟨rfl, rfl⟩ | ⟨-, rfl, hwrap⟩
  · exact hstate
  · exact hstate.wrap hwrap

/-- After wrapping the pointer operand, it is among those that were wrapped. -/
theorem WrapsSlots.wrapPointer {g g' : Function} {slots slots' : List Nat}
    (h : f.WrapsSlots i slots g) (hrun : g.wrapPointer i slots = .ok (slots', g')) :
    f.WrapsSlots i slots' g' ∧ ∀ s, g.InstIs i (·.pointerSlot? = some s) → s ∈ slots' := by
  obtain ⟨inst, hinst, ⟨hmem, rfl, rfl⟩ | ⟨slot, hslot, rfl, hwrap⟩⟩ := wrapPointer_eq_ok hrun
  · exact ⟨h, fun s his => hmem s (his.of_inst hinst)⟩
  · refine ⟨h.wrap hwrap, fun s his => ?_⟩
    cases hslot.symm.trans (his.of_inst hinst)
    simp

/-- What setting one operand after another keeps holds after redirecting a consumer. -/
theorem redirect_invariant {P : Function → Prop} {old new : ValueId} {user : InstId}
    (hset : ∀ g g' slot, P g → g.graph.operand user slot = .ok old →
      g.setOperand user slot new = .ok g' → P g')
    (hf : P f) (h : f.redirect old new user = .ok f') : P f' := by
  obtain ⟨inst, -, hloop⟩ := bind_eq_ok_iff.1 h
  refine foldlM_invariant (P := P) (fun g g' slot _ hg hround => ?_) hf hloop
  obtain ⟨v, hv, hrest⟩ := bind_eq_ok_iff.1 hround
  split at hrest
  · next heq =>
      subst heq
      exact hset g g' slot hg hv hrest
  · cases pure_eq_ok_iff.1 hrest
    exact hg

/-- Without a result there is nothing to wrap; with one, a marker goes behind it, and the other
consumers are redirected to the marker's value. -/
theorem wrapResult_eq_ok {n : Nat} (h : f.wrapResult i = .ok (n, f')) :
    f.graph.result? i = none ∧ n = 0 ∧ f' = f ∨
      ∃ v ty ins mid w, f.graph.result? i = some v ∧ n = 1 ∧ f.graph.typeOf v = .ok ty ∧
        f.insert (.inst i) (.marker v ty) = .ok (ins, mid) ∧ ins.result = some w ∧
        ((mid.graph.usersOf v).filter (· ≠ ins.inst)).foldlM (redirect v w) mid = .ok f' := by
  unfold wrapResult at h
  cases hresult : f.graph.result? i with
  | none =>
      simp only [hresult] at h
      cases pure_eq_ok_iff.1 h
      exact .inl ⟨rfl, rfl, rfl⟩
  | some v =>
      simp only [hresult] at h
      obtain ⟨ty, hty, hrest⟩ := bind_eq_ok_iff.1 h
      obtain ⟨⟨ins, mid⟩, hinsert, hrest⟩ := bind_eq_ok_iff.1 hrest
      obtain ⟨w, hw⟩ := result_of_insert (e := .cast .bitcast v ty) hinsert
      dsimp only at hrest
      rw [hw] at hrest
      obtain ⟨last, hloop, hrest⟩ := bind_eq_ok_iff.1 hrest
      cases pure_eq_ok_iff.1 hrest
      exact .inr ⟨v, ty, ins, mid, w, rfl, rfl, hty, hinsert, hw, hloop⟩

/-! ## Edits -/

/-- One edit that marking makes for the instruction `i`. The instructions from `start` on are the
markers made so far. -/
inductive MarkStep (start : Nat) (i : InstId) (f : Function) : Function → Prop
  /-- A marker wraps an operand of `i`; of a phi, only the address of a global. -/
  | wrap {slot : Nat} {v : ValueId} {ty : Ty} {f' : Function} :
      i.index < start → f.graph.typeOf v = .ok ty →
      (∀ inst, f.graph.inst i = .ok inst → inst.isPhi = true →
        ∃ g gty, f.graph.value v = .ok (.global g gty)) →
      f.Interposes i slot v (.marker v ty) ty f' → MarkStep start i f f'
  /-- A marker wraps the address that `i` defines, directly behind it. -/
  | follow {inst : Inst} {v : ValueId} {ty : Ty} {b : BlockId} {front back : List InstId}
      {f' : Function} :
      i.index < start → f.graph.inst i = .ok inst → inst.makesAddress = true →
      f.graph.result? i = some v → f.graph.typeOf v = .ok ty →
      f.Inserts b (front ++ [i]) (.marker v ty) ty back f' → MarkStep start i f f'
  /-- A consumer of the address takes the value of the marker behind `i` instead. -/
  | redirect {user m : InstId} {slot : Nat} {old new : ValueId} {ty : Ty} {b : BlockId}
      {front back : List InstId} {f' : Function} :
      f.graph.result? i = some old → f.graph.operand user slot = .ok old →
      f.layout.instsOf b = front ++ i :: m :: back → start ≤ m.index → user ≠ m →
      f.graph.inst m = .ok (.marker old ty) → f.graph.value new = .ok (.inst m ty) →
      f.Rewires user slot new f' → MarkStep start i f f'

theorem MarkStep.keeps (h : f.MarkStep start i f') (hf : f.Sound) : f.Extends f' ∧ f'.Sound := by
  cases h with
  | wrap _ _ _ hinter => exact ⟨hinter.extends hf, hinter.sound⟩
  | follow _ _ _ _ _ hins => exact ⟨hins.extends hf, hins.sound⟩
  | redirect _ _ _ _ _ _ _ hrewires => exact ⟨hrewires.extends hf, hrewires.sound hf⟩

theorem MarkStep.instIs_iff (h : f.MarkStep start i f') {P : Inst → Prop} (hP : Inst.OfShape P)
    (hnew : ∀ v ty, ¬ P (.marker v ty)) (j : InstId) : f'.InstIs j P ↔ f.InstIs j P := by
  cases h with
  | wrap _ _ _ hinter => exact hinter.instIs_iff hP (hnew _ _) j
  | follow _ _ _ _ _ hins => exact hins.instIs_iff (hnew _ _) j
  | redirect _ _ _ _ _ _ _ hrewires => exact hrewires.instIs_iff hP j

/-- `f'` is reached from `f` by edits that marking makes for the instruction `i`. -/
def MarkedFor (start : Nat) (i : InstId) : Function → Function → Prop :=
  Relation.ReflTransGen (MarkStep start i)

/-- `f'` is reached from `f` by edits that marking makes. -/
def Marked (start : Nat) : Function → Function → Prop :=
  Relation.ReflTransGen fun f f' => ∃ i, f.MarkStep start i f'

theorem MarkedFor.invariant {P : Function → Prop} (h : f₀.MarkedFor start i f) (hf₀ : f₀.Sound)
    (h₀ : P f₀) (hstep : ∀ f f', f₀.Extends f → f.Sound → P f → f.MarkStep start i f' → P f') :
    f₀.Extends f ∧ f.Sound ∧ P f :=
  invariant_of_edits (fun _ _ hf hedit => hedit.keeps hf) h hf₀ h₀ hstep

theorem Marked.invariant {P : Function → Prop} (h : f₀.Marked start f) (hf₀ : f₀.Sound) (h₀ : P f₀)
    (hstep : ∀ f f' i, f₀.Extends f → f.Sound → P f → f.MarkStep start i f' → P f') :
    f₀.Extends f ∧ f.Sound ∧ P f := by
  refine invariant_of_edits (fun _ _ hf hedit => ?_) h hf₀ h₀ ?_
  · obtain ⟨i, hedit⟩ := hedit
    exact hedit.keeps hf
  · rintro f f' hextends hf hP ⟨i, hedit⟩
    exact hstep f f' i hextends hf hP hedit

theorem MarkedFor.keeps (h : f₀.MarkedFor start i f) (hf₀ : f₀.Sound) : f₀.Extends f ∧ f.Sound := by
  obtain ⟨hextends, hsound, -⟩ :=
    h.invariant (P := fun _ => True) hf₀ trivial fun _ _ _ _ _ _ => trivial
  exact ⟨hextends, hsound⟩

theorem Marked.keeps (h : f₀.Marked start f) (hf₀ : f₀.Sound) : f₀.Extends f ∧ f.Sound := by
  obtain ⟨hextends, hsound, -⟩ :=
    h.invariant (P := fun _ => True) hf₀ trivial fun _ _ _ _ _ _ _ => trivial
  exact ⟨hextends, hsound⟩

theorem MarkedFor.marked (h : f₀.MarkedFor start i f) : f₀.Marked start f :=
  Relation.ReflTransGen.mono (fun _ _ hstep => ⟨i, hstep⟩) _ _ h

theorem MarkedFor.step (h : f₀.MarkedFor start i f) (hstep : f.MarkStep start i f') :
    f₀.MarkedFor start i f' := h.tail hstep

/-! ## Wrapping operands -/

/-- An operand whose type and location are known can be wrapped. -/
theorem Sound.wrapOperand_of (hf : f.Sound) {slot : Nat} {v : ValueId} {ty : Ty} {loc : Location}
    (hv : f.graph.operand i slot = .ok v) (hty : f.graph.typeOf v = .ok ty)
    (hloc : f.operandLocation i slot = .ok loc) :
    ∃ f', f.wrapOperand i slot = .ok f' ∧ f.Interposes i slot v (.marker v ty) ty f' := by
  have hmarker : f.graph.resultType (.marker v ty) = .ok (some ty) := rfl
  obtain ⟨mid, f', hmid, hset, hinter⟩ := hf.interpose hv hloc hmarker
  exact ⟨f', bind_eq_ok_iff.2 ⟨v, hv, bind_eq_ok_iff.2 ⟨ty, hty, bind_eq_ok_iff.2 ⟨loc, hloc,
    bind_eq_ok_iff.2 ⟨_, hmid, hset⟩⟩⟩⟩, hinter⟩

/-- What wrapping an operand does. -/
theorem Sound.wrapOperand_eq_ok (hf : f.Sound) {slot : Nat} (h : f.wrapOperand i slot = .ok f') :
    ∃ v ty, f.graph.typeOf v = .ok ty ∧ f.Interposes i slot v (.marker v ty) ty f' := by
  obtain ⟨v, hv, hrest⟩ := bind_eq_ok_iff.1 h
  obtain ⟨ty, hty, hrest⟩ := bind_eq_ok_iff.1 hrest
  obtain ⟨loc, hloc, -⟩ := bind_eq_ok_iff.1 hrest
  obtain ⟨g, hg, hinter⟩ := hf.wrapOperand_of hv hty hloc
  cases h.symm.trans hg
  exact ⟨v, ty, hty, hinter⟩

theorem wrapGlobals_marked (hf₀ : f₀.Sound) (hf : f₀.MarkedFor start i f) (hi : i.index < start)
    {wrapped : List Nat} (h : f.wrapGlobals i = .ok (wrapped, f')) : f₀.MarkedFor start i f' := by
  obtain ⟨inst, -, hloop⟩ := bind_eq_ok_iff.1 h
  refine foldlM_invariant (P := fun state => f₀.MarkedFor start i state.2) ?_ hf hloop
  rintro ⟨_, g⟩ ⟨_, g'⟩ slot - hg hround
  rcases wrapGlobal_eq_ok hround with ⟨-, rfl⟩ | ⟨⟨v, id, gty, hv, hval⟩, -, hwrap⟩
  · exact hg
  · obtain ⟨w, ty, hty, hinter⟩ := (hg.keeps hf₀).2.wrapOperand_eq_ok hwrap
    cases hv.symm.trans hinter.operand
    exact hg.step (.wrap hi hty (fun _ _ _ => ⟨id, gty, hval⟩) hinter)

theorem wrapOperand_marked (hf₀ : f₀.Sound) (hf : f₀.MarkedFor start i f) (hi : i.index < start)
    (hphi : ¬ f.InstIs i (·.isPhi = true)) {slot : Nat} (h : f.wrapOperand i slot = .ok f') :
    f₀.MarkedFor start i f' := by
  obtain ⟨v, ty, hty, hinter⟩ := (hf.keeps hf₀).2.wrapOperand_eq_ok h
  exact hf.step (.wrap hi hty (fun inst hinst his => absurd ⟨inst, hinst, his⟩ hphi) hinter)

theorem wrapPointer_marked (hf₀ : f₀.Sound) (hf : f₀.MarkedFor start i f) (hi : i.index < start)
    {wrapped wrapped' : List Nat} (h : f.wrapPointer i wrapped = .ok (wrapped', f')) :
    f₀.MarkedFor start i f' := by
  obtain ⟨inst, hinst, ⟨-, -, rfl⟩ | ⟨slot, hslot, -, hwrap⟩⟩ := wrapPointer_eq_ok h
  · exact hf
  · refine wrapOperand_marked hf₀ hf hi (fun his => ?_) hwrap
    have hphi := his.of_inst hinst
    cases inst with
    | phi => cases hslot
    | _ => cases hphi

/-- Any operands of an instruction that is no phi may be wrapped one after another. -/
theorem wrapOperands_marked (hf₀ : f₀.Sound) (hf : f₀.MarkedFor start i f) (hi : i.index < start)
    (hphi : ¬ f.InstIs i (·.isPhi = true)) {slots : List Nat}
    (h : slots.foldlM (wrapOperand i) f = .ok f') : f₀.MarkedFor start i f' := by
  have hloop : f₀.MarkedFor start i f' ∧ ¬ f'.InstIs i (·.isPhi = true) := by
    refine foldlM_invariant
      (P := fun g => f₀.MarkedFor start i g ∧ ¬ g.InstIs i (·.isPhi = true)) ?_ ⟨hf, hphi⟩ h
    rintro g g' slot - ⟨hg, hphi⟩ hround
    refine ⟨wrapOperand_marked hf₀ hg hi hphi hround, ?_⟩
    obtain ⟨v, ty, -, hinter⟩ := (hg.keeps hf₀).2.wrapOperand_eq_ok hround
    rwa [hinter.instIs_iff Inst.ofShape_isPhi (by simp [Inst.marker, Inst.isPhi])]
  exact hloop.1

/-! ## Wrapping results -/

/-- The marker `m` stands directly behind `i` and wraps the value `old` that `i` defines. -/
structure Follows (f : Function) (i m : InstId) (old new : ValueId) : Prop where
  result : f.graph.result? i = some old
  row : ∃ b front back, f.layout.instsOf b = front ++ i :: m :: back
  marker : ∃ ty, f.graph.inst m = .ok (.marker old ty) ∧ f.graph.value new = .ok (.inst m ty)

variable {m user : InstId} {old new : ValueId}

theorem Follows.rewires (h : f.Follows i m old new) (hm : user ≠ m) {slot : Nat} {v : ValueId}
    (hrewires : f.Rewires user slot v f') : f'.Follows i m old new where
  result := (hrewires.graph.result?_eq i).trans h.result
  row := by rw [hrewires.layout]; exact h.row
  marker := by
    obtain ⟨ty, hinst, hvalue⟩ := h.marker
    exact ⟨ty, (hrewires.graph.inst_of_ne (Ne.symm hm)).trans hinst,
      (hrewires.graph.value_eq new).trans hvalue⟩

/-- Letting a consumer take the marker's value is an edit of marking. -/
theorem redirect_marked (hf : f₀.MarkedFor start i f) (hfollows : f.Follows i m old new)
    (hstart : start ≤ m.index) (hm : user ≠ m) (h : f.redirect old new user = .ok f') :
    f₀.MarkedFor start i f' ∧ f'.Follows i m old new := by
  refine redirect_invariant (P := fun g => f₀.MarkedFor start i g ∧ g.Follows i m old new)
    (fun g g' slot hg hv hset => ?_) ⟨hf, hfollows⟩ h
  obtain ⟨hg, hgfollows⟩ := hg
  have hrewires := setOperand_rewires hset
  obtain ⟨b, front, back, hrow⟩ := hgfollows.row
  obtain ⟨ty, hmarker, hnew⟩ := hgfollows.marker
  exact ⟨hg.step (.redirect hgfollows.result hv hrow hstart hm hmarker hnew hrewires),
    hgfollows.rewires hm hrewires⟩

/-- The marker of a result can be inserted directly behind an instruction that has a place. -/
theorem Sound.follow (hf : f.Sound) {v : ValueId} (ty : Ty) {b : BlockId}
    {front back : List InstId} (hrow : f.layout.instsOf b = front ++ i :: back)
    (hresult : f.graph.result? i = some v) :
    ∃ mid, f.insert (.inst i) (.marker v ty) =
        .ok (⟨f.graph.nextInst, some f.graph.nextValue⟩, mid) ∧
      f.Inserts b (front ++ [i]) (.marker v ty) ty back mid ∧
      mid.Follows i f.graph.nextInst v f.graph.nextValue := by
  have hi : i ∈ f.layout.instsOf b := by rw [hrow]; simp
  have hs : (Location.inst i).Splits f.layout b (front ++ [i]) back :=
    ⟨hf.layout.mem_order hi, by simpa using hrow, by simp⟩
  have hmarker : f.graph.resultType (.marker v ty) = .ok (some ty) := rfl
  obtain ⟨mid, hmid, hins⟩ := hf.insert_total hs hmarker
  refine ⟨mid, hmid, hins, ?_, ⟨b, front, back, ?_⟩, ⟨ty, hins.inst_new, hins.value_new⟩⟩
  · rw [hins.result?, if_neg, hresult]
    rintro rfl
    exact hf.nextInst_fresh b hi
  · simpa using hins.layout.row_after

theorem wrapResult_marked (hf₀ : f₀.Sound) (hf : f₀.MarkedFor start i f) (hi : i.index < start)
    (hstart : start ≤ f.graph.insts.size) {inst : Inst} (hinst : f.graph.inst i = .ok inst)
    (hmakes : inst.makesAddress = true) {count : Nat}
    (h : f.wrapResult i = .ok (count, f')) : f₀.MarkedFor start i f' := by
  have hsound := (hf.keeps hf₀).2
  rcases wrapResult_eq_ok h with ⟨-, -, rfl⟩ |
    ⟨v, ty, ins, mid, w, hresult, -, hty, hmid, hw, hloop⟩
  · exact hf
  obtain ⟨b, front', back, hb, hsplit, hlast⟩ := hsound.splits_of_insert hmid
  obtain ⟨front, rfl⟩ := List.getLast?_eq_some_iff.1 hlast
  obtain ⟨mid', hmid', hins, hfollows⟩ := hsound.follow ty (by simpa using hsplit) hresult
  cases hmid.symm.trans hmid'
  cases hw
  have hfirst := hf.step (.follow hi hinst hmakes hresult hty hins)
  refine (foldlM_invariant (P := fun g => f₀.MarkedFor start i g ∧
    g.Follows i f.graph.nextInst v f.graph.nextValue) ?_ ⟨hfirst, hfollows⟩ hloop).1
  rintro g g' user huser ⟨hg, hgfollows⟩ hround
  have hne : user ≠ f.graph.nextInst := by simpa using (List.mem_filter.1 huser).2
  exact redirect_marked hg hgfollows hstart hne hround

end Function

/-! ## Runs of marking -/

namespace Marking

variable {ctx : Context} {start : Nat} {i : InstId} {s t : Marking} {f₀ : Function}

theorem exec_edit {α : Type} (step : Function → Except Fault (α × Function)) (s : Marking) :
    (edit step).exec s = step s.func >>= fun (a, func) => .ok (.ok a, { s with func }) := by
  unfold edit
  rw [Pass.exec_bind_of_ok (Pass.exec_get s)]
  cases hstep : step s.func with
  | error fault => rfl
  | ok result => rfl

/-- An edit either meets a fault or changes the function as its step does. -/
theorem edit_eq_ok {α : Type} {step : Function → Except Fault (α × Function)}
    {r : Except Refusal α} (h : (edit step).exec s = .ok (r, t)) :
    ∃ a, r = .ok a ∧ step s.func = .ok (a, t.func) := by
  rw [exec_edit] at h
  obtain ⟨⟨a, func⟩, hstep, hrest⟩ := bind_eq_ok_iff.1 h
  cases hrest
  exact ⟨a, rfl, hstep⟩

theorem annotated_eq_ok {callee : FuncId} {r : Except Refusal TypedSignature}
    (h : (annotated ctx callee).exec s = .ok (r, t)) :
    (TypedSignature.annotated ctx callee).exec s.types = .ok (r, t.types) ∧ t.func = s.func := by
  obtain ⟨⟨r, types⟩, hrun, hrest⟩ := bind_eq_ok_iff.1 h
  cases pure_eq_ok_iff.1 hrest
  exact ⟨hrun, rfl⟩

/-- What marking does for the arguments of a call. -/
theorem markCall_eq_ok {wrapped : List Nat} {r : Except Refusal Nat}
    (h : (markCall ctx i wrapped).exec s = .ok (r, t)) :
    ∃ site, s.func.graph.site i = .ok site ∧
      ((∀ callee args, site ≠ .call callee args) ∧ r = .ok 0 ∧ t.func = s.func ∨
        ∃ callee args, site = .call callee args ∧
          ((∃ e, r = .error e) ∧ t.func = s.func ∨
            ∃ typed types slots,
              (TypedSignature.annotated ctx callee).exec s.types = .ok (.ok typed, types) ∧
              slots = ((List.range args.length).filter fun slot =>
                (typed.arg? slot).isSome && slot ∉ wrapped) ∧
              r = .ok slots.length ∧
              slots.foldlM (Function.wrapOperand i) s.func = .ok t.func)) := by
  rw [markCall, Pass.exec_bind_of_ok (Pass.exec_get s), Pass.exec_liftM_bind] at h
  obtain ⟨site, hsite, hrest⟩ := bind_eq_ok_iff.1 h
  refine ⟨site, hsite, ?_⟩
  cases site with
  | call callee args =>
      refine .inr ⟨callee, args, rfl, ?_⟩
      rcases Pass.exec_bind_cases hrest with ⟨e, hr, hrefused⟩ | ⟨typed, mid, hmid, hedit⟩
      · exact .inl ⟨⟨e, hr⟩, (annotated_eq_ok hrefused).2⟩
      · obtain ⟨htyped, hfunc⟩ := annotated_eq_ok hmid
        obtain ⟨_, hr, hrun⟩ := edit_eq_ok hedit
        obtain ⟨func, hloop, hrun⟩ := bind_eq_ok_iff.1 hrun
        cases pure_eq_ok_iff.1 hrun
        rw [hfunc] at hloop
        exact .inr ⟨typed, _, _, htyped, rfl, hr, hloop⟩
  | _ =>
      cases hrest
      refine .inl ⟨?_, rfl, rfl⟩
      intro callee args heq
      cases heq

/-- What marking does for the result of an instruction. -/
theorem markResult_eq_ok {r : Except Refusal Nat} (h : (markResult i).exec s = .ok (r, t)) :
    ∃ inst, s.func.graph.inst i = .ok inst ∧
      (inst.makesAddress = false ∧ r = .ok 0 ∧ t.func = s.func ∨
        inst.makesAddress = true ∧ ∃ n, r = .ok n ∧ s.func.wrapResult i = .ok (n, t.func)) := by
  rw [markResult, Pass.exec_bind_of_ok (Pass.exec_get s), Pass.exec_liftM_bind] at h
  obtain ⟨inst, hinst, hrest⟩ := bind_eq_ok_iff.1 h
  refine ⟨inst, hinst, ?_⟩
  cases inst with
  | gep | alloca => exact .inr ⟨rfl, edit_eq_ok hrest⟩
  | _ =>
      cases hrest
      exact .inl ⟨rfl, rfl, rfl⟩

/-- The four stages of marking an instruction. -/
theorem markInst_ok {count : Nat} (h : (markInst ctx i).exec s = .ok (.ok count, t)) :
    ∃ globals wrapped arguments results, ∃ s₁ s₂ s₃ : Marking,
      s.func.wrapGlobals i = .ok (globals, s₁.func) ∧
      s₁.func.wrapPointer i globals = .ok (wrapped, s₂.func) ∧
      (markCall ctx i wrapped).exec s₂ = .ok (.ok arguments, s₃) ∧
      (markResult i).exec s₃ = .ok (.ok results, t) ∧
      count = wrapped.length + arguments + results := by
  obtain ⟨globals, s₁, h₁, h⟩ := Pass.exec_bind_eq_ok.1 h
  obtain ⟨wrapped, s₂, h₂, h⟩ := Pass.exec_bind_eq_ok.1 h
  obtain ⟨arguments, s₃, h₃, h⟩ := Pass.exec_bind_eq_ok.1 h
  obtain ⟨results, s₄, h₄, h⟩ := Pass.exec_bind_eq_ok.1 h
  cases h
  obtain ⟨_, heq₁, hrun₁⟩ := edit_eq_ok h₁
  cases heq₁
  obtain ⟨_, heq₂, hrun₂⟩ := edit_eq_ok h₂
  cases heq₂
  exact ⟨globals, wrapped, arguments, results, s₁, s₂, s₃, hrun₁, hrun₂, h₃, h₄, rfl⟩

/-- The function is reached from `f₀` by edits that marking makes for `i`. -/
def Reached (start : Nat) (i : InstId) (f₀ : Function) (s : Marking) : Prop :=
  f₀.MarkedFor start i s.func

theorem edit_preserves {α : Type} {step : Function → Except Fault (α × Function)}
    (hstep : ∀ f a f', f₀.MarkedFor start i f → step f = .ok (a, f') → f₀.MarkedFor start i f') :
    Pass.Preserves (Reached start i f₀) (edit step) := by
  intro s r t hs h
  obtain ⟨a, -, hrun⟩ := edit_eq_ok h
  exact hstep s.func a t.func hs hrun

section Reached

variable (hf₀ : f₀.Sound) (hi : i.index < start)
include hf₀ hi

theorem markCall_preserves (wrapped : List Nat) :
    Pass.Preserves (Reached start i f₀) (markCall ctx i wrapped) := by
  intro s r t hs h
  have hidle (hfunc : t.func = s.func) : Reached start i f₀ t :=
    (congrArg (f₀.MarkedFor start i) hfunc).mpr hs
  obtain ⟨site, hsite, ⟨-, -, hfunc⟩ | ⟨callee, args, rfl, ⟨-, hfunc⟩ |
    ⟨typed, types, slots, -, -, -, hloop⟩⟩⟩ := markCall_eq_ok h
  · exact hidle hfunc
  · exact hidle hfunc
  · refine Function.wrapOperands_marked hf₀ hs hi (fun his => ?_) hloop
    obtain ⟨inst, hinst, hofInst⟩ := bind_eq_ok_iff.1 hsite
    have hisPhi := his.of_inst hinst
    cases inst with
    | phi => cases hofInst
    | _ => cases hisPhi

theorem markResult_preserves (hstart : start ≤ f₀.graph.insts.size) :
    Pass.Preserves (Reached start i f₀) (markResult i) := by
  intro s r t hs h
  have hsize := Nat.le_trans hstart (Function.MarkedFor.keeps hs hf₀).1.size_le
  obtain ⟨inst, hinst, ⟨-, -, hfunc⟩ | ⟨hmakes, n, -, hwrap⟩⟩ := markResult_eq_ok h
  · exact (congrArg (f₀.MarkedFor start i) hfunc).mpr hs
  · exact Function.wrapResult_marked hf₀ hs hi hsize hinst hmakes hwrap

theorem markInst_preserves (hstart : start ≤ f₀.graph.insts.size) :
    Pass.Preserves (Reached start i f₀) (markInst ctx i) := by
  refine (edit_preserves fun f a f' hf h => Function.wrapGlobals_marked hf₀ hf hi h).bind ?_
  intro wrapped
  refine (edit_preserves fun f a f' hf h => Function.wrapPointer_marked hf₀ hf hi h).bind ?_
  intro wrapped
  refine (markCall_preserves hf₀ hi wrapped).bind fun arguments => ?_
  exact (markResult_preserves hf₀ hi hstart).bind fun results => .pure _

end Reached

/-- Whatever the outcome of marking an instruction, edits made for it lead to what it leaves. -/
theorem markInst_marked (hs : s.func.Sound) (hi : i.index < start)
    (hstart : start ≤ s.func.graph.insts.size) {r : Except Refusal Nat}
    (h : (markInst ctx i).exec s = .ok (r, t)) : s.func.MarkedFor start i t.func := by
  have hrefl : Reached start i s.func s := Relation.ReflTransGen.refl
  exact markInst_preserves hs hi hstart s r t hrefl h

/-- Whatever the outcome of marking a function, edits of marking lead to what it leaves. -/
theorem markFunction_marked (hs : s.func.Sound) {r : Except Refusal Nat}
    (h : (markFunction ctx).exec s = .ok (r, t)) :
    s.func.Marked s.func.graph.insts.size t.func := by
  rw [markFunction, Pass.exec_bind_of_ok (Pass.exec_get s)] at h
  have hstart : s.func.Marked s.func.graph.insts.size s.func := Relation.ReflTransGen.refl
  refine Pass.Preserves.foldlM
    (P := fun t => s.func.Marked s.func.graph.insts.size t.func) ?_ 0 s r t hstart h
  intro count i hi
  refine Pass.Preserves.bind (fun mid r t hmid hrun => ?_) fun _ => .pure _
  obtain ⟨hextends, hsound⟩ := hmid.keeps hs
  exact hmid.trans (markInst_marked hsound (hs.lt_of_mem_insts hi) hextends.size_le hrun).marked

end Marking

namespace Module

variable {m m' : Module}

/-- The outcome of marking a function is that of a run of marking on it, if not the function
itself. -/
def MarkOutcome (func func' : Function) : Prop :=
  func' = func ∨ ∃ ctx s r t, (Marking.markFunction ctx).exec s = .ok (r, t) ∧ s.func = func ∧
    t.func = func'

theorem MarkOutcome.marked {func func' : Function} (h : MarkOutcome func func')
    (hfunc : func.Sound) : func.Marked func.graph.insts.size func' := by
  rcases h with rfl | ⟨ctx, s, r, t, hrun, rfl, rfl⟩
  · exact Relation.ReflTransGen.refl
  · exact Marking.markFunction_marked hfunc hrun

/-- Marking one function of a module changes that function and no other. -/
theorem markFunction_eq_ok {f : FuncId} {r : Except Refusal Nat}
    (h : (markFunction f).exec m = .ok (r, m')) :
    m'.funcs.size = m.funcs.size ∧ ∀ id func, m.func id = .ok func →
      ∃ func', m'.func id = .ok func' ∧ MarkOutcome func func' ∧ (id ≠ f → func' = func) := by
  obtain ⟨old, hold, hrest⟩ := bind_eq_ok_iff.1 h
  obtain ⟨⟨r, t⟩, hrun, hrest⟩ := bind_eq_ok_iff.1 hrest
  cases pure_eq_ok_iff.1 hrest
  have hf : f.index < (m.setTypes t.types).funcs.size :=
    (Array.getElem?_eq_some_iff.1 (func_eq_ok.1 hold)).1
  refine ⟨Array.size_setIfInBounds .., fun id func hfunc => ?_⟩
  rw [func_setFunc hf]
  by_cases hid : id = f
  · subst hid
    cases hold.symm.trans hfunc
    exact ⟨t.func, if_pos rfl, .inr ⟨_, _, _, _, hrun, rfl, rfl⟩, fun hne => absurd rfl hne⟩
  · rw [if_neg hid]
    exact ⟨func, hfunc, .inl rfl, fun _ => rfl⟩

/-- Marking functions that are listed once each marks each of them from what it was, and changes no
other. -/
theorem markFunctions_eq_ok {ids : List FuncId} {count : Nat} {r : Except Refusal Nat}
    (hnodup : ids.Nodup)
    (h : (ids.foldlM (fun count f => return count + (← markFunction f)) count).exec m =
      .ok (r, m')) :
    m'.funcs.size = m.funcs.size ∧ ∀ id func, m.func id = .ok func →
      ∃ func', m'.func id = .ok func' ∧ MarkOutcome func func' ∧ (id ∉ ids → func' = func) := by
  induction ids generalizing count m with
  | nil =>
      cases h
      exact ⟨rfl, fun id func hfunc => ⟨func, hfunc, .inl rfl, fun _ => rfl⟩⟩
  | cons f rest ih =>
      obtain ⟨hf, hrest⟩ := List.nodup_cons.1 hnodup
      rw [List.foldlM_cons, bind_assoc, Pass.exec_bind] at h
      cases hone : (markFunction f).exec m with
      | error fault => rw [hone] at h; cases h
      | ok result =>
          obtain ⟨outcome, m₁⟩ := result
          obtain ⟨hsize, hfuncs⟩ := markFunction_eq_ok hone
          rw [hone] at h
          cases outcome with
          | error refusal =>
              cases h
              refine ⟨hsize, fun id func hfunc => ?_⟩
              obtain ⟨func', hfunc', hout, hne⟩ := hfuncs id func hfunc
              exact ⟨func', hfunc', hout, fun hid => hne (List.ne_of_not_mem_cons hid)⟩
          | ok n =>
              obtain ⟨hsize', hfuncs'⟩ := ih hrest h
              refine ⟨hsize'.trans hsize, fun id func hfunc => ?_⟩
              obtain ⟨func₁, hfunc₁, hout₁, hne₁⟩ := hfuncs id func hfunc
              obtain ⟨func₂, hfunc₂, hout₂, hne₂⟩ := hfuncs' id func₁ hfunc₁
              -- The head of the list does not come again, and no other function changed.
              by_cases hid : id = f
              · subst hid
                cases hne₂ hf
                exact ⟨func₁, hfunc₂, hout₁, fun hmem => absurd List.mem_cons_self hmem⟩
              · cases hne₁ hid
                exact ⟨func₂, hfunc₂, hout₂, fun hmem => hne₂ fun hin =>
                  hmem (List.mem_cons_of_mem f hin)⟩

/-- Marking goes through the functions once, so each of them is marked from what it was. -/
theorem mark_eq_ok {r : Except Refusal Bool} (h : mark.exec m = .ok (r, m')) :
    m'.funcs.size = m.funcs.size ∧ ∀ id func, m.func id = .ok func →
      ∃ func', m'.func id = .ok func' ∧ MarkOutcome func func' := by
  rw [mark, Pass.exec_bind_of_ok (Pass.exec_get m), Pass.exec_bind] at h
  cases hrun : (m.funcIds.foldlM (fun count f => return count + (← markFunction f)) 0).exec m with
  | error fault => rw [hrun] at h; cases h
  | ok result =>
      obtain ⟨outcome, m₁⟩ := result
      obtain ⟨hsize, hfuncs⟩ := markFunctions_eq_ok m.nodup_funcIds hrun
      rw [hrun] at h
      have hm : m₁ = m' := by
        cases outcome with
        | error refusal => cases h; rfl
        | ok count => cases h; rfl
      subst hm
      refine ⟨hsize, fun id func hfunc => ?_⟩
      obtain ⟨func', hfunc', hout, -⟩ := hfuncs id func hfunc
      exact ⟨func', hfunc', hout⟩

end Module

end Pointee
