import Pointee.Proofs.Building
import Pointee.Proofs.DemotionRounds

/-!
# Demotion keeps what operands mean

What an operand means is a tree: a constant expression unfolds into its operation over what its
parts mean, and so does the result of an instruction that demotion made. `Function.Replaces` says
how a function and its demotion correspond slot by slot, and is kept by every edit. It implies that
each operand unfolds into the same tree before and after.
-/

namespace Pointee

/-- What an operand means. A computation is given by its kind, its type and what its operands mean.
-/
inductive Tree where
  | leaf (v : ValueId)
  | node (op : Inst) (ty : Ty) (args : List Tree)

instance : Inhabited Tree := ⟨.leaf ⟨0⟩⟩

namespace Graph

variable {g : Graph} {start : Nat} {v : ValueId} {inst : Inst} {ty : Ty} {t : Tree}

/-- The value `v` of type `ty` unfolds into `inst`: it is a constant expression, or the result of an
instruction that was made when there were `start` of them or more. -/
inductive Computes (g : Graph) (start : Nat) (v : ValueId) : Inst → Ty → Prop
  | expr {e : ConstExpr} {ty : Ty} :
      g.value v = .ok (.expr e ty) → Computes g start v e.toInst ty
  | result {i : InstId} {inst : Inst} {ty : Ty} :
      g.value v = .ok (.inst i ty) → start ≤ i.index → g.inst i = .ok inst →
      Computes g start v inst ty

theorem Computes.unique {inst' : Inst} {ty' : Ty} (h : g.Computes start v inst ty)
    (h' : g.Computes start v inst' ty') : inst' = inst ∧ ty' = ty := by
  cases h with
  | expr hv =>
      cases h' with
      | expr hv' => cases hv.symm.trans hv'; exact ⟨rfl, rfl⟩
      | result hv' => cases hv.symm.trans hv'
  | result hv _ hinst =>
      cases h' with
      | expr hv' => cases hv.symm.trans hv'
      | result hv' _ hinst' =>
          cases hv.symm.trans hv'
          cases hinst.symm.trans hinst'
          exact ⟨rfl, rfl⟩

/-- The value `v` unfolds into a tree. -/
inductive Unfolds (g : Graph) (start : Nat) : ValueId → Tree → Prop
  | leaf {v : ValueId} : (∀ inst ty, ¬ g.Computes start v inst ty) → Unfolds g start v (.leaf v)
  | node {v : ValueId} {inst : Inst} {ty : Ty} {args : List Tree} :
      g.Computes start v inst ty → args.length = inst.operands.length →
      (∀ (k : Nat) w t, inst.operands[k]? = some w → args[k]? = some t → Unfolds g start w t) →
      Unfolds g start v (.node inst.shape ty args)

theorem Unfolds.unique {t' : Tree} (h : g.Unfolds start v t) (h' : g.Unfolds start v t') :
    t' = t := by
  induction h generalizing t' with
  | leaf hnot =>
      cases h' with
      | leaf => rfl
      | node hcomp => exact absurd hcomp (hnot _ _)
  | @node v inst ty args hcomp hlen _ ih =>
      cases h' with
      | leaf hnot => exact absurd hcomp (hnot _ _)
      | @node _ _ _ args' hcomp' hlen' hargs' =>
          obtain ⟨rfl, rfl⟩ := hcomp.unique hcomp'
          have heq : args' = args := by
            refine List.ext_getElem (hlen'.trans hlen.symm) fun k hk' hk => ?_
            have hw := List.getElem?_eq_getElem (hlen ▸ hk)
            exact ih k _ _ hw (List.getElem?_eq_getElem hk)
              (hargs' k _ _ hw (List.getElem?_eq_getElem hk'))
          rw [heq]

/-- Before demotion only constant expressions unfold. -/
theorem Sound.computes (hg : g.Sound) (h : g.Computes g.insts.size v inst ty) :
    ∃ e, g.value v = .ok (.expr e ty) ∧ inst = e.toInst := by
  cases h with
  | @expr e _ hv => exact ⟨e, hv, rfl⟩
  | result hv hle => exact absurd (hg.defined_lt _ _ _ hv) (Nat.not_lt.2 hle)

theorem Sound.exists_unfolds (hg : g.Sound) (hexist : g.PartsExist) (hacyclic : g.Acyclic)
    (v : ValueId) : ∃ t, g.Unfolds g.insts.size v t := by
  induction hdepth : g.depth v using Nat.strongRecOn generalizing v with
  | ind depth ih =>
      subst hdepth
      by_cases hcomp : ∃ inst ty, g.Computes g.insts.size v inst ty
      · obtain ⟨inst, ty, hcomp⟩ := hcomp
        obtain ⟨e, hv, rfl⟩ := hg.computes hcomp
        have hparts : ∀ w, w ∈ e.operands → ∃ t, g.Unfolds g.insts.size w t := fun w hw =>
          ih _ (hacyclic.depth_lt hexist ⟨e, ty, hv, hw⟩) w rfl
        choose! tree htree using hparts
        refine ⟨.node e.toInst.shape ty (e.operands.map tree), .node hcomp ?_ fun k w t hw ht => ?_⟩
        · rw [List.length_map, ConstExpr.operands_toInst]
        · rw [ConstExpr.operands_toInst] at hw
          rw [List.getElem?_map, hw] at ht
          cases ht
          exact htree w (List.mem_of_getElem? hw)
      · exact ⟨_, .leaf fun inst ty h => hcomp ⟨inst, ty, h⟩⟩

end Graph

namespace Function

variable {f f₀ f' : Function} {origin : InstId → ValueId} {i user : InstId} {slot : Nat}
  {v w r : ValueId} {e : ConstExpr} {ty : Ty} {rank : ValueId → Nat}

/-- What stood at operand `slot` of `user` before demotion replaced it. For an instruction that
demotion made, these are the parts of the constant expression it replaces, its origin. -/
def Stood (f₀ : Function) (origin : InstId → ValueId) (user : InstId) (slot : Nat) (v : ValueId) :
    Prop :=
  if user.index < f₀.graph.insts.size then f₀.graph.operand user slot = .ok v
  else ∃ e ty, f₀.graph.value (origin user) = .ok (.expr e ty) ∧ e.operands[slot]? = some v

/-- The value `w` stands for `v`: it is `v`, or the result of an instruction whose origin is `v`. -/
def StandsFor (f₀ f : Function) (origin : InstId → ValueId) (w v : ValueId) : Prop :=
  w = v ∨ ∃ i, f₀.graph.insts.size ≤ i.index ∧ origin i = v ∧ f.graph.result? i = some w

/-- How demotion on the way from `f₀` has come to `f`. -/
structure Replaces (f₀ f : Function) (origin : InstId → ValueId) : Prop where
  /-- Constant expressions are not made. -/
  exprs : ∀ v e ty, f.graph.value v = .ok (.expr e ty) → f₀.graph.value v = .ok (.expr e ty)
  /-- An instruction that was made computes its origin. -/
  made : ∀ i, f₀.graph.insts.size ≤ i.index → i.index < f.graph.insts.size →
    ∃ e ty r, f₀.graph.value (origin i) = .ok (.expr e ty) ∧
      Inst.shape <$> f.graph.inst i = .ok e.toInst.shape ∧ f.graph.result? i = some r ∧
      f.graph.value r = .ok (.inst i ty)
  /-- Every operand stands for what stood there before. -/
  slots : ∀ user slot w, f.graph.operand user slot = .ok w →
    ∃ v, f₀.Stood origin user slot v ∧ f₀.StandsFor f origin w v
  /-- An instruction that was made is consumed where its origin stood, and nowhere else. -/
  used : ∀ i r, f₀.graph.insts.size ≤ i.index → f.graph.result? i = some r →
    ∃ user slot, f₀.Stood origin user slot (origin i) ∧
      ∀ user' slot', f.graph.operand user' slot' = .ok r ↔ user' = user ∧ slot' = slot

namespace Replaces

/-- The results of instructions that were made are new. -/
theorem not_has (hf₀ : f₀.Sound) (hext : f₀.Extends f) (hf : f.Sound)
    (hi : f₀.graph.insts.size ≤ i.index) (hr : f.graph.result? i = some r) : ¬ f₀.graph.Has r := by
  intro hhas
  obtain ⟨val, hval⟩ := hhas.exists_value
  obtain ⟨ty, hr⟩ := (hf.graph.result_iff i r).1 hr
  cases hr.symm.trans (hext.keeps r val hval)
  exact absurd (hf₀.graph.defined_lt r i ty hval) (Nat.not_lt.2 hi)

/-- A constant expression that is an operand is what stood there before. -/
theorem stood_expr (h : f₀.Replaces f origin) (hf : f.Sound)
    (hv : f.graph.operand user slot = .ok v) (hval : f.graph.value v = .ok (.expr e ty)) :
    f₀.Stood origin user slot v := by
  obtain ⟨x, hstood, rfl | ⟨i, -, -, hi⟩⟩ := h.slots user slot v hv
  · exact hstood
  · obtain ⟨ty', hinst⟩ := (hf.graph.result_iff i v).1 hi
    cases hval.symm.trans hinst

theorem stood_update {last : InstId} (hne : user ≠ last) :
    f₀.Stood (fun j => if j = last then v else origin j) user slot w ↔
      f₀.Stood origin user slot w := by
  simp only [Stood, if_neg hne]

section Edit

variable (h : f₀.Replaces f origin) (hf₀ : f₀.Sound) (hext : f₀.Extends f)
  (hparts : f₀.graph.PartsExist) (hf : f.Demotable rank)
  (hval : f.graph.value v = .ok (.expr e ty)) (hinter : f.Interposes user slot v e.toInst ty f')
include hf hinter

theorem standsFor_update {x : ValueId} (hw : f₀.StandsFor f origin w x) :
    f₀.StandsFor f' (fun j => if j = f.graph.nextInst then v else origin j) w x := by
  rcases hw with rfl | ⟨i, hi, hx, hr⟩
  · exact .inl rfl
  · have hne : i ≠ f.graph.nextInst := by
      rintro rfl
      cases hr.symm.trans (Graph.result?_eq_none hf.sound.graph (Nat.le_refl _))
    refine .inr ⟨i, hi, (if_neg hne).trans hx, ?_⟩
    rw [hinter.result?_eq, if_neg hne, hr]

include h hf₀ hext hparts hval in
/-- An instruction that was made before is consumed where it was. -/
theorem used_old {r : ValueId} (hi : f₀.graph.insts.size ≤ i.index)
    (hr : f.graph.result? i = some r) {user₀ : InstId} {slot₀ : Nat}
    (hused : ∀ user' slot', f.graph.operand user' slot' = .ok r ↔ user' = user₀ ∧ slot' = slot₀)
    (user' : InstId) (slot' : Nat) :
    f'.graph.operand user' slot' = .ok r ↔ user' = user₀ ∧ slot' = slot₀ := by
  obtain ⟨rty, hrval⟩ := (hf.sound.graph.result_iff i r).1 hr
  have hold : f.graph.operand user₀ slot₀ = .ok r := (hused user₀ slot₀).2 ⟨rfl, rfl⟩
  rw [hinter.operand_eq]
  split
  · next hnew =>
      subst hnew
      rw [require_eq_ok_iff, ConstExpr.operands_toInst]
      refine ⟨fun hpart => ?_, fun hnew => ?_⟩
      · -- Constant expressions were made before all that demotion makes.
        refine absurd (hparts v r ⟨e, ty, h.exprs v e ty hval, List.mem_of_getElem? hpart⟩) ?_
        exact not_has hf₀ hext hf.sound hi hr
      · obtain ⟨inst, hinst, -⟩ := Graph.operand_eq_ok.1 hold
        rw [← hnew.1] at hinst
        exact absurd (Graph.inst_lt hinst) (Nat.lt_irrefl _)
  · split
    · next hcut =>
        obtain ⟨rfl, rfl⟩ := hcut
        refine ⟨fun heq => ?_, fun heq => ?_⟩
        · cases heq
          exact absurd (Graph.has_of_value hrval) (Nat.lt_irrefl _)
        · obtain ⟨rfl, rfl⟩ := heq
          cases hinter.operand.symm.trans hold
          cases hval.symm.trans hrval
    · exact hused user' slot'

include hval in
/-- The new instruction is consumed in the slot that was cut, and nowhere else. -/
theorem used_new (user' : InstId) (slot' : Nat) :
    f'.graph.operand user' slot' = .ok f.graph.nextValue ↔ user' = user ∧ slot' = slot := by
  rw [hinter.operand_eq]
  split
  · next hnew =>
      subst hnew
      rw [require_eq_ok_iff, ConstExpr.operands_toInst]
      refine ⟨fun hpart => ?_, fun hnew => absurd hnew.1.symm hinter.user_ne⟩
      exact absurd (hf.partsExist v _ ⟨e, ty, hval, List.mem_of_getElem? hpart⟩) (Nat.lt_irrefl _)
  · split
    · next hcut => exact ⟨fun _ => hcut, fun _ => rfl⟩
    · next hcut =>
        refine ⟨fun hop => ?_, fun heq => absurd heq hcut⟩
        exact absurd (hf.closed user' slot' _ hop) (Nat.lt_irrefl _)

include h hf₀ hext hparts hval in
theorem interposes :
    f₀.Replaces f' fun j => if j = f.graph.nextInst then v else origin j := by
  have hval₀ : f₀.graph.value v = .ok (.expr e ty) := h.exprs v e ty hval
  have hnext : ¬ f.graph.nextInst.index < f₀.graph.insts.size := Nat.not_lt.2 hext.size_le
  refine ⟨fun w e' ty' hw => ?_, fun i hi hlt => ?_, fun user' slot' w hw => ?_,
    fun i r hi hr => ?_⟩
  · rw [hinter.value_eq] at hw
    split at hw
    · cases hw
    · exact h.exprs w e' ty' hw
  · by_cases hne : i = f.graph.nextInst
    · subst hne
      refine ⟨e, ty, f.graph.nextValue, by rw [if_pos rfl, hval₀], ?_, ?_, ?_⟩
      · rw [hinter.inst_new]
        rfl
      · rw [hinter.result?_eq, if_pos rfl]
      · rw [hinter.value_eq, if_pos rfl]
    · have hlt' : i.index < f.graph.insts.size := by
        rw [hinter.size_insts] at hlt
        exact Nat.lt_of_le_of_ne (Nat.le_of_lt_succ hlt) fun heq => hne (InstId.ext heq)
      obtain ⟨e', ty', r, horigin, hshape, hr, hrval⟩ := h.made i hi hlt'
      have hkept := hinter.extends hf.sound
      refine ⟨e', ty', r, by rw [if_neg hne, horigin], (hkept.shape i hlt').trans hshape, ?_, ?_⟩
      · rw [hkept.result? i hlt', hr]
      · exact hkept.keeps r _ hrval
  · rw [hinter.operand_eq] at hw
    split at hw
    · next hnew =>
        -- The operands of the new instruction are the parts of what it replaces.
        subst hnew
        rw [require_eq_ok_iff, ConstExpr.operands_toInst] at hw
        refine ⟨w, ?_, .inl rfl⟩
        rw [Stood, if_neg hnext, if_pos rfl]
        exact ⟨e, ty, hval₀, hw⟩
    · next hne =>
        split at hw
        · next hcut =>
            obtain ⟨rfl, rfl⟩ := hcut
            cases hw
            refine ⟨v, (stood_update hne).2 (h.stood_expr hf.sound hinter.operand hval), ?_⟩
            refine .inr ⟨_, Nat.not_lt.1 hnext, if_pos rfl, ?_⟩
            rw [hinter.result?_eq, if_pos rfl]
        · obtain ⟨x, hstood, hstands⟩ := h.slots user' slot' w hw
          exact ⟨x, (stood_update hne).2 hstood, standsFor_update hf hinter hstands⟩
  · by_cases hne : i = f.graph.nextInst
    · subst hne
      rw [hinter.result?_eq, if_pos rfl] at hr
      cases hr
      refine ⟨user, slot, ?_, used_new hf hval hinter⟩
      rw [stood_update hinter.user_ne, if_pos rfl]
      exact h.stood_expr hf.sound hinter.operand hval
    · rw [hinter.result?_eq, if_neg hne] at hr
      obtain ⟨user₀, slot₀, hstood, hused⟩ := h.used i r hi hr
      refine ⟨user₀, slot₀, ?_, h.used_old hf₀ hext hparts hf hval hinter hi hr hused⟩
      have hold : f.graph.operand user₀ slot₀ = .ok r := (hused user₀ slot₀).2 ⟨rfl, rfl⟩
      obtain ⟨inst, hinst, -⟩ := Graph.operand_eq_ok.1 hold
      rw [if_neg hne, stood_update]
      · exact hstood
      · rintro rfl
        exact absurd (Graph.inst_lt hinst) (Nat.lt_irrefl _)

end Edit

theorem refl (hf₀ : f₀.Sound) (origin : InstId → ValueId) : f₀.Replaces f₀ origin where
  exprs _ _ _ hval := hval
  made i hi hlt := absurd hlt (Nat.not_lt.2 hi)
  slots user slot w hw := by
    obtain ⟨inst, hinst, -⟩ := Graph.operand_eq_ok.1 hw
    refine ⟨w, ?_, .inl rfl⟩
    rw [Stood, if_pos (Graph.inst_lt hinst)]
    exact hw
  used i r hi hr := by
    cases hr.symm.trans (Graph.result?_eq_none hf₀.graph hi)

/-- A value unfolds after demotion into what the value it stands for unfolds into before. -/
theorem unfolds (h : f₀.Replaces f origin) (hf₀ : f₀.Sound) (hext : f₀.Extends f) (hf : f.Sound)
    (hparts : f₀.graph.PartsExist) {t : Tree} (ht : f₀.graph.Unfolds f₀.graph.insts.size v t)
    (hv : f₀.graph.Has v) (hw : f₀.StandsFor f origin w v) :
    f.graph.Unfolds f₀.graph.insts.size w t := by
  -- The induction is on the tree of `v`, which all of its stand-ins follow at once.
  induction ht generalizing w with
  | @leaf v hnot =>
      rcases hw with rfl | ⟨i, hi, rfl, hr⟩
      · refine .leaf fun inst ty hcomp => ?_
        cases hcomp with
        | expr hval => exact hnot _ _ (.expr (h.exprs _ _ _ hval))
        | result hval hle =>
            exact not_has hf₀ hext hf hle ((hf.graph.result_iff _ _).2 ⟨_, hval⟩) hv
      · obtain ⟨rty, hrval⟩ := (hf.graph.result_iff i w).1 hr
        obtain ⟨e, ty, -, horigin, -⟩ := h.made i hi (hf.graph.defined_lt w i rty hrval)
        exact absurd (.expr horigin) (hnot _ _)
  | @node v inst ty args hcomp hlen _ ih =>
      obtain ⟨e, hval, rfl⟩ := hf₀.graph.computes hcomp
      have hpart : ∀ {x}, x ∈ e.toInst.operands → f₀.graph.Has x := fun hx =>
        hparts v _ ⟨e, ty, hval, ConstExpr.operands_toInst e ▸ hx⟩
      rcases hw with rfl | ⟨i, hi, rfl, hr⟩
      · refine .node (.expr (hext.keeps w _ hval)) hlen fun k x t hx ht => ?_
        exact ih k x t hx ht (hpart (List.mem_of_getElem? hx)) (.inl rfl)
      · obtain ⟨rty, hrval⟩ := (hf.graph.result_iff i w).1 hr
        obtain ⟨e', ty', r, horigin, hshape, hr', hrval'⟩ :=
          h.made i hi (hf.graph.defined_lt w i rty hrval)
        cases hval.symm.trans horigin
        cases hr.symm.trans hr'
        obtain ⟨inst, hinst, hshape⟩ := map_eq_ok_iff.1 hshape
        have hcount := Inst.length_operands_of_shape hshape
        rw [← hshape]
        refine .node (.result hrval' hi hinst) (hlen.trans hcount.symm) fun k x t hx ht => ?_
        obtain ⟨y, hstood, hstands⟩ := h.slots i k x (Graph.operand_eq_ok.2 ⟨inst, hinst, hx⟩)
        rw [Stood, if_neg (Nat.not_lt.2 hi)] at hstood
        obtain ⟨e', ty', horigin', hy⟩ := hstood
        cases horigin.symm.trans horigin'
        rw [← ConstExpr.operands_toInst] at hy
        exact ih k y t hy ht (hpart (List.mem_of_getElem? hy)) hstands

end Replaces

/-- The edits of demotion keep the correspondence. -/
theorem Demoted.replaces (h : f₀.Demoted f) (hf₀ : f₀.Demotable rank) :
    f₀.Extends f ∧ f.Sound ∧ ∃ origin, f₀.Replaces f origin := by
  have hstart : f₀.Demotable rank ∧ ∃ origin, f₀.Replaces f₀ origin :=
    ⟨hf₀, fun _ => ⟨0⟩, .refl hf₀.sound _⟩
  obtain ⟨hext, hf, -, hreplaces⟩ := h.invariant
    (P := fun f => f.Demotable rank ∧ ∃ origin, f₀.Replaces f origin) hf₀.sound hstart <| by
      rintro f f' hext - ⟨hf, origin, hreplaces⟩ @⟨user, slot, v, e, ty, hval, hinter⟩
      exact ⟨hf.interposes hinter hval, _,
        hreplaces.interposes hf₀.sound hext hf₀.partsExist hf hval hinter⟩
  exact ⟨hext, hf, hreplaces⟩

/-- Demotion of a function ends well and keeps what the function means, if all that its operands,
constant expressions and phis name exists and no constant expression contains itself. All
instructions keep their place among each other, their fields and their result. No operand is a
constant expression any more, and each unfolds into the one tree that what stood there unfolds into.
The result of an instruction that was made has the type of the constant expression that the
instruction replaces, and is consumed only where that stood. -/
theorem demote_keeps_meaning (hf : f.Sound) (hclosed : f.graph.Closed)
    (hparts : f.graph.PartsExist) (hphis : f.PhisPlaced) (hacyclic : f.graph.Acyclic) :
    ∃ changed f', f.demote = .ok (changed, f') ∧ f.Extends f' ∧ (∀ i ∈ f'.insts, f'.Flat i) ∧
      (∀ i slot v, f.graph.operand i slot = .ok v → ∃ w t, f'.graph.operand i slot = .ok w ∧
        (∀ u, f.graph.Unfolds f.graph.insts.size v u ↔ u = t) ∧
        ∀ u, f'.graph.Unfolds f.graph.insts.size w u ↔ u = t) ∧
      ∃ origin : InstId → ValueId, ∀ i, f.graph.insts.size ≤ i.index →
        i.index < f'.graph.insts.size → ∃ e ty r user slot,
          f.graph.value (origin i) = .ok (.expr e ty) ∧ f'.graph.result? i = some r ∧
          f'.graph.typeOf r = .ok ty ∧ f.Stood origin user slot (origin i) ∧
          ∀ user' slot', f'.graph.operand user' slot' = .ok r ↔ user' = user ∧ slot' = slot := by
  obtain ⟨changed, f', hok, hflat⟩ := hf.demote_flat hclosed hparts hphis hacyclic
  have hdemotable : f.Demotable f.graph.depth :=
    ⟨hf, hclosed, hparts, hphis, fun v w => hacyclic.depth_lt hparts⟩
  obtain ⟨hext, hf', origin, hreplaces⟩ := (hf.demote_demoted hok).replaces hdemotable
  refine ⟨changed, f', hok, hext, hflat, fun i slot v hv => ?_, origin, fun i hi hlt => ?_⟩
  · obtain ⟨inst, hinst, hslot⟩ := Graph.operand_eq_ok.1 hv
    obtain ⟨w, hw⟩ := (hext.hasSlot_iff (Graph.inst_lt hinst)).2 ⟨v, hv⟩
    obtain ⟨x, hstood, hstands⟩ := hreplaces.slots i slot w hw
    rw [Stood, if_pos (Graph.inst_lt hinst)] at hstood
    cases hv.symm.trans hstood
    obtain ⟨t, ht⟩ := hf.graph.exists_unfolds hparts hacyclic v
    have ht' := hreplaces.unfolds hf hext hf' hparts ht (hclosed i slot v hv) hstands
    refine ⟨w, t, hw, fun u => ⟨ht.unique, ?_⟩, fun u => ⟨ht'.unique, ?_⟩⟩
    · rintro rfl
      exact ht
    · rintro rfl
      exact ht'
  · obtain ⟨e, ty, r, horigin, -, hr, hrval⟩ := hreplaces.made i hi hlt
    obtain ⟨user, slot, hstood, hused⟩ := hreplaces.used i r hi hr
    exact ⟨e, ty, r, user, slot, horigin, hr, Graph.typeOf_eq_ok.2 ⟨_, hrval, rfl⟩, hstood, hused⟩

/-- A block that jumps to itself. A nested constant address is an operand of its load, and of its
phi, for which it is computed at the end of the block. -/
def addressOfNull : Except Fault Module :=
  Module.ofItems ⟨.air64, .bitcode, .v7⟩ [] [⟨"f", .exported, [], .unit, none⟩]
    [.null .generic, .constCast .bitcast ⟨0⟩ .genericPtr, .constGep .i32 [⟨1⟩],
      .inst (.phi .genericPtr [(⟨2⟩, ⟨0⟩)]), .inst (.load ⟨2⟩ .i32), .inst (.jump ⟨0⟩)]

theorem demote_keeps_meaning_addressOfNull : ∃ (m : Module) (f f' : Function) (changed : Bool),
    m.Built ∧ m.func ⟨0⟩ = .ok f ∧ f.Sound ∧ f.graph.Closed ∧ f.graph.PartsExist ∧ f.PhisPlaced ∧
    f.graph.Acyclic ∧ f.demote = .ok (changed, f') ∧
    f'.graph.insts.size = f.graph.insts.size + 4 ∧
    ∃ w t, f'.graph.operand ⟨0⟩ 0 = .ok w ∧ f.graph.Unfolds f.graph.insts.size ⟨2⟩ t ∧
      f'.graph.Unfolds f.graph.insts.size w t := by
  have hrun : succeeds addressOfNull (fun m => succeeds (m.func ⟨0⟩) fun f =>
      succeeds f.demote fun (_, f') => f.graph.checkClosed && f.checkPhis &&
        f.graph.checkParts (fun v w => w.index < v.index) &&
        succeeds (f.graph.operand ⟨0⟩ 0) (· = ⟨2⟩) &&
        f'.graph.insts.size = f.graph.insts.size + 4) = true := by
    decide +kernel
  obtain ⟨m, hm, hrun⟩ := exists_of_succeeds hrun
  obtain ⟨f, hf, hrun⟩ := exists_of_succeeds hrun
  obtain ⟨⟨changed, f'⟩, hdemote, hrun⟩ := exists_of_succeeds hrun
  simp only [Bool.and_eq_true, decide_eq_true_eq] at hrun
  obtain ⟨⟨⟨⟨hclosed, hphis⟩, hparts⟩, hop⟩, hsize⟩ := hrun
  obtain ⟨v, hv, hop⟩ := exists_of_succeeds hop
  obtain rfl : v = ⟨2⟩ := by simpa using hop
  have hbuilt := Module.built_of_ofItems hm
  have hsound := hbuilt.sound hf
  have hclosed := Graph.closed_of_checkClosed hclosed
  have hphis := phisPlaced_of_checkPhis hphis
  obtain ⟨hexist, hacyclic⟩ := Graph.acyclic_of_checkParts hparts
  obtain ⟨_, _, hdemote', -, -, htrees, -⟩ :=
    demote_keeps_meaning hsound hclosed hexist hphis hacyclic
  cases hdemote.symm.trans hdemote'
  obtain ⟨w, t, hw, htree, htree'⟩ := htrees ⟨0⟩ 0 ⟨2⟩ hv
  exact ⟨m, f, f', changed, hbuilt, hf, hsound, hclosed, hexist, hphis, hacyclic, hdemote, hsize,
    w, t, hw, (htree t).2 rfl, (htree' t).2 rfl⟩

end Function

end Pointee
