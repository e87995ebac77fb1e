import Pointee.Proofs.MarkerSeparation

/-!
# Markers of their own

The marker of a pointer operand is made for that operand alone, so no other operand is its value.
`Function.Owns` says so, and `Marking.markFunction_owned` that it holds of all sites once a function
is marked whose operands all exist. An edit for one instruction moves operands of others, so
ownership is shown to survive each of the two loops of marking: the wrapping of operands
(`WrapsSlots.owned`) and the redirection of consumers (`Owns.wrapsResult`).
-/

namespace Pointee

namespace Function

variable {f f' g g' : Function} {start slot s : Nat} {i j user k : InstId} {p v w : ValueId}
  {ty : Ty} {ctx : Context}

/-- Operand `slot` of `i` is `p`, and no other operand is. The instruction `k`, made from `start`
on, defines `p` and wraps `w`. -/
structure Owns (f : Function) (start : Nat) (i : InstId) (slot : Nat) (p : ValueId) (k : InstId)
    (w : ValueId) : Prop where
  operand : f.graph.operand i slot = .ok p
  value : ∃ ty, f.graph.value p = .ok (.inst k ty)
  made : start ≤ k.index
  wraps : f.graph.operand k 0 = .ok w
  alone : ∀ x s, f.graph.operand x s = .ok p → x = i ∧ s = slot

/-- Operand `slot` of `i` has a marker of its own. -/
def OwnedAt (f : Function) (start : Nat) (i : InstId) (slot : Nat) : Prop :=
  ∃ p k w, f.Owns start i slot p k w

/-! ## Wrapping operands -/

/-- What wrapping an operand relies on: all operands exist. -/
structure Wrappable (f : Function) (start : Nat) : Prop where
  sound : f.Sound
  size_le : start ≤ f.graph.insts.size
  closed : f.graph.Closed

theorem MarkedFor.wrappable (h : f.MarkedFor start i f') (hf : f.Wrappable start) :
    f'.Wrappable start := by
  obtain ⟨hext, hf', hclosed⟩ := h.invariant (P := fun g => g.graph.Closed) hf.sound hf.closed
    fun g g' hext hg hclosed hstep => hstep.closed hg (Nat.le_trans hf.size_le hext.size_le) hclosed
  exact ⟨hf', Nat.le_trans hf.size_le hext.size_le, hclosed⟩

/-- An operand is a value that the next insertion does not define. -/
theorem Wrappable.ne_nextValue (hf : f.Wrappable start) (h : f.graph.operand i slot = .ok v) :
    v ≠ f.graph.nextValue := by
  intro heq
  exact absurd (heq ▸ hf.closed i slot v h) (Nat.lt_irrefl _)

section Interposes

variable (hf : f.Wrappable start) (hinter : f.Interposes user slot v (.marker v ty) ty f')
include hf hinter

theorem Wrappable.interposes : f'.Wrappable start where
  sound := hinter.sound
  size_le := by
    rw [hinter.size_insts]
    exact Nat.le_succ_of_le hf.size_le
  closed := by
    refine hinter.closed hf.closed fun u hu => ?_
    obtain rfl := List.mem_singleton.1 hu
    exact hf.closed user slot u hinter.operand

/-- The operand that is wrapped gets a marker of its own. -/
theorem Wrappable.owns_new : f'.Owns start user slot f.graph.nextValue f.graph.nextInst v where
  operand := by rw [hinter.operand_eq, if_neg hinter.user_ne, if_pos ⟨rfl, rfl⟩]
  value := ⟨ty, by rw [hinter.value_eq, if_pos rfl]⟩
  made := hf.size_le
  wraps := by
    rw [hinter.operand_eq, if_pos rfl]
    rfl
  alone x t hop := by
    rw [hinter.operand_eq] at hop
    split at hop
    · have hmem := List.mem_of_getElem? (require_eq_ok_iff.1 hop)
      exact absurd (List.mem_singleton.1 hmem).symm (hf.ne_nextValue hinter.operand)
    · split at hop
      · assumption
      · exact absurd rfl (hf.ne_nextValue hop)

/-- The other markers stay what they are. -/
theorem Owns.interposes (h : f.Owns start i s p k w) (huser : user.index < start)
    (hne : ¬ (i = user ∧ s = slot)) : f'.Owns start i s p k w := by
  obtain ⟨pty, hval⟩ := h.value
  have hi : i ≠ f.graph.nextInst := by
    intro heq
    obtain ⟨inst, hinst, -⟩ := Graph.operand_eq_ok.1 h.operand
    exact absurd (heq ▸ Graph.inst_lt hinst) (Nat.lt_irrefl _)
  have hk : k ≠ f.graph.nextInst := by
    intro heq
    exact absurd (heq ▸ hf.sound.graph.defined_lt p k pty hval) (Nat.lt_irrefl _)
  have hcut : ¬ (k = user ∧ 0 = slot) := by
    intro hand
    have hmade := h.made
    rw [hand.1] at hmade
    omega
  have hpv : v ≠ p := by
    intro heq
    have hother := h.alone user slot (heq ▸ hinter.operand)
    exact hne ⟨hother.1.symm, hother.2.symm⟩
  refine ⟨?_, ⟨pty, (hinter.extends hf.sound).keeps p _ hval⟩, h.made, ?_, fun x t hop => ?_⟩
  · rw [hinter.operand_eq, if_neg hi, if_neg hne, h.operand]
  · rw [hinter.operand_eq, if_neg hk, if_neg hcut, h.wraps]
  · rw [hinter.operand_eq] at hop
    split at hop
    · have hmem := List.mem_of_getElem? (require_eq_ok_iff.1 hop)
      exact absurd (List.mem_singleton.1 hmem).symm hpv
    · split at hop
      · cases hop
        exact absurd (Graph.has_of_value hval) (Nat.lt_irrefl _)
      · exact h.alone x t hop

end Interposes

/-- All operands that were wrapped have a marker of their own, and so have those that had one
before. -/
theorem WrapsSlots.owned {slots : List Nat} (h : f.WrapsSlots i slots g) (hf : f.Wrappable start)
    (hi : i.index < start) :
    g.Wrappable start ∧ (∀ s ∈ slots, g.OwnedAt start i s) ∧
      ∀ j s, f.OwnedAt start j s → g.OwnedAt start j s := by
  induction h with
  | refl => exact ⟨hf, by simp, fun _ _ howned => howned⟩
  | @wrap slots s g g' _ hrun ih =>
      obtain ⟨hg, hslots, hothers⟩ := ih
      obtain ⟨v, ty, -, hinter⟩ := hg.sound.wrapOperand_eq_ok hrun
      have hnew : g'.OwnedAt start i s := ⟨_, _, _, hg.owns_new hinter⟩
      have hkept : ∀ j t, g.OwnedAt start j t → g'.OwnedAt start j t := by
        intro j t howned
        obtain ⟨p, k, w, howns⟩ := howned
        by_cases hcut : j = i ∧ t = s
        · rw [hcut.1, hcut.2]
          exact hnew
        · exact ⟨p, k, w, howns.interposes hg hinter hi hcut⟩
      refine ⟨hg.interposes hinter, fun t ht => ?_,
        fun j t howned => hkept j t (hothers j t howned)⟩
      rcases List.mem_append.1 ht with ht | ht
      · exact hkept i t (hslots t ht)
      · rw [List.mem_singleton.1 ht]
        exact hnew

/-! ## Wrapping results -/

/-- Wrapping the result of `j` leaves the markers of operands where they are. -/
theorem Owns.wrapsResult (h : f.Owns start i s p k w) (hj : j.index < start)
    (hkeeps : f.graph.Keeps g.graph) (hg : g.Sound) (hwraps : f.WrapsResult j v g) :
    g.OwnedAt start i s := by
  obtain ⟨pty, hval⟩ := h.value
  have hval' := hkeeps p _ hval
  have hpv : p ≠ v := by
    rintro rfl
    obtain ⟨vty, hv⟩ := (hg.graph.result_iff j p).1 hwraps.result
    cases hval'.symm.trans hv
    exact absurd h.made (by omega)
  have hpnew : p ≠ f.graph.nextValue := by
    intro heq
    exact absurd (heq ▸ Graph.has_of_value hval) (Nat.lt_irrefl _)
  obtain ⟨w', hw'⟩ : ∃ w', g.graph.operand k 0 = .ok w' := by
    by_cases hwv : w = v
    · exact ⟨_, hwraps.moved k 0 (hwv ▸ h.wraps)⟩
    · exact ⟨w, hwraps.kept k 0 w hwv h.wraps⟩
  exact ⟨p, k, w', hwraps.kept i s p hpv h.operand, ⟨pty, hval'⟩, h.made, hw',
    fun x t hop => h.alone x t (hwraps.old x t p hpv hpnew hop)⟩

end Function

/-! ## Runs of marking -/

namespace Marking

variable {ctx : Context} {start n : Nat} {i : InstId} {s t : Marking}

/-- Marking an instruction gives each of its sites a marker of its own, and leaves the markers of
other sites to them. -/
theorem markInst_owned (hf : s.func.Wrappable start) (hi : i ∈ s.func.insts)
    (hstart : i.index < start) (h : (markInst ctx i).exec s = .ok (.ok n, t)) :
    t.func.Wrappable start ∧ s.func.Extends t.func ∧
      (∀ slot, s.func.IsSite ctx i slot → t.func.OwnedAt start i slot) ∧
      ∀ j slot, s.func.OwnedAt start j slot → t.func.OwnedAt start j slot := by
  obtain ⟨mid, slots, hmarked, hwraps, hsites, hresult⟩ :=
    markInst_stages hf.sound hi hstart hf.size_le h
  obtain ⟨hmid, hnew, hkept⟩ := hwraps.owned hf hstart
  have hext := (hmarked.keeps hf.sound).1
  rcases hresult with ⟨-, hfunc⟩ | ⟨v, hmarked', hwraps'⟩
  · rw [hfunc]
    exact ⟨hmid, hext, fun slot hsite => hnew slot (hsites slot hsite), hkept⟩
  · obtain ⟨hext', hsound⟩ := hmarked'.keeps hmid.sound
    have hmoved : ∀ j slot, mid.OwnedAt start j slot → t.func.OwnedAt start j slot := by
      intro j slot howned
      obtain ⟨p, k, w, howns⟩ := howned
      exact howns.wrapsResult hstart hext'.keeps hsound hwraps'
    exact ⟨hmarked'.wrappable hmid, hext.trans hext',
      fun slot hsite => hmoved i slot (hnew slot (hsites slot hsite)),
      fun j slot howned => hmoved j slot (hkept j slot howned)⟩

/-- Once a function is marked, each of its sites has a marker of its own. -/
theorem markFunction_owned (hf : s.func.Sound) (hclosed : s.func.graph.Closed)
    (h : (markFunction ctx).exec s = .ok (.ok n, t)) :
    ∀ i ∈ s.func.insts, ∀ slot, s.func.IsSite ctx i slot →
      t.func.OwnedAt s.func.graph.insts.size i slot := by
  rw [markFunction, Pass.exec_bind_of_ok (Pass.exec_get s)] at h
  refine (Pass.foldlM_invariant (P := fun done _ (u : Marking) =>
    u.func.Wrappable s.func.graph.insts.size ∧ s.func.Extends u.func ∧
      ∀ i ∈ done, ∀ slot, s.func.IsSite ctx i slot →
        u.func.OwnedAt s.func.graph.insts.size i slot) ?_
    ⟨⟨hf, Nat.le_refl _, hclosed⟩, .refl hf, by simp⟩ h).2.2
  intro done i rest count u count' u' hsplit hstate hround
  obtain ⟨hu, hext, howned⟩ := hstate
  obtain ⟨m, u₁, hrun, hrest⟩ := Pass.exec_bind_eq_ok.1 hround
  cases hrest
  have hi : i ∈ s.func.insts := by simp [hsplit]
  have hlt := hf.lt_of_mem_insts hi
  obtain ⟨hu', hext', hnew, hkept⟩ :=
    markInst_owned hu ((hext.mem_insts_iff hf hu.sound hlt).2 hi) hlt hrun
  refine ⟨hu', hext.trans hext', fun j hj slot hsite => ?_⟩
  rcases List.mem_append.1 hj with hj | hj
  · exact hkept j slot (howned j hj slot hsite)
  · obtain rfl := List.mem_singleton.1 hj
    exact hnew slot ((Function.IsSite.of_extends hext hlt).2 hsite)

end Marking

end Pointee
