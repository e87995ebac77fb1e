import Pointee.Proofs.DemotionSteps
import Pointee.Proofs.OperandScope

/-!
# Demotion ends

The operands of an instruction that demotion makes are the parts of the constant expression it
replaces. So the constant expressions that a round of demotion meets rank below those of the round
before, in every ranking where parts rank below the whole. The depth of constant expressions is such
a ranking, and it bounds the rounds: by `Sound.demote_flat` demotion ends, and leaves no operand
that is a constant expression.
-/

namespace Pointee.Function

variable {f f' : Function} {rank : ValueId → Nat} {bound : Nat} {work made : List InstId}
  {i user : InstId} {slot : Nat} {v : ValueId} {e : ConstExpr} {ty : Ty}

/-- The constant expressions among the operands of `i` rank below the bound. -/
def Below (f : Function) (rank : ValueId → Nat) (bound : Nat) (i : InstId) : Prop :=
  ∀ slot v e ty, f.graph.operand i slot = .ok v → f.graph.value v = .ok (.expr e ty) →
    rank v < bound

theorem Below.mono {bound' : Nat} (h : f.Below rank bound i) (hle : bound ≤ bound') :
    f.Below rank bound' i :=
  fun slot v e ty hv hval => Nat.lt_of_lt_of_le (h slot v e ty hv hval) hle

/-- Everything that operands, phis and constant expressions name is there, and parts of constant
expressions rank below the whole. -/
structure Demotable (f : Function) (rank : ValueId → Nat) : Prop where
  sound : f.Sound
  closed : f.graph.Closed
  partsExist : f.graph.PartsExist
  phis : f.PhisPlaced
  ranked : ∀ v w, f.graph.Part v w → rank w < rank v

/-! ## One edit -/

section Edit

variable (hinter : f.Interposes user slot v e.toInst ty f')
include hinter

theorem Demotable.interposes (h : f.Demotable rank) (hval : f.graph.value v = .ok (.expr e ty)) :
    f'.Demotable rank where
  sound := hinter.sound
  closed := by
    refine hinter.closed h.closed fun w hw => ?_
    rw [ConstExpr.operands_toInst] at hw
    exact h.partsExist v w ⟨e, ty, hval, hw⟩
  partsExist v w hpart :=
    (hinter.extends h.sound).keeps.has (h.partsExist v w (hinter.part_iff.1 hpart))
  phis := hinter.phisPlaced (by cases e <;> rfl) h.phis
  ranked v w hpart := h.ranked v w (hinter.part_iff.1 hpart)

/-- A constant expression that is an operand of an old instruction was so before, at another slot.
-/
theorem Interposes.expr_old {j : InstId} (hj : j ≠ f.graph.nextInst) {s : Nat} {w : ValueId}
    {e' : ConstExpr} {ty' : Ty} (hw : f'.graph.operand j s = .ok w)
    (hval : f'.graph.value w = .ok (.expr e' ty')) :
    ¬ (j = user ∧ s = slot) ∧ f.graph.operand j s = .ok w ∧
      f.graph.value w = .ok (.expr e' ty') := by
  rw [hinter.value_eq] at hval
  split at hval
  · cases hval
  · next hold =>
      rw [hinter.operand_eq, if_neg hj] at hw
      split at hw
      · cases hw
        exact absurd rfl hold
      · next hcut => exact ⟨hcut, hw, hval⟩

theorem Interposes.flatAt {j : InstId} (hj : j ≠ f.graph.nextInst) {s : Nat}
    (h : j = user ∧ s = slot ∨ f.FlatAt j s) : f'.FlatAt j s := by
  intro w e' ty' hw hval
  obtain ⟨hcut, hw, hval⟩ := hinter.expr_old hj hw hval
  rcases h with hcut' | hflat
  · exact hcut hcut'
  · exact hflat w e' ty' hw hval

theorem Interposes.hasSlot_iff {j : InstId} (hj : j ≠ f.graph.nextInst) {s : Nat} :
    f'.HasSlot j s ↔ f.HasSlot j s := by
  unfold HasSlot
  rw [hinter.operand_eq, if_neg hj]
  split
  · next hcut =>
      obtain ⟨rfl, rfl⟩ := hcut
      exact ⟨fun _ => ⟨v, hinter.operand⟩, fun _ => ⟨_, rfl⟩⟩
  · exact Iff.rfl

theorem Interposes.below {j : InstId} (hj : j ≠ f.graph.nextInst) (h : f.Below rank bound j) :
    f'.Below rank bound j := by
  intro s w e' ty' hw hval
  obtain ⟨-, hw, hval⟩ := hinter.expr_old hj hw hval
  exact h s w e' ty' hw hval

/-- The operands of the new instruction rank below the constant expression it replaces. -/
theorem Demotable.below_new (h : f.Demotable rank) (hval : f.graph.value v = .ok (.expr e ty)) :
    f'.Below rank (rank v) f.graph.nextInst := by
  intro s w e' ty' hw _
  rw [hinter.operand_eq, if_pos rfl, require_eq_ok_iff, ConstExpr.operands_toInst] at hw
  exact h.ranked v w ⟨e, ty, hval, List.mem_of_getElem? hw⟩

end Edit

/-! ## One round -/

/-- The state of a round: the instructions of `work` are to be done, those of `made` are left to the
next round, and all others have no constant expressions left. -/
structure Round (f : Function) (rank : ValueId → Nat) (bound : Nat) (work made : List InstId) :
    Prop where
  demotable : f.Demotable rank
  work_placed : ∀ i ∈ work, i ∈ f.insts
  made_placed : ∀ i ∈ made, i ∈ f.insts
  work_below : ∀ i ∈ work, f.Below rank bound i
  made_below : ∀ i ∈ made, ∃ b < bound, f.Below rank b i
  flat : ∀ i ∈ f.insts, i ∉ work → i ∉ made → f.Flat i

namespace Round

/-- The instruction that replaces an operand of `user` is left to the next round. -/
theorem interposes (h : f.Round rank bound work made) (huser : user ∈ work)
    (hval : f.graph.value v = .ok (.expr e ty)) (hinter : f.Interposes user slot v e.toInst ty f') :
    f'.Round rank bound work (made ++ [f.graph.nextInst]) := by
  have hsound := h.demotable.sound
  have hne : ∀ {j}, j ∈ f.insts → j ≠ f.graph.nextInst := by
    rintro j hj rfl
    exact absurd (hsound.lt_of_mem_insts hj) (Nat.lt_irrefl _)
  have hrank : rank v < bound := h.work_below user huser slot v e ty hinter.operand hval
  refine ⟨h.demotable.interposes hinter hval, fun j hj => ?_, fun j hj => ?_, fun j hj => ?_,
    fun j hj => ?_, fun j hj hwork hmade => ?_⟩
  · exact (hinter.mem_insts hsound).2 (.inl (h.work_placed j hj))
  · rw [hinter.mem_insts hsound]
    rcases List.mem_append.1 hj with hj | hj
    · exact .inl (h.made_placed j hj)
    · exact .inr (List.mem_singleton.1 hj)
  · exact hinter.below (hne (h.work_placed j hj)) (h.work_below j hj)
  · rcases List.mem_append.1 hj with hj | hj
    · obtain ⟨b, hb, hbelow⟩ := h.made_below j hj
      exact ⟨b, hb, hinter.below (hne (h.made_placed j hj)) hbelow⟩
    · obtain rfl := List.mem_singleton.1 hj
      exact ⟨rank v, hrank, h.demotable.below_new hinter hval⟩
  · rw [List.mem_append, List.mem_singleton, not_or] at hmade
    have hj : j ∈ f.insts := ((hinter.mem_insts hsound).1 hj).resolve_right hmade.2
    exact fun s => hinter.flatAt hmade.2 (.inr (h.flat j hj hwork hmade.1 s))

/-- Demoting an operand ends well, and the operand is no constant expression then. -/
theorem demoteOperand (h : f.Round rank bound work made) (huser : user ∈ work)
    (hv : f.graph.operand user slot = .ok v) :
    ∃ made' f', Function.demoteOperand user (made, f) slot = .ok (made', f') ∧
      f'.Round rank bound work made' ∧ f'.FlatAt user slot ∧
      (∀ s, f.FlatAt user s → f'.FlatAt user s) ∧ ∀ s, f'.HasSlot user s ↔ f.HasSlot user s := by
  obtain ⟨val, hval⟩ := (h.demotable.closed user slot v hv).exists_value
  cases val with
  | expr e ty =>
      obtain ⟨b, hb⟩ := h.demotable.sound.mem_insts.1 (h.work_placed user huser)
      obtain ⟨loc, hloc⟩ := h.demotable.sound.exists_operandLocation h.demotable.phis hb hv
      obtain ⟨f', hok, hinter⟩ := h.demotable.sound.demoteOperand_of hv hval hloc made
      have hne := hinter.user_ne
      exact ⟨_, f', hok, h.interposes huser hval hinter, hinter.flatAt hne (.inl ⟨rfl, rfl⟩),
        fun s hs => hinter.flatAt hne (.inr hs), fun s => hinter.hasSlot_iff hne⟩
  | _ =>
      refine ⟨made, f, bind_eq_ok_iff.2 ⟨v, hv, bind_eq_ok_iff.2 ⟨_, hval, rfl⟩⟩, h, ?_,
        fun s hs => hs, fun s => Iff.rfl⟩
      intro w e ty hw hexpr
      cases hv.symm.trans hw
      cases hval.symm.trans hexpr

end Round

/-- The state in the middle of `user`, which has `count` operands: those of `done` are demoted. -/
structure Underway (f : Function) (rank : ValueId → Nat) (bound : Nat) (user : InstId) (count : Nat)
    (work made : List InstId) (done : List Nat) : Prop where
  round : f.Round rank bound (user :: work) made
  slots : ∀ s, f.HasSlot user s ↔ s < count
  flat : ∀ s ∈ done, f.FlatAt user s

namespace Underway

variable {count : Nat} {done : List Nat}

theorem start (h : f.Round rank bound (user :: work) made) {inst : Inst}
    (hinst : f.graph.inst user = .ok inst) :
    f.Underway rank bound user inst.operands.length work made [] :=
  ⟨h, fun s => hasSlot_iff hinst, by simp⟩

theorem step (h : f.Underway rank bound user count work made done) (hslot : slot < count) :
    ∃ made' f', Function.demoteOperand user (made, f) slot = .ok (made', f') ∧
      f'.Underway rank bound user count work made' (done ++ [slot]) := by
  obtain ⟨v, hv⟩ := (h.slots slot).2 hslot
  obtain ⟨made', f', hok, hround, hat, hkeep, hslots⟩ := h.round.demoteOperand List.mem_cons_self hv
  refine ⟨made', f', hok, hround, fun s => (hslots s).trans (h.slots s), fun s hs => ?_⟩
  rcases List.mem_append.1 hs with hs | hs
  · exact hkeep s (h.flat s hs)
  · obtain rfl := List.mem_singleton.1 hs
    exact hat

/-- Once its operands are demoted, an instruction is done. -/
theorem finish (h : f.Underway rank bound user count work made (List.range count)) :
    f.Round rank bound work made where
  demotable := h.round.demotable
  work_placed j hj := h.round.work_placed j (List.mem_cons_of_mem user hj)
  made_placed := h.round.made_placed
  work_below j hj := h.round.work_below j (List.mem_cons_of_mem user hj)
  made_below := h.round.made_below
  flat j hj hwork hmade := by
    by_cases huser : j = user
    · subst huser
      intro s v e ty hv
      exact h.flat s (List.mem_range.2 ((h.slots s).1 ⟨v, hv⟩)) v e ty hv
    · refine h.round.flat j hj ?_ hmade
      rw [List.mem_cons, not_or]
      exact ⟨huser, hwork⟩

end Underway

namespace Round

theorem demoteInst (h : f.Round rank bound (user :: work) made) :
    ∃ made' f', Function.demoteInst (made, f) user = .ok (made', f') ∧
      f'.Round rank bound work made' := by
  obtain ⟨b, hb⟩ :=
    h.demotable.sound.mem_insts.1 (h.work_placed user List.mem_cons_self)
  obtain ⟨inst, hinst⟩ := h.demotable.sound.exists_inst hb
  have hloop : ∃ state, (List.range inst.operands.length).foldlM
      (Function.demoteOperand user) (made, f) = .ok state ∧
      state.2.Underway rank bound user inst.operands.length work state.1
        (List.range inst.operands.length) := by
    refine foldlM_total (P := fun done (state : List InstId × Function) =>
      state.2.Underway rank bound user inst.operands.length work state.1 done) ?_ (.start h hinst)
    rintro done s rest ⟨made, g⟩ hsplit hg
    have hs : s ∈ List.range inst.operands.length := by
      rw [hsplit]
      simp
    obtain ⟨made', g', hok, hg'⟩ := hg.step (List.mem_range.1 hs)
    exact ⟨(made', g'), hok, hg'⟩
  obtain ⟨⟨made', f'⟩, hok, hdone⟩ := hloop
  exact ⟨made', f', bind_eq_ok_iff.2 ⟨inst, hinst, hok⟩, hdone.finish⟩

/-- A round ends well and leaves what it made to the next one. -/
theorem foldlM_demoteInst (h : f.Round rank bound work made) :
    ∃ made' f', work.foldlM Function.demoteInst (made, f) = .ok (made', f') ∧
      f'.Round rank bound [] made' := by
  induction work generalizing f made with
  | nil => exact ⟨made, f, rfl, h⟩
  | cons user work ih =>
      obtain ⟨made₁, f₁, hok₁, h₁⟩ := h.demoteInst
      obtain ⟨made₂, f₂, hok₂, h₂⟩ := ih h₁
      refine ⟨made₂, f₂, ?_, h₂⟩
      rw [List.foldlM_cons, hok₁]
      exact hok₂

/-- There are enough rounds if there are more than the bound on the ranks. -/
theorem demoteRounds (h : f.Round rank bound work []) {rounds : Nat} (hlt : bound < rounds) :
    ∃ count f', Function.demoteRounds rounds work f = .ok (count, f') ∧
      ∀ i ∈ f'.insts, f'.Flat i := by
  induction rounds generalizing f bound work with
  | zero => omega
  | succ rounds ih =>
      cases work with
      | nil => exact ⟨0, f, rfl, fun i hi => h.flat i hi List.not_mem_nil List.not_mem_nil⟩
      | cons user work =>
          obtain ⟨made, f₁, hok₁, h₁⟩ := h.foldlM_demoteInst
          have hnext : ∃ count f', Function.demoteRounds rounds made f₁ = .ok (count, f') ∧
              ∀ i ∈ f'.insts, f'.Flat i := by
            cases bound with
            | zero =>
                -- Nothing ranks below zero, so nothing was made.
                have hnil : made = [] := by
                  refine List.eq_nil_iff_forall_not_mem.2 fun i hi => ?_
                  obtain ⟨b, hb, -⟩ := h₁.made_below i hi
                  omega
                subst hnil
                refine ⟨0, f₁, by cases rounds <;> rfl, fun i hi => ?_⟩
                exact h₁.flat i hi List.not_mem_nil List.not_mem_nil
            | succ bound =>
                have hround : f₁.Round rank bound made [] := by
                  refine ⟨h₁.demotable, h₁.made_placed, by simp, fun i hi => ?_, by simp,
                    fun i hi hmade _ => h₁.flat i hi List.not_mem_nil hmade⟩
                  obtain ⟨b, hb, hbelow⟩ := h₁.made_below i hi
                  exact hbelow.mono (by omega)
                exact ih hround (by omega)
          obtain ⟨count, f₂, hok₂, hflat⟩ := hnext
          refine ⟨made.length + count, f₂, ?_, hflat⟩
          exact bind_eq_ok_iff.2 ⟨_, hok₁, bind_eq_ok_iff.2 ⟨_, hok₂, rfl⟩⟩

end Round

/-- Demotion ends well if operands, parts of constant expressions and the blocks of phis exist and
no constant expression contains itself. It leaves no operand that is a constant expression. -/
theorem Sound.demote_flat (hf : f.Sound) (hclosed : f.graph.Closed) (hparts : f.graph.PartsExist)
    (hphis : f.PhisPlaced) (hacyclic : f.graph.Acyclic) :
    ∃ changed f', f.demote = .ok (changed, f') ∧ ∀ i ∈ f'.insts, f'.Flat i := by
  have hround : f.Round f.graph.depth f.graph.values.size f.insts [] := by
    refine ⟨⟨hf, hclosed, hparts, hphis, fun v w => hacyclic.depth_lt hparts⟩, fun i hi => hi,
      by simp, ?_, by simp, fun i hi hwork => absurd hi hwork⟩
    intro i hi slot v e ty hv hval
    exact hacyclic.depth_lt_size (Graph.has_of_value hval)
  obtain ⟨count, f', hok, hflat⟩ := hround.demoteRounds (Nat.lt_succ_self _)
  exact ⟨_, f', bind_eq_ok_iff.2 ⟨_, hok, rfl⟩, hflat⟩

end Pointee.Function
