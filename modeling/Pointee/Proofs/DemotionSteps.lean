import Mathlib.Logic.Relation
import Pointee.Demotion
import Pointee.Proofs.FunctionEdits

/-!
# The edits of demotion

Demotion makes one kind of edit, `Function.DemoteStep`: an operand that is a constant expression is
replaced by the value of the instruction that computes it. `Function.demoteRounds_many` says what a
run does, one operand after the other, and `Function.Sound.demote_demoted` that the function a run
gives is reached by such edits.
-/

namespace Pointee.Function

variable {f f' f₀ : Function} {user : InstId} {slot : Nat} {made made' : List InstId}

/-- A constant expression that is operand `slot` of `user` is computed by an instruction of its own.
-/
inductive DemoteStep (f f' : Function) : Prop
  | intro {user : InstId} {slot : Nat} {v : ValueId} {e : ConstExpr} {ty : Ty} :
      f.graph.value v = .ok (.expr e ty) → f.Interposes user slot v e.toInst ty f' → DemoteStep f f'

/-- `f'` is reached from `f` by edits that demotion makes. -/
def Demoted : Function → Function → Prop := Relation.ReflTransGen DemoteStep

theorem Demoted.refl (f : Function) : f.Demoted f := Relation.ReflTransGen.refl

theorem Demoted.invariant {P : Function → Prop} (h : f₀.Demoted f) (hf₀ : f₀.Sound) (h₀ : P f₀)
    (hstep : ∀ f f', f₀.Extends f → f.Sound → P f → f.DemoteStep f' → P f') :
    f₀.Extends f ∧ f.Sound ∧ P f := by
  refine invariant_of_edits (fun f f' hf hedit => ?_) h hf₀ h₀ hstep
  obtain ⟨-, hinter⟩ := hedit
  exact ⟨hinter.extends hf, hinter.sound⟩

theorem Demoted.sound (h : f₀.Demoted f) (hf₀ : f₀.Sound) : f.Sound :=
  (h.invariant (P := fun _ => True) hf₀ trivial fun _ _ _ _ _ _ => trivial).2.1

/-! ## Runs of demotion -/

/-- A constant expression whose location is known can be demoted. -/
theorem Sound.demoteOperand_of (hf : f.Sound) {v : ValueId} {e : ConstExpr} {ty : Ty}
    {loc : Location} (hv : f.graph.operand user slot = .ok v)
    (hval : f.graph.value v = .ok (.expr e ty)) (hloc : f.operandLocation user slot = .ok loc)
    (made : List InstId) :
    ∃ f', demoteOperand user (made, f) slot = .ok (made ++ [f.graph.nextInst], f') ∧
      f.Interposes user slot v e.toInst ty f' := by
  have hty := hf.graph.expr_type v e ty hval
  obtain ⟨mid, f', hmid, hset, hinter⟩ := hf.interpose hv hloc hty
  refine ⟨f', ?_, hinter⟩
  refine bind_eq_ok_iff.2 ⟨v, hv, bind_eq_ok_iff.2 ⟨_, hval, bind_eq_ok_iff.2 ⟨loc, hloc, ?_⟩⟩⟩
  exact bind_eq_ok_iff.2 ⟨_, hmid, bind_eq_ok_iff.2 ⟨f', hset, rfl⟩⟩

/-- `f'` is `f` with one operand demoted. -/
inductive DemotesOne (f f' : Function) : Prop
  | intro {user i : InstId} {slot : Nat} {v w : ValueId} {e : ConstExpr} {ty : Ty} {loc : Location}
      {mid : Function} : f.graph.operand user slot = .ok v → f.graph.value v = .ok (.expr e ty) →
      f.operandLocation user slot = .ok loc → f.insert loc e.toInst = .ok (⟨i, some w⟩, mid) →
      mid.setOperand user slot w = .ok f' → DemotesOne f f'

/-- `f'` is `f` with `n` operands demoted, one after the other. -/
inductive DemotesMany : Nat → Function → Function → Prop
  | refl (f : Function) : DemotesMany 0 f f
  | tail {n : Nat} {f f' f'' : Function} :
      DemotesMany n f f' → f'.DemotesOne f'' → DemotesMany (n + 1) f f''

theorem DemotesMany.trans {n k : Nat} {f'' : Function} (h : DemotesMany n f f')
    (h' : DemotesMany k f' f'') : DemotesMany (n + k) f f'' := by
  induction h' with
  | refl => exact h
  | tail _ hone ih => exact .tail (ih h) hone

/-- Demoting an operand does nothing, or makes the instruction for it. -/
theorem demoteOperand_eq_ok (h : demoteOperand user (made, f) slot = .ok (made', f')) :
    (made' = made ∧ f' = f) ∨ ∃ i, made' = made ++ [i] ∧ f.DemotesOne f' := by
  obtain ⟨v, hv, hrest⟩ := bind_eq_ok_iff.1 h
  obtain ⟨val, hval, hrest⟩ := bind_eq_ok_iff.1 hrest
  cases val with
  | expr e ty =>
      obtain ⟨loc, hloc, hrest⟩ := bind_eq_ok_iff.1 hrest
      obtain ⟨⟨⟨i, result⟩, mid⟩, hmid, hrest⟩ := bind_eq_ok_iff.1 hrest
      obtain ⟨w, rfl⟩ := result_of_insert hmid
      obtain ⟨f'', hset, hrest⟩ := bind_eq_ok_iff.1 hrest
      cases pure_eq_ok_iff.1 hrest
      exact .inr ⟨i, rfl, hv, hval, hloc, hmid, hset⟩
  | _ =>
      cases pure_eq_ok_iff.1 hrest
      exact .inl ⟨rfl, rfl⟩

/-- A loop demotes as many operands as it makes instructions, if each of its rounds does. -/
theorem foldlM_many {α : Type}
    {step : List InstId × Function → α → Except Fault (List InstId × Function)}
    (hstep : ∀ made f a made' f', step (made, f) a = .ok (made', f') →
      ∃ n, made'.length = made.length + n ∧ DemotesMany n f f') {as : List α}
    (h : as.foldlM step (made, f) = .ok (made', f')) :
    ∃ n, made'.length = made.length + n ∧ DemotesMany n f f' := by
  refine foldlM_invariant (P := fun state => ∃ n, state.1.length = made.length + n ∧
    DemotesMany n f state.2) ?_ ⟨0, rfl, .refl f⟩ h
  rintro ⟨made₁, f₁⟩ ⟨made₂, f₂⟩ a - ⟨n, hlength, hmany⟩ hround
  obtain ⟨k, hlength', hmany'⟩ := hstep made₁ f₁ a made₂ f₂ hround
  exact ⟨n + k, by rw [hlength', hlength, Nat.add_assoc], hmany.trans hmany'⟩

theorem demoteInst_many (h : demoteInst (made, f) user = .ok (made', f')) :
    ∃ n, made'.length = made.length + n ∧ DemotesMany n f f' := by
  obtain ⟨inst, -, hloop⟩ := bind_eq_ok_iff.1 h
  refine foldlM_many (fun made g slot made' g' hround => ?_) hloop
  rcases demoteOperand_eq_ok hround with ⟨rfl, rfl⟩ | ⟨i, rfl, hone⟩
  · exact ⟨0, rfl, .refl _⟩
  · exact ⟨1, List.length_append, .tail (.refl _) hone⟩

/-- A run demotes as many operands as it says. -/
theorem demoteRounds_many {rounds n : Nat} {insts : List InstId}
    (h : demoteRounds rounds insts f = .ok (n, f')) : DemotesMany n f f' := by
  induction rounds generalizing insts f n with
  | zero =>
      cases insts with
      | nil =>
          cases h
          exact .refl _
      | cons i rest => cases h
  | succ rounds ih =>
      cases insts with
      | nil =>
          cases h
          exact .refl _
      | cons i rest =>
          obtain ⟨⟨made, g⟩, hround, hrest⟩ := bind_eq_ok_iff.1 h
          obtain ⟨⟨k, g'⟩, hrounds, hrest⟩ := bind_eq_ok_iff.1 hrest
          cases pure_eq_ok_iff.1 hrest
          obtain ⟨count, hlength, hmany⟩ := foldlM_many (fun _ _ _ _ _ => demoteInst_many) hround
          rw [List.length_nil, Nat.zero_add] at hlength
          rw [hlength]
          exact hmany.trans (ih hrounds)

theorem DemotesOne.demoteStep (h : f.DemotesOne f') (hf : f.Sound) : f.DemoteStep f' := by
  obtain ⟨hv, hval, hloc, hins, hset⟩ := h
  obtain ⟨mid, f'', hmid, hset', hinter⟩ := hf.interpose hv hloc (hf.graph.expr_type _ _ _ hval)
  cases hins.symm.trans hmid
  cases hset.symm.trans hset'
  exact ⟨hval, hinter⟩

theorem DemotesMany.demoted {n : Nat} (h : DemotesMany n f f') (hf : f.Sound) : f.Demoted f' := by
  induction h with
  | refl => exact .refl _
  | tail _ hone ih =>
      have hdemoted := ih hf
      exact hdemoted.tail (hone.demoteStep (hdemoted.sound hf))

/-- Edits of demotion lead to the function that a run gives. -/
theorem Sound.demote_demoted (hf : f.Sound) {changed : Bool} (h : f.demote = .ok (changed, f')) :
    f.Demoted f' := by
  obtain ⟨⟨count, g⟩, hrounds, hrest⟩ := bind_eq_ok_iff.1 h
  cases pure_eq_ok_iff.1 hrest
  exact (demoteRounds_many hrounds).demoted hf

end Pointee.Function
