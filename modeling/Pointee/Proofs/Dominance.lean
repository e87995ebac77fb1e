import Pointee.Proofs.FunctionEdits

/-!
# Control flow and dominance

Control goes from block to block along the targets of terminators. A block dominates another one if
every path from the entry passes through it, so everything dominates a block that no path reaches.
Inserting an instruction that is no terminator and rewiring an operand change neither the kinds of
the instructions that are there nor the paths; `Inserts.dominates_iff` and `Rewires.dominates_iff`
are what the rest of the development uses.
-/

namespace Pointee

namespace Inst

/-- The blocks that control may go to. -/
def targets : Inst → List BlockId
  | jump dest => [dest]
  | branch _ onTrue onFalse => [onTrue, onFalse]
  | _ => []

/-- The block that operand `slot` of a phi comes with. -/
def source? (slot : Nat) : Inst → Option BlockId
  | phi _ incoming => incoming[slot]?.map (·.2)
  | _ => none

theorem isPhi_of_source {inst : Inst} {slot : Nat} {b : BlockId}
    (h : inst.source? slot = some b) : inst.isPhi = true := by
  cases inst with
  | phi => rfl
  | _ => cases h

theorem ofShape_isTerminator : OfShape (·.isTerminator = true) := by
  intro inst
  cases inst <;> exact Iff.rfl

theorem ofShape_targets (c : BlockId) : OfShape (c ∈ ·.targets) := by
  intro inst
  cases inst <;> exact Iff.rfl

theorem ofShape_source (slot : Nat) (b : BlockId) : OfShape (·.source? slot = some b) := by
  intro inst
  cases inst with
  | phi ty incoming =>
      simp only [shape, mapOperands, source?, List.getElem?_mapIdx, Option.map_map]
      rfl
  | _ => exact Iff.rfl

end Inst

namespace Function

variable {f f' : Function} {b c d : BlockId} {front back : List InstId} {inst : Inst} {ty : Ty}
  {i user : InstId} {slot : Nat} {v : ValueId}

/-! ## Kinds of instructions -/

/-- The instruction behind `i` is a phi. -/
def IsPhi (f : Function) (i : InstId) : Prop := f.InstIs i (·.isPhi = true)

/-- The instruction behind `i` ends its block. -/
def IsTerminator (f : Function) (i : InstId) : Prop := f.InstIs i (·.isTerminator = true)

/-- Operand `slot` of the phi behind `i` comes with block `b`. -/
def ComesFrom (f : Function) (i : InstId) (slot : Nat) (b : BlockId) : Prop :=
  f.InstIs i (·.source? slot = some b)

/-! ## Paths -/

/-- Control may go from `b` to `c`. -/
def Edge (f : Function) (b c : BlockId) : Prop :=
  ∃ i ∈ f.layout.instsOf b, f.InstIs i (c ∈ ·.targets)

/-- The blocks of a path from the entry to `b`, the last one first. -/
inductive Path (f : Function) : BlockId → List BlockId → Prop
  | entry {b : BlockId} : f.layout.entry = some b → Path f b [b]
  | step {b c : BlockId} {p : List BlockId} : Path f b p → f.Edge b c → Path f c (c :: p)

/-- Every path from the entry to `b` passes through `d`. -/
def Dominates (f : Function) (d b : BlockId) : Prop := ∀ p, f.Path b p → d ∈ p

theorem Dominates.refl (f : Function) (b : BlockId) : f.Dominates b b := by
  intro p hp
  cases hp with
  | entry => exact List.mem_singleton_self b
  | step => exact List.mem_cons_self

theorem Path.of_edges {p : List BlockId} (h : f.Path b p)
    (hentry : f'.layout.entry = f.layout.entry) (hedge : ∀ b c, f.Edge b c → f'.Edge b c) :
    f'.Path b p := by
  induction h with
  | entry h => exact .entry (hentry.trans h)
  | step _ hstep ih => exact .step ih (hedge _ _ hstep)

/-- Dominance depends on the entry and the edges alone. -/
theorem dominates_iff_of_edges (hentry : f'.layout.entry = f.layout.entry)
    (hedge : ∀ b c, f'.Edge b c ↔ f.Edge b c) : f'.Dominates d b ↔ f.Dominates d b := by
  constructor
  · intro h p hp
    exact h p (hp.of_edges hentry fun b c => (hedge b c).2)
  · intro h p hp
    exact h p (hp.of_edges hentry.symm fun b c => (hedge b c).1)

theorem Inserts.dominates_iff (h : f.Inserts b front inst ty back f') (hf : f.Sound)
    (htargets : inst.targets = []) : f'.Dominates d c ↔ f.Dominates d c := by
  refine dominates_iff_of_edges ?_ fun b₁ c₁ => ?_
  · rw [h.layout.sound.entry, h.layout.blockOrder_eq, hf.layout.entry]
  · have hnew : ¬ c₁ ∈ inst.targets := by simp [htargets]
    unfold Edge
    constructor
    · rintro ⟨i, hi, his⟩
      rw [h.instIs_iff hnew] at his
      rcases h.layout.mem_instsOf.1 hi with hi | ⟨rfl, -⟩
      · exact ⟨i, hi, his⟩
      · obtain ⟨x, hx, -⟩ := his
        exact absurd (Graph.inst_lt hx) (Nat.lt_irrefl _)
    · rintro ⟨i, hi, his⟩
      exact ⟨i, h.layout.mem_instsOf.2 (.inl hi), (h.instIs_iff hnew i).2 his⟩

theorem Rewires.dominates_iff (h : f.Rewires user slot v f') :
    f'.Dominates d c ↔ f.Dominates d c := by
  refine dominates_iff_of_edges (by rw [h.layout]) fun b₁ c₁ => ?_
  unfold Edge
  rw [h.layout]
  simp only [h.instIs_iff (Inst.ofShape_targets c₁)]

end Function

end Pointee
