import Pointee.Proofs.OperandScope

/-!
# Single assignment form

`Function.InSSA` says that every value is defined before it is used: phis stand first and
terminators last in their blocks, and the definition of an operand stands before its user, in the
same block or in one that dominates it; for a phi, it is available at the end of the block that the
operand comes with. The passes edit a function in three ways, and each keeps the form:
`Ready.interposes` for a new instruction where an operand is computed, `Ready.follows` for one
directly behind a definition, and `Ready.redirects` for a use that goes on to the latter.
-/

namespace Pointee

theorem Inst.targets_eq_nil {inst : Inst} (h : inst.isTerminator = false) : inst.targets = [] := by
  cases inst with
  | jump | branch => cases h
  | _ => rfl

namespace Function

variable {f f' : Function} {b c d : BlockId} {front back : List InstId} {inst : Inst} {ty : Ty}
  {i j user : InstId} {slot : Nat} {v new : ValueId}

/-- `i` stands before `j` in block `b`. -/
def Precedes (f : Function) (b : BlockId) (i j : InstId) : Prop :=
  [i, j].Sublist (f.layout.instsOf b)

/-- What `i` defines is defined earlier in block `b` than `user`, or in a block that dominates `b`.
-/
def DefinedBefore (f : Function) (i : InstId) (b : BlockId) (user : InstId) : Prop :=
  f.Precedes b i user ∨ ∃ d, d ≠ b ∧ i ∈ f.layout.instsOf d ∧ f.Dominates d b

/-- What `i` defines is available at the end of block `b`. -/
def AvailableAtEnd (f : Function) (i : InstId) (b : BlockId) : Prop :=
  ∃ d, i ∈ f.layout.instsOf d ∧ f.Dominates d b

/-- The function is in single assignment form. -/
structure InSSA (f : Function) : Prop where
  phis_first : ∀ b i j, f.Precedes b i j → f.IsPhi j → f.IsPhi i
  terminator_last : ∀ b i j, f.Precedes b i j → ¬ f.IsTerminator i
  operand_defined : ∀ b user slot v i ty, user ∈ f.layout.instsOf b → ¬ f.IsPhi user →
    f.graph.operand user slot = .ok v → f.graph.value v = .ok (.inst i ty) →
    f.DefinedBefore i b user
  incoming_available : ∀ b user slot source v i ty, user ∈ f.layout.instsOf b →
    f.ComesFrom user slot source → f.graph.operand user slot = .ok v →
    f.graph.value v = .ok (.inst i ty) → f.AvailableAtEnd i source

/-! ## Order in a block -/

/-- A pair in order in a joined list lies in the one part, across, or in the other part. -/
theorem pair_sublist_append {α : Type} {a b : α} {xs ys : List α} : [a, b].Sublist (xs ++ ys) ↔
    [a, b].Sublist xs ∨ (a ∈ xs ∧ b ∈ ys) ∨ [a, b].Sublist ys := by
  induction xs with
  | nil => simp
  | cons x xs ih =>
      rw [List.cons_append, List.cons_sublist_cons', List.cons_sublist_cons', ih,
        List.singleton_sublist, List.singleton_sublist, List.mem_append, List.mem_cons]
      grind

/-- Before `j` in its row is what stands in front of it. -/
theorem Sound.precedes_iff_mem_front (hf : f.Sound)
    (hrow : f.layout.instsOf b = front ++ j :: back) : f.Precedes b i j ↔ i ∈ front := by
  have hnodup := hf.layout.nodup b
  rw [hrow, List.nodup_append, List.nodup_cons] at hnodup
  unfold Precedes
  rw [hrow, pair_sublist_append]
  constructor
  · rintro (hij | ⟨hi, -⟩ | hij)
    · exact absurd rfl (hnodup.2.2 j (hij.subset (by simp)) j (by simp))
    · exact hi
    · rcases List.cons_sublist_cons'.1 hij with hij | ⟨-, hij⟩
      · exact absurd (hij.subset (by simp)) hnodup.2.1.1
      · exact absurd (List.singleton_sublist.1 hij) hnodup.2.1.1
  · intro hi
    exact .inr (.inl ⟨hi, List.mem_cons_self⟩)

/-- Behind `i` in its row is what it stands in front of. -/
theorem Sound.precedes_iff_mem_back (hf : f.Sound)
    (hrow : f.layout.instsOf b = front ++ i :: back) : f.Precedes b i j ↔ j ∈ back := by
  have hnodup := hf.layout.nodup b
  rw [hrow, List.nodup_append, List.nodup_cons] at hnodup
  unfold Precedes
  rw [hrow, pair_sublist_append]
  constructor
  · rintro (hij | ⟨hi, -⟩ | hij)
    · exact absurd rfl (hnodup.2.2 i (hij.subset (by simp)) i (by simp))
    · exact absurd rfl (hnodup.2.2 i hi i (by simp))
    · rcases List.cons_sublist_cons'.1 hij with hij | ⟨-, hij⟩
      · exact absurd (hij.subset (by simp)) hnodup.2.1.1
      · exact List.singleton_sublist.1 hij
  · intro hj
    exact .inr (.inr ((List.singleton_sublist.2 hj).cons_cons i))

/-- Among the pairs that stand in order after an insertion, the new ones are those with the new
instruction. -/
theorem Inserts.precedes_iff (h : f.Inserts b front inst ty back f') :
    f'.Precedes c i j ↔ f.Precedes c i j ∨
      c = b ∧ (i ∈ front ∧ j = f.graph.nextInst ∨ i = f.graph.nextInst ∧ j ∈ back) := by
  unfold Precedes
  rw [h.layout.instsOf_eq]
  by_cases hc : b = c
  · subst hc
    rw [if_pos rfl, h.layout.row_before]
    rw [pair_sublist_append, pair_sublist_append, List.cons_sublist_cons', List.singleton_sublist,
      List.mem_cons]
    grind
  · rw [if_neg hc]
    simp [Ne.symm hc]

theorem Inserts.definedBefore (h : f.Inserts b front inst ty back f') (hf : f.Sound)
    (hterm : inst.isTerminator = false) (hi : f.DefinedBefore i c user) :
    f'.DefinedBefore i c user := by
  rcases hi with hi | ⟨d, hd, hi, hdom⟩
  · exact .inl (h.precedes_iff.2 (.inl hi))
  · refine .inr ⟨d, hd, h.layout.mem_instsOf.2 (.inl hi), ?_⟩
    exact (h.dominates_iff hf (Inst.targets_eq_nil hterm)).2 hdom

theorem Inserts.availableAtEnd (h : f.Inserts b front inst ty back f') (hf : f.Sound)
    (hterm : inst.isTerminator = false) (hi : f.AvailableAtEnd i c) : f'.AvailableAtEnd i c := by
  obtain ⟨d, hi, hdom⟩ := hi
  refine ⟨d, h.layout.mem_instsOf.2 (.inl hi), ?_⟩
  exact (h.dominates_iff hf (Inst.targets_eq_nil hterm)).2 hdom

theorem Rewires.precedes_iff (h : f.Rewires user slot v f') :
    f'.Precedes c i j ↔ f.Precedes c i j := by
  unfold Precedes
  rw [h.layout]

theorem Rewires.definedBefore_iff (h : f.Rewires user slot v f') :
    f'.DefinedBefore i c j ↔ f.DefinedBefore i c j := by
  unfold DefinedBefore
  simp only [h.precedes_iff, h.layout, h.dominates_iff]

theorem Rewires.availableAtEnd_iff (h : f.Rewires user slot v f') :
    f'.AvailableAtEnd i c ↔ f.AvailableAtEnd i c := by
  unfold AvailableAtEnd
  simp only [h.layout, h.dominates_iff]

/-! ## The two elementary edits -/

/-- An instruction may go where no phi follows, no terminator precedes and its operands are
defined. -/
theorem InSSA.inserts (h : f.InSSA) (hf : f.Sound) (hclosed : f.graph.Closed)
    (hins : f.Inserts b front inst ty back f') (hphi : inst.isPhi = false)
    (hterm : inst.isTerminator = false) (hback : ∀ j ∈ back, ¬ f.IsPhi j)
    (hfront : ∀ i ∈ front, ¬ f.IsTerminator i)
    (hoperands : ∀ v ∈ inst.operands, f.graph.Has v ∧ ∀ i ty, f.graph.value v = .ok (.inst i ty) →
      i ∈ front ∨ ∃ d, d ≠ b ∧ i ∈ f.layout.instsOf d ∧ f.Dominates d b) : f'.InSSA := by
  have hdom : ∀ {d c}, f'.Dominates d c ↔ f.Dominates d c :=
    hins.dominates_iff hf (Inst.targets_eq_nil hterm)
  have hisPhi : ∀ i, f'.IsPhi i ↔ f.IsPhi i := hins.instIs_iff (by simp [hphi])
  have hisTerm : ∀ i, f'.IsTerminator i ↔ f.IsTerminator i := hins.instIs_iff (by simp [hterm])
  have hnewPhi : ¬ f.IsPhi f.graph.nextInst := by
    rintro ⟨x, hx, -⟩
    exact absurd (Graph.inst_lt hx) (Nat.lt_irrefl _)
  have hnewTerm : ¬ f.IsTerminator f.graph.nextInst := by
    rintro ⟨x, hx, -⟩
    exact absurd (Graph.inst_lt hx) (Nat.lt_irrefl _)
  -- The operands of an instruction that was there exist, so they mean what they meant.
  have hvalue : ∀ {u s v i ty}, f.graph.operand u s = .ok v → f'.graph.value v = .ok (.inst i ty) →
      f.graph.value v = .ok (.inst i ty) := by
    intro u s v i ty hv hval
    obtain ⟨val, hold⟩ := (hclosed u s v hv).exists_value
    cases hval.symm.trans (hins.keeps v val hold)
    exact hold
  refine ⟨?_, ?_, ?_, ?_⟩
  · intro c i j hij hj
    rw [hisPhi] at hj ⊢
    rcases hins.precedes_iff.1 hij with hij | ⟨rfl, ⟨-, rfl⟩ | ⟨-, hjback⟩⟩
    · exact h.phis_first c i j hij hj
    · exact absurd hj hnewPhi
    · exact absurd hj (hback j hjback)
  · intro c i j hij hi
    rw [hisTerm] at hi
    rcases hins.precedes_iff.1 hij with hij | ⟨rfl, ⟨hifront, -⟩ | ⟨rfl, -⟩⟩
    · exact h.terminator_last c i j hij hi
    · exact hfront i hifront hi
    · exact hnewTerm hi
  · intro c u s v i vty hu hnphi hv hval
    rw [hisPhi] at hnphi
    rcases hins.layout.mem_instsOf.1 hu with hu | ⟨rfl, rfl⟩
    · have hold : f.graph.operand u s = .ok v := by
        rw [hins.operand_eq, if_neg] at hv
        · exact hv
        · rintro rfl
          exact hf.nextInst_fresh c hu
      refine hins.definedBefore hf hterm ?_
      exact h.operand_defined c u s v i vty hu hnphi hold (hvalue hold hval)
    · rw [hins.operand_eq, if_pos rfl, require_eq_ok_iff] at hv
      obtain ⟨hhas, hdef⟩ := hoperands v (List.mem_of_getElem? hv)
      obtain ⟨val, hold⟩ := hhas.exists_value
      cases hval.symm.trans (hins.keeps v val hold)
      rcases hdef i vty hold with hi | ⟨d, hd, hi, hidom⟩
      · exact .inl (hins.precedes_iff.2 (.inr ⟨rfl, .inl ⟨hi, rfl⟩⟩))
      · exact .inr ⟨d, hd, hins.layout.mem_instsOf.2 (.inl hi), hdom.2 hidom⟩
  · intro c u s source v i vty hu hfrom hv hval
    have hnew : ¬ inst.source? s = some source := fun hs => by
      rw [Inst.isPhi_of_source hs] at hphi
      cases hphi
    unfold ComesFrom at hfrom
    rw [hins.instIs_iff hnew] at hfrom
    have hne : u ≠ f.graph.nextInst := by
      rintro rfl
      obtain ⟨x, hx, -⟩ := hfrom
      exact absurd (Graph.inst_lt hx) (Nat.lt_irrefl _)
    rw [hins.operand_eq, if_neg hne] at hv
    have hu' : u ∈ f.layout.instsOf c := by
      rcases hins.layout.mem_instsOf.1 hu with hu | ⟨rfl, -⟩
      · exact hu
      · exact absurd rfl hne
    refine hins.availableAtEnd hf hterm ?_
    exact h.incoming_available c u s source v i vty hu' hfrom hv (hvalue hv hval)

/-- A value that is available may become an operand. -/
theorem InSSA.rewires (h : f.InSSA) (hr : f.Rewires user slot new f')
    (hnew : ∀ i ty c, f.graph.value new = .ok (.inst i ty) → user ∈ f.layout.instsOf c →
      (¬ f.IsPhi user → f.DefinedBefore i c user) ∧
      ∀ source, f.ComesFrom user slot source → f.AvailableAtEnd i source) : f'.InSSA := by
  have hisPhi : ∀ i, f'.IsPhi i ↔ f.IsPhi i := hr.instIs_iff Inst.ofShape_isPhi
  refine ⟨?_, ?_, ?_, ?_⟩
  · intro c i j hij
    rw [hisPhi, hisPhi]
    exact h.phis_first c i j (hr.precedes_iff.1 hij)
  · intro c i j hij hi
    unfold IsTerminator at hi
    rw [hr.instIs_iff Inst.ofShape_isTerminator] at hi
    exact h.terminator_last c i j (hr.precedes_iff.1 hij) hi
  · intro c u s v i vty hu hnphi hv hval
    rw [hr.layout] at hu
    rw [hisPhi] at hnphi
    rw [hr.graph.operand_eq] at hv
    rw [hr.graph.value_eq] at hval
    rw [hr.definedBefore_iff]
    split at hv
    · next hcut =>
        obtain ⟨rfl, rfl⟩ := hcut
        cases hv
        exact (hnew i vty c hval hu).1 hnphi
    · exact h.operand_defined c u s v i vty hu hnphi hv hval
  · intro c u s source v i vty hu hfrom hv hval
    rw [hr.layout] at hu
    unfold ComesFrom at hfrom
    rw [hr.instIs_iff (Inst.ofShape_source s source)] at hfrom
    rw [hr.graph.operand_eq] at hv
    rw [hr.graph.value_eq] at hval
    rw [hr.availableAtEnd_iff]
    split at hv
    · next hcut =>
        obtain ⟨rfl, rfl⟩ := hcut
        cases hv
        exact (hnew i vty c hval hu).2 source hfrom
    · exact h.incoming_available c u s source v i vty hu hfrom hv hval

/-! ## The edits of the passes -/

/-- What the passes need, and keep: a sound function in single assignment form, whose operands exist
and whose constant expressions are built over constants. -/
structure Ready (f : Function) : Prop where
  sound : f.Sound
  closed : f.graph.Closed
  constParts : f.graph.ConstParts
  ssa : f.InSSA

namespace Ready

/-- An insertion that keeps single assignment form keeps the function ready. -/
theorem inserts (h : f.Ready) (hins : f.Inserts b front inst ty back f')
    (hoperands : ∀ v ∈ inst.operands, f.graph.Has v) (hssa : f'.InSSA) : f'.Ready :=
  ⟨hins.sound, hins.closed h.closed hoperands, hins.constParts h.constParts,
    hssa⟩

theorem rewires (h : f.Ready) (hr : f.Rewires user slot new f') (hnew : f.graph.Has new)
    (hssa : f'.InSSA) : f'.Ready :=
  ⟨hr.sound h.sound, hr.closed h.closed hnew, hr.constParts h.constParts, hssa⟩

/-- A place where an operand is computed has no phi behind it and no terminator before it. -/
theorem place_allowed (h : f.Ready) (hplace : f.ComputesAt user slot b front back) :
    (∀ j ∈ back, ¬ f.IsPhi j) ∧ ∀ i ∈ front, ¬ f.IsTerminator i := by
  cases hplace with
  | @before x _ _ back hx hphi hrow =>
      have huser : ¬ f.IsPhi user := fun his => by
        rw [his.of_inst hx] at hphi
        cases hphi
      refine ⟨fun j hj his => ?_, fun i hi => ?_⟩
      · rcases List.mem_cons.1 hj with rfl | hj
        · exact huser his
        · have hprec := (h.sound.precedes_iff_mem_back hrow).2 hj
          exact huser (h.ssa.phis_first b user j hprec his)
      · exact h.ssa.terminator_last b i user ((h.sound.precedes_iff_mem_front hrow).2 hi)
  | @beforeTerminator _ _ _ _ _ last x hphi hsource hrow hx hterm =>
      refine ⟨fun j hj his => ?_, fun i hi => ?_⟩
      · obtain rfl : j = last := by simpa using hj
        have hxphi := his.of_inst hx
        cases x with
        | phi => cases hterm
        | _ => cases hxphi
      · exact h.ssa.terminator_last b i last ((h.sound.precedes_iff_mem_front hrow).2 hi)
  | bottom _ _ _ hlast =>
      refine ⟨fun j hj => absurd hj List.not_mem_nil, fun i hi his => ?_⟩
      -- Only the last instruction of the block could be a terminator, and it is none.
      obtain ⟨left, right, hrow⟩ := List.append_of_mem hi
      cases right with
      | nil =>
          obtain ⟨x, hx, hterm⟩ := his
          rw [hlast i x (by rw [hrow]; simp) hx] at hterm
          cases hterm
      | cons j right =>
          have hprec := (h.sound.precedes_iff_mem_back hrow).2 (List.mem_cons_self (a := j))
          exact h.ssa.terminator_last b i j hprec his

/-- A new instruction may stand where an operand is computed and take its place. Its own operands
are the old one, unless the user is a phi, or no results of instructions. -/
theorem interposes (h : f.Ready) {old : ValueId} (hinter : f.Interposes user slot old inst ty f')
    (hphi : inst.isPhi = false) (hterm : inst.isTerminator = false)
    (hoperands : ∀ v ∈ inst.operands, f.graph.Has v ∧
      ∀ i ty, f.graph.value v = .ok (.inst i ty) → v = old ∧ ¬ f.IsPhi user) : f'.Ready := by
  obtain ⟨b, front, back, mid, hplace, hins, hr⟩ := hinter.edits
  obtain ⟨hback, hfront⟩ := h.place_allowed hplace
  have hmid : mid.Ready := by
    refine h.inserts hins (fun v hv => (hoperands v hv).1) ?_
    refine h.ssa.inserts h.sound h.closed hins hphi hterm hback hfront fun v hv => ?_
    refine ⟨(hoperands v hv).1, fun i vty hval => ?_⟩
    obtain ⟨rfl, hnphi⟩ := (hoperands v hv).2 i vty hval
    cases hplace with
    | @before x _ _ back hx _ hrow =>
        have huser : user ∈ f.layout.instsOf b := by rw [hrow]; simp
        have hdef := h.ssa.operand_defined b user slot v i vty huser hnphi hinter.operand hval
        exact hdef.imp_left (h.sound.precedes_iff_mem_front hrow).1
    | beforeTerminator hx => exact absurd ⟨_, hx, rfl⟩ hnphi
    | bottom hx => exact absurd ⟨_, hx, rfl⟩ hnphi
  refine hmid.rewires hr (Graph.has_of_value hins.value_new) (hmid.ssa.rewires hr ?_)
  intro i vty c hval hc
  cases hval.symm.trans hins.value_new
  have hnewmem : f.graph.nextInst ∈ mid.layout.instsOf b := by rw [hins.layout.row_after]; simp
  cases hplace with
  | @before x _ _ back hx hxphi hrow =>
      refine ⟨fun _ => ?_, fun source hfrom => ?_⟩
      · have huser : user ∈ mid.layout.instsOf b := by rw [hins.layout.row_after]; simp
        obtain rfl := hins.sound.layout.block_unique huser hc
        exact .inl (hins.precedes_iff.2 (.inr ⟨rfl, .inr ⟨rfl, by simp⟩⟩))
      · rw [Inst.isPhi_of_source (hfrom.of_inst (hins.inst_old hx))] at hxphi
        cases hxphi
  | beforeTerminator hx hsource | bottom hx hsource =>
      refine ⟨fun hnphi => absurd ⟨_, hins.inst_old hx, rfl⟩ hnphi, fun source hfrom => ?_⟩
      have heq := hfrom.of_inst (hins.inst_old hx)
      simp only [Inst.source?, hsource, Option.map_some, Option.some.injEq] at heq
      exact ⟨b, hnewmem, heq ▸ Dominates.refl mid b⟩

/-- A marker may stand directly behind the instruction whose value it wraps. -/
theorem follows (h : f.Ready) (hinst : f.graph.inst i = .ok inst) (hphi : inst.isPhi = false)
    (hterm : inst.isTerminator = false) (hresult : f.graph.result? i = some v)
    (hins : f.Inserts b (front ++ [i]) (.marker v ty) ty back f') : f'.Ready := by
  have hrow : f.layout.instsOf b = front ++ i :: back := by simpa using hins.layout.row_before
  obtain ⟨vty, hv⟩ := (h.sound.graph.result_iff i v).1 hresult
  have hhas : ∀ w ∈ (Inst.marker v ty).operands, f.graph.Has w := by
    intro w hw
    obtain rfl : w = v := by simpa [Inst.marker, Inst.operands] using hw
    exact Graph.has_of_value hv
  refine h.inserts hins hhas (h.ssa.inserts h.sound h.closed hins rfl rfl ?_ ?_ ?_)
  · intro j hj his
    have hprec := (h.sound.precedes_iff_mem_back hrow).2 hj
    have hisPhi := (h.ssa.phis_first b i j hprec his).of_inst hinst
    rw [hphi] at hisPhi
    cases hisPhi
  · intro k hk his
    rcases List.mem_append.1 hk with hk | hk
    · exact h.ssa.terminator_last b k i ((h.sound.precedes_iff_mem_front hrow).2 hk) his
    · obtain rfl : k = i := by simpa using hk
      have hisTerm := his.of_inst hinst
      rw [hterm] at hisTerm
      cases hisTerm
  · intro w hw
    refine ⟨hhas w hw, fun k kty hk => .inl ?_⟩
    obtain rfl : w = v := by simpa [Inst.marker, Inst.operands] using hw
    cases hk.symm.trans hv
    simp

/-- A user of a value may take the value of the instruction directly behind its definition. -/
theorem redirects (h : f.Ready) {m : InstId} {old : ValueId}
    (hresult : f.graph.result? i = some old) (hop : f.graph.operand user slot = .ok old)
    (hrow : f.layout.instsOf b = front ++ i :: m :: back) (hne : user ≠ m)
    (hnew : f.graph.value new = .ok (.inst m ty)) (hr : f.Rewires user slot new f') :
    f'.Ready := by
  obtain ⟨vty, hv⟩ := (h.sound.graph.result_iff i old).1 hresult
  have hi : i ∈ f.layout.instsOf b := by rw [hrow]; simp
  have hm : m ∈ f.layout.instsOf b := by rw [hrow]; simp
  refine h.rewires hr (Graph.has_of_value hnew) (h.ssa.rewires hr ?_)
  intro k kty c hk hc
  cases hk.symm.trans hnew
  refine ⟨fun hnphi => ?_, fun source hfrom => ?_⟩
  · rcases h.ssa.operand_defined c user slot old i vty hc hnphi hop hv with
      hprec | ⟨d, hd, hid, hdom⟩
    · obtain rfl := h.sound.layout.block_unique hi (hprec.subset (by simp))
      have hback := (h.sound.precedes_iff_mem_back hrow).1 hprec
      have hrow' : f.layout.instsOf b = (front ++ [i]) ++ m :: back := by simpa using hrow
      refine .inl ((h.sound.precedes_iff_mem_back hrow').2 ?_)
      exact (List.mem_cons.1 hback).resolve_left hne
    · obtain rfl := h.sound.layout.block_unique hi hid
      exact .inr ⟨b, hd, hm, hdom⟩
  · obtain ⟨d, hid, hdom⟩ := h.ssa.incoming_available c user slot source old i vty hc hfrom hop hv
    obtain rfl := h.sound.layout.block_unique hi hid
    exact ⟨b, hm, hdom⟩

end Ready

/-! ## Functions of one block -/

/-- Whether one of the given instructions defines the value, or none at all. -/
def definedIn (f : Function) (candidates : List InstId) (v : ValueId) : Bool :=
  match f.graph.value v with
  | .ok (.inst i _) => i ∈ candidates
  | _ => true

theorem mem_of_definedIn {candidates : List InstId} (h : f.definedIn candidates v = true)
    (hv : f.graph.value v = .ok (.inst i ty)) : i ∈ candidates := by
  simpa [definedIn, hv] using h

/-- Whether the instruction `j` of the only block `b` stands where it may. -/
def checkPlace (f : Function) (b : BlockId) (j : InstId) : Bool :=
  let before := (f.layout.instsOf b).takeWhile (· ≠ j)
  succeeds (f.graph.inst j) fun y =>
    before.all (fun i => succeeds (f.graph.inst i) fun x =>
      !x.isTerminator && (!y.isPhi || x.isPhi)) &&
    y.operands.zipIdx.all fun (v, slot) =>
      if y.isPhi then y.source? slot = some b && f.definedIn (f.layout.instsOf b) v
      else f.definedIn before v

/-- Whether a function whose only block is `b` is in single assignment form. -/
def checkBlock (f : Function) (b : BlockId) : Bool :=
  f.layout.blockOrder = [b] && (f.layout.instsOf b).all (f.checkPlace b)

theorem inSSA_of_checkBlock (hf : f.Sound) (h : f.checkBlock b = true) : f.InSSA := by
  simp only [checkBlock, Bool.and_eq_true, decide_eq_true_eq, List.all_eq_true] at h
  obtain ⟨horder, hrow⟩ := h
  have hblock : ∀ {c j}, j ∈ f.layout.instsOf c → c = b := by
    intro c j hj
    have hc := hf.layout.mem_order hj
    rw [horder] at hc
    exact List.mem_singleton.1 hc
  -- What the check takes before an instruction is what stands in front of it.
  have hfront : ∀ {i j}, j ∈ f.layout.instsOf b →
      (f.Precedes b i j ↔ i ∈ (f.layout.instsOf b).takeWhile (· ≠ j)) := by
    intro i j hj
    obtain ⟨front, back, hsplit⟩ := List.append_of_mem hj
    have hnodup := hf.layout.nodup b
    rw [hsplit, List.nodup_middle, List.nodup_cons] at hnodup
    have hall : ∀ k ∈ front, decide (k ≠ j) = true := by
      intro k hk
      have hne : k ≠ j := by
        rintro rfl
        exact hnodup.1 (List.mem_append_left _ hk)
      simpa using hne
    rw [hf.precedes_iff_mem_front hsplit, hsplit, List.takeWhile_append_of_pos hall]
    simp
  have hplace : ∀ {j}, j ∈ f.layout.instsOf b → ∃ y, f.graph.inst j = .ok y ∧
      (∀ i, f.Precedes b i j → ∃ x, f.graph.inst i = .ok x ∧ x.isTerminator = false ∧
        (y.isPhi = true → x.isPhi = true)) ∧
      ∀ slot v, y.operands[slot]? = some v →
        if y.isPhi then y.source? slot = some b ∧ f.definedIn (f.layout.instsOf b) v = true
        else f.definedIn ((f.layout.instsOf b).takeWhile (· ≠ j)) v = true := by
    intro j hj
    obtain ⟨y, hy, hcheck⟩ := exists_of_succeeds (hrow j hj)
    simp only [Bool.and_eq_true, List.all_eq_true] at hcheck
    refine ⟨y, hy, fun i hij => ?_, fun slot v hv => ?_⟩
    · obtain ⟨x, hx, hkind⟩ := exists_of_succeeds (hcheck.1 i ((hfront hj).1 hij))
      refine ⟨x, hx, ?_⟩
      cases hphi : y.isPhi <;> simp_all
    · have hslot := hcheck.2 (v, slot) (List.mem_zipIdx_iff_getElem?.2 hv)
      cases hphi : y.isPhi <;> simp_all
  refine ⟨?_, ?_, ?_, ?_⟩
  · intro c i j hij hj
    have hjrow : j ∈ f.layout.instsOf c := hij.subset (by simp)
    obtain rfl := hblock hjrow
    obtain ⟨y, hy, hbefore, -⟩ := hplace hjrow
    obtain ⟨x, hx, -, hphi⟩ := hbefore i hij
    exact ⟨x, hx, hphi (hj.of_inst hy)⟩
  · intro c i j hij hi
    have hjrow : j ∈ f.layout.instsOf c := hij.subset (by simp)
    obtain rfl := hblock hjrow
    obtain ⟨y, -, hbefore, -⟩ := hplace hjrow
    obtain ⟨x, hx, hterm, -⟩ := hbefore i hij
    rw [hi.of_inst hx] at hterm
    cases hterm
  · intro c user slot v i ty huser hnphi hv hval
    obtain rfl := hblock huser
    obtain ⟨y, hy, -, hslots⟩ := hplace huser
    obtain ⟨y', hy', hslot⟩ := Graph.operand_eq_ok.1 hv
    cases hy.symm.trans hy'
    have hcheck := hslots slot v hslot
    rw [if_neg (fun hphi => hnphi ⟨y, hy, hphi⟩)] at hcheck
    exact .inl ((hfront huser).2 (mem_of_definedIn hcheck hval))
  · intro c user slot source v i ty huser hfrom hv hval
    obtain rfl := hblock huser
    obtain ⟨y, hy, -, hslots⟩ := hplace huser
    obtain ⟨y', hy', hslot⟩ := Graph.operand_eq_ok.1 hv
    cases hy.symm.trans hy'
    have hsource := hfrom.of_inst hy
    have hcheck := hslots slot v hslot
    rw [if_pos (Inst.isPhi_of_source hsource)] at hcheck
    cases hsource.symm.trans hcheck.1
    exact ⟨c, mem_of_definedIn hcheck.2 hval, Dominates.refl f c⟩

end Function

end Pointee
