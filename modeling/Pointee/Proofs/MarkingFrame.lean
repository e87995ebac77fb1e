import Pointee.Proofs.AnnotatedSlots
import Pointee.Proofs.MarkingSteps
import Pointee.Proofs.OperandScope

/-!
# What marking an instruction leaves alone

Marking works through the instructions one after another, and an edit made for one of them may
change operands of others. `MarkStep.operand_old` and `MarkStep.operand_new` say all that an edit
does to operands: an old operand stays, or the value of a marker takes its place. So what is wrapped
stays wrapped, no slot becomes the address of a global, and only its own edits touch the result of
an instruction. `Function.Frame` collects this, and `MarkedFor.frame` says it of all edits for one
instruction.
-/

namespace Pointee

namespace Inst

/-- Whether the instruction is an address computation without a base pointer. -/
def lacksBase : Inst → Bool
  | gep _ _ [] => true
  | _ => false

/-- The function that an instruction calls. -/
def callee? : Inst → Option FuncId
  | call callee _ _ => some callee
  | _ => none

theorem lacksBase_shape (inst : Inst) : inst.shape.lacksBase = inst.lacksBase := by
  cases inst with
  | gep source result args => cases args <;> simp [shape, mapOperands, lacksBase]
  | _ => rfl

theorem callee?_shape (inst : Inst) : inst.shape.callee? = inst.callee? := by
  cases inst <;> rfl

theorem makesAddress_shape (inst : Inst) : inst.shape.makesAddress = inst.makesAddress := by
  cases inst <;> rfl

end Inst

namespace Function

variable {f f' f'' f₀ : Function} {start : Nat} {i j : InstId} {slot s : Nat} {v w : ValueId}
  {ctx : Context}

/-- Everything that an instruction names is there, and the addresses that are computed or allocated
have a value. -/
structure Complete (ctx : Context) (f : Function) : Prop where
  closed : f.graph.Closed
  phis : f.PhisPlaced
  based : ∀ i, ¬ f.InstIs i (·.lacksBase = true)
  defined : ∀ i ∈ f.insts, f.InstIs i (·.makesAddress = true) → ∃ v, f.graph.result? i = some v
  callees : ∀ i ∈ f.insts, ∀ callee, f.InstIs i (·.callee? = some callee) →
    ∃ sig, ctx.signature callee = .ok sig ∧ sig.WellAnnotated ctx

theorem Complete.base (hf : f.Complete ctx) {inst : Inst} (hinst : f.graph.inst i = .ok inst) :
    inst.lacksBase = false :=
  Bool.eq_false_iff.2 fun hbase => hf.based i ⟨inst, hinst, hbase⟩

/-- Whether nothing is missing from the function. -/
def checkComplete (ctx : Context) (f : Function) : Bool :=
  f.graph.checkClosed && f.checkPhis && f.graph.insts.toList.all (!·.lacksBase) &&
    f.insts.all fun i => succeeds (f.graph.inst i) fun inst =>
      (!inst.makesAddress || (f.graph.result? i).isSome) &&
        inst.callee?.all fun callee => succeeds (ctx.signature callee) (·.checkSamples ctx)

theorem complete_of_checkComplete (h : f.checkComplete ctx = true) : f.Complete ctx := by
  simp only [checkComplete, Bool.and_eq_true, List.all_eq_true] at h
  obtain ⟨⟨⟨hclosed, hphis⟩, hbased⟩, hinsts⟩ := h
  refine ⟨Graph.closed_of_checkClosed hclosed, phisPlaced_of_checkPhis hphis, fun i his => ?_,
    fun i hi his => ?_, fun i hi callee his => ?_⟩
  · obtain ⟨inst, hinst, hbase⟩ := his
    have hmem : inst ∈ f.graph.insts.toList := by
      rw [Array.mem_toList_iff]
      exact Array.mem_of_getElem? (Graph.inst_eq_ok.1 hinst)
    simpa [hbase] using hbased inst hmem
  · obtain ⟨inst, hinst, hcheck⟩ := exists_of_succeeds (hinsts i hi)
    rw [Bool.and_eq_true, his.of_inst hinst] at hcheck
    exact Option.isSome_iff_exists.1 hcheck.1
  · obtain ⟨inst, hinst, hcheck⟩ := exists_of_succeeds (hinsts i hi)
    rw [Bool.and_eq_true, his.of_inst hinst] at hcheck
    obtain ⟨sig, hsig, hwell⟩ := exists_of_succeeds hcheck.2
    exact ⟨sig, hsig, Signature.wellAnnotated_of_checkSamples hwell⟩

/-- What marking relies on: nothing is missing, and no operand is a constant expression. -/
structure Markable (ctx : Context) (f : Function) : Prop extends Complete ctx f where
  written : f.Written
  flat : ∀ i, f.Flat i

theorem Markable.sound (hf : f.Markable ctx) : f.Sound := hf.written.toSound

/-- Operand `slot` of `i` is the address of a global. -/
def GlobalAt (f : Function) (i : InstId) (slot : Nat) : Prop :=
  ∃ v g ty, f.graph.operand i slot = .ok v ∧ f.graph.value v = .ok (.global g ty)

/-- Operand `slot` of `i` is the value of an instruction made from `start` on. -/
def WrappedAt (f : Function) (start : Nat) (i : InstId) (slot : Nat) : Prop :=
  ∃ v m ty, f.graph.operand i slot = .ok v ∧ f.graph.value v = .ok (.inst m ty) ∧ start ≤ m.index

/-- What `i` defines is consumed once only, as the first operand of an instruction made from `start`
on. -/
def SoleAt (f : Function) (start : Nat) (i : InstId) : Prop :=
  ∃ v m, f.graph.result? i = some v ∧ start ≤ m.index ∧
    ∀ user slot, f.graph.operand user slot = .ok v ↔ user = m ∧ slot = 0

theorem WrappedAt.not_globalAt (h : f.WrappedAt start i slot) : ¬ f.GlobalAt i slot := by
  obtain ⟨v, m, ty, hv, hval, -⟩ := h
  rintro ⟨w, g, gty, hw, hglobal⟩
  cases hv.symm.trans hw
  cases hval.symm.trans hglobal

/-! ## What one edit does to operands -/

/-- An operand of an old instruction changes only if it is one of `i`, or the value that `i`
defines. The value of a marker takes its place. -/
theorem MarkStep.operand_old (h : f.MarkStep start i f') (hle : start ≤ f.graph.insts.size)
    (hj : j.index < f.graph.insts.size) (s : Nat) :
    f'.graph.operand j s = f.graph.operand j s ∨
      f'.WrappedAt start j s ∧
        (j = i ∨ ∃ v, f.graph.result? i = some v ∧ f.graph.operand j s = .ok v) := by
  have hne : j ≠ f.graph.nextInst := by
    rintro rfl
    exact absurd hj (Nat.lt_irrefl _)
  cases h with
  | @wrap slot v ty _ _ _ _ hinter =>
      have heq := hinter.operand_eq j s
      rw [if_neg hne] at heq
      split at heq
      · next hcut =>
          refine .inr ⟨⟨_, f.graph.nextInst, ty, heq, ?_, hle⟩, .inl hcut.1⟩
          rw [hinter.value_eq, if_pos rfl]
      · exact .inl heq
  | follow _ _ _ _ _ hins => exact .inl ((hins.operand_eq j s).trans (if_neg hne))
  | @redirect user m slot old new ty _ _ _ _ hresult hop _ hm _ _ hnew hr =>
      have heq := hr.graph.operand_eq j s
      split at heq
      · next hcut =>
          obtain ⟨rfl, rfl⟩ := hcut
          exact .inr ⟨⟨new, m, ty, heq, (hr.graph.value_eq new).trans hnew, hm⟩,
            .inr ⟨old, hresult, hop⟩⟩
      · exact .inl heq

/-- A new instruction has one operand, which was an operand of `i` or is the value that `i` defines.
-/
theorem MarkStep.operand_new (h : f.MarkStep start i f') (hj : f.graph.insts.size ≤ j.index)
    (hw : f'.graph.operand j s = .ok w) :
    s = 0 ∧ ((∃ slot, f.graph.operand i slot = .ok w) ∨ f.graph.result? i = some w) := by
  have hold : ∀ {s w}, f.graph.operand j s ≠ .ok w := by
    intro s w hop
    obtain ⟨inst, hinst, -⟩ := Graph.operand_eq_ok.1 hop
    exact absurd (Graph.inst_lt hinst) (Nat.not_lt.2 hj)
  -- The only operand of the marker of `v` is `v`.
  have hmarker : ∀ {v ty}, require (Inst.marker v ty).operands[s]? Fault.outOfBounds = .ok w →
      s = 0 ∧ v = w := by
    intro v ty hop
    obtain ⟨hlt, hget⟩ := List.getElem?_eq_some_iff.1 (require_eq_ok_iff.1 hop)
    simp only [Inst.marker, Inst.operands, List.length_singleton] at hlt
    obtain rfl : s = 0 := by omega
    exact ⟨rfl, hget⟩
  cases h with
  | @wrap slot v ty _ hi _ _ hinter =>
      rw [hinter.operand_eq] at hw
      split at hw
      · obtain ⟨rfl, rfl⟩ := hmarker hw
        exact ⟨rfl, .inl ⟨slot, hinter.operand⟩⟩
      · split at hw
        · next hcut => exact absurd (hcut.1 ▸ hinter.operand) hold
        · exact absurd hw hold
  | follow _ _ _ hresult _ hins =>
      rw [hins.operand_eq] at hw
      split at hw
      · obtain ⟨rfl, rfl⟩ := hmarker hw
        exact ⟨rfl, .inr hresult⟩
      · exact absurd hw hold
  | redirect _ hop _ _ _ _ _ hr =>
      rw [hr.graph.operand_eq] at hw
      split at hw
      · next hcut => exact absurd (hcut.1 ▸ hop) hold
      · exact absurd hw hold

theorem MarkStep.phisPlaced (h : f.MarkStep start i f') (hphis : f.PhisPlaced) : f'.PhisPlaced := by
  cases h with
  | wrap _ _ _ hinter => exact hinter.phisPlaced rfl hphis
  | follow _ _ _ _ _ hins => exact hins.phisPlaced rfl hphis
  | redirect _ _ _ _ _ _ _ hr => exact hr.phisPlaced hphis

/-- An operand after an edit is one that was there before, or the value of an instruction. -/
theorem MarkStep.operand_cases (h : f.MarkStep start i f') (hf : f.Sound)
    (hle : start ≤ f.graph.insts.size) (hw : f'.graph.operand j s = .ok w) :
    (∃ k slot, f.graph.operand k slot = .ok w) ∨ ∃ m ty, f'.graph.value w = .ok (.inst m ty) := by
  by_cases hlt : j.index < f.graph.insts.size
  · rcases h.operand_old hle hlt s with hsame | ⟨⟨v, m, ty, hv, hval, -⟩, -⟩
    · exact .inl ⟨j, s, hsame ▸ hw⟩
    · cases hw.symm.trans hv
      exact .inr ⟨m, ty, hval⟩
  · obtain ⟨-, ⟨slot, hop⟩ | hresult⟩ := h.operand_new (Nat.not_lt.1 hlt) hw
    · exact .inl ⟨i, slot, hop⟩
    · obtain ⟨ty, hval⟩ := (hf.graph.result_iff i w).1 hresult
      exact .inr ⟨i, ty, (h.keeps hf).1.keeps w _ hval⟩

theorem MarkStep.closed (h : f.MarkStep start i f') (hf : f.Sound)
    (hle : start ≤ f.graph.insts.size) (hclosed : f.graph.Closed) : f'.graph.Closed := by
  intro j s w hw
  rcases h.operand_cases hf hle hw with ⟨k, slot, hop⟩ | ⟨m, ty, hval⟩
  · exact (h.keeps hf).1.keeps.has (hclosed k slot w hop)
  · exact Graph.has_of_value hval

theorem MarkStep.written (h : f.MarkStep start i f') (hf : f.Written) : f'.Written := by
  cases h with
  | wrap _ _ _ hinter => exact hinter.written hf
  | follow _ _ _ _ _ hins => exact hins.written hf
  | redirect _ _ _ _ _ _ _ hr => exact hr.written hf

theorem MarkStep.markable (h : f.MarkStep start i f') (hf : f.Markable ctx)
    (hle : start ≤ f.graph.insts.size) : f'.Markable ctx := by
  obtain ⟨hext, hf'⟩ := h.keeps hf.sound
  -- Kinds of instructions that markers are not of are those of old instructions.
  have hold : ∀ {P : Inst → Prop}, Inst.OfShape P → (∀ v ty, ¬ P (.marker v ty)) → ∀ {j},
      j ∈ f'.insts → f'.InstIs j P → j ∈ f.insts ∧ f.InstIs j P ∧ j.index < f.graph.insts.size := by
    intro P hP hnew j hj his
    obtain ⟨inst, hinst, hPinst⟩ := (h.instIs_iff hP hnew j).1 his
    have hlt := Graph.inst_lt hinst
    exact ⟨(hext.mem_insts_iff hf.sound hf' hlt).1 hj, ⟨inst, hinst, hPinst⟩, hlt⟩
  refine ⟨⟨h.closed hf.sound hle hf.closed, h.phisPlaced hf.phis, fun j his => ?_,
    fun j hj his => ?_, fun j hj callee his => ?_⟩, h.written hf.written,
    fun j s w e ty hw hval => ?_⟩
  · refine hf.based j ((h.instIs_iff (Inst.ofShape_eq Inst.lacksBase_shape true) ?_ j).1 his)
    simp [Inst.marker, Inst.lacksBase]
  · obtain ⟨hj, his, hlt⟩ := hold (Inst.ofShape_eq Inst.makesAddress_shape true)
      (by simp [Inst.marker, Inst.makesAddress]) hj his
    rw [hext.result? j hlt]
    exact hf.defined j hj his
  · obtain ⟨hj, his, -⟩ := hold (Inst.ofShape_eq Inst.callee?_shape (some callee))
      (by simp [Inst.marker, Inst.callee?]) hj his
    exact hf.callees j hj callee his
  · rcases h.operand_cases hf.sound hle hw with ⟨k, slot, hop⟩ | ⟨m, mty, hinst⟩
    · rw [hext.keeps.value_eq (hf.closed k slot w hop)] at hval
      exact hf.flat k slot w e ty hop hval
    · cases hval.symm.trans hinst

/-! ## What edits for one instruction leave alone -/

/-- What edits made for `i` leave alone. -/
structure Frame (ctx : Context) (start : Nat) (i : InstId) (f f' : Function) : Prop where
  markable : f'.Markable ctx
  extension : f.Extends f'
  wrappedAt : ∀ j s, j.index < f.graph.insts.size → f.WrappedAt start j s → f'.WrappedAt start j s
  globalAt_of : ∀ j s, j.index < f.graph.insts.size → f'.GlobalAt j s → f.GlobalAt j s
  globalAt : ∀ j s, j ≠ i → f.GlobalAt j s → f'.GlobalAt j s
  soleAt : ∀ j, j ≠ i → j.index < start → f.SoleAt start j → f'.SoleAt start j

theorem MarkStep.wrappedAt (h : f.MarkStep start i f') (hf : f.Sound)
    (hle : start ≤ f.graph.insts.size) (hj : j.index < f.graph.insts.size)
    (hwrapped : f.WrappedAt start j s) : f'.WrappedAt start j s := by
  rcases h.operand_old hle hj s with hsame | ⟨hwrapped', -⟩
  · obtain ⟨v, m, ty, hv, hval, hm⟩ := hwrapped
    exact ⟨v, m, ty, hsame.trans hv, (h.keeps hf).1.keeps v _ hval, hm⟩
  · exact hwrapped'

theorem MarkStep.globalAt_of (h : f.MarkStep start i f') (hf : f.Markable ctx)
    (hle : start ≤ f.graph.insts.size) (hj : j.index < f.graph.insts.size)
    (hglobal : f'.GlobalAt j s) : f.GlobalAt j s := by
  rcases h.operand_old hle hj s with hsame | ⟨hwrapped, -⟩
  · obtain ⟨v, g, ty, hv, hval⟩ := hglobal
    rw [hsame] at hv
    rw [(h.keeps hf.sound).1.keeps.value_eq (hf.closed j s v hv)] at hval
    exact ⟨v, g, ty, hv, hval⟩
  · exact absurd hglobal hwrapped.not_globalAt

theorem MarkStep.globalAt (h : f.MarkStep start i f') (hf : f.Sound)
    (hle : start ≤ f.graph.insts.size) (hne : j ≠ i) (hglobal : f.GlobalAt j s) :
    f'.GlobalAt j s := by
  obtain ⟨v, g, ty, hv, hval⟩ := hglobal
  obtain ⟨inst, hinst, -⟩ := Graph.operand_eq_ok.1 hv
  rcases h.operand_old hle (Graph.inst_lt hinst) s with hsame | ⟨-, heq | ⟨w, hw, hop⟩⟩
  · exact ⟨v, g, ty, hsame.trans hv, (h.keeps hf).1.keeps v _ hval⟩
  · exact absurd heq hne
  · cases hv.symm.trans hop
    obtain ⟨wty, hinst⟩ := (hf.graph.result_iff i v).1 hw
    cases hval.symm.trans hinst

/-- Edits made for `i` leave the consumers of what `j` defines alone. -/
theorem MarkStep.soleAt (h : f.MarkStep start i f') (hf : f.Sound) (hi : i.index < start)
    (hle : start ≤ f.graph.insts.size) (hne : j ≠ i) (hj : j.index < start)
    (hsole : f.SoleAt start j) : f'.SoleAt start j := by
  obtain ⟨v, m, hv, hm, hused⟩ := hsole
  obtain ⟨hext, hf'⟩ := h.keeps hf
  obtain ⟨ty, hval⟩ := (hf.graph.result_iff j v).1 hv
  -- The value is not the one that `i` defines, and not that of a marker.
  have hother : f.graph.result? i ≠ some v := by
    intro heq
    obtain ⟨ty', hval'⟩ := (hf.graph.result_iff i v).1 heq
    cases hval.symm.trans hval'
    exact hne rfl
  have hnew : ∀ {x s}, f'.WrappedAt start x s → f'.graph.operand x s ≠ .ok v := by
    rintro x s ⟨w, k, kty, hw, hk, hle⟩ hop
    cases hop.symm.trans hw
    cases hk.symm.trans (hext.keeps v _ hval)
    omega
  have hmi : m ≠ i := by
    rintro rfl
    omega
  refine ⟨v, m, (hext.result? j (Nat.lt_of_lt_of_le hj hle)).trans hv, hm,
    fun x s => ⟨fun hop => ?_, ?_⟩⟩
  · by_cases hx : x.index < f.graph.insts.size
    · rcases h.operand_old hle hx s with hsame | ⟨hwrapped, -⟩
      · exact (hused x s).1 (hsame ▸ hop)
      · exact absurd hop (hnew hwrapped)
    · obtain ⟨-, ⟨slot, hop⟩ | hresult⟩ := h.operand_new (Nat.not_lt.1 hx) hop
      · exact absurd ((hused i slot).1 hop).1.symm hmi
      · exact absurd hresult hother
  · rintro ⟨rfl, rfl⟩
    have hop : f.graph.operand x 0 = .ok v := (hused x 0).2 ⟨rfl, rfl⟩
    obtain ⟨inst, hinst, -⟩ := Graph.operand_eq_ok.1 hop
    rcases h.operand_old hle (Graph.inst_lt hinst) 0 with hsame | ⟨-, heq | ⟨w, hw, hop'⟩⟩
    · exact hsame.trans hop
    · exact absurd heq hmi
    · cases hop.symm.trans hop'
      exact absurd hw hother

/-- Edits made for one instruction leave everything alone that the frame names. -/
theorem MarkedFor.frame (h : f₀.MarkedFor start i f) (hf₀ : f₀.Markable ctx)
    (hstart : i.index < start) (hle : start ≤ f₀.graph.insts.size) : f₀.Frame ctx start i f := by
  obtain ⟨-, -, hframe⟩ := h.invariant (P := f₀.Frame ctx start i) hf₀.sound
    ⟨hf₀, .refl hf₀.sound, fun _ _ _ h => h, fun _ _ _ h => h, fun _ _ _ h => h,
      fun _ _ _ h => h⟩ fun f f' hext hf hframe hstep => by
    have hsize := hext.size_le
    have hlt : ∀ {j : InstId}, j.index < f₀.graph.insts.size → j.index < f.graph.insts.size :=
      fun hj => Nat.lt_of_lt_of_le hj hsize
    have hle' := Nat.le_trans hle hsize
    exact ⟨hstep.markable hframe.markable hle', hext.trans (hstep.keeps hf).1,
      fun j s hj h => hstep.wrappedAt hf hle' (hlt hj) (hframe.wrappedAt j s hj h),
      fun j s hj h => hframe.globalAt_of j s hj (hstep.globalAt_of hframe.markable hle' (hlt hj) h),
      fun j s hne h => hstep.globalAt hf hle' hne (hframe.globalAt j s hne h),
      fun j hne hj h => hstep.soleAt hf hstart hle' hne hj (hframe.soleAt j hne hj h)⟩
  exact hframe

end Function

end Pointee
