import Pointee.Proofs.MarkingSteps

/-!
# Markers can be erased

Marking a module changes nothing but what markers stand between. `Module.mark_erasable` says so for
every outcome of a run: deleting the markers of the run gives the old rows back, and following them
from an operand ends in the operand that stood there. The two edits behind all steps of marking are
an insertion (`Erasable.inserts`) and a detour through a marker (`Erasable.reroutes`); a detour may
run through the operand of another marker, so what is kept is a statement about whole chains.
-/

namespace Pointee

namespace Graph

variable {g g' : Graph} {start : Nat} {v w : ValueId}

/-- `v` is defined by an instruction made from `start` on, and `w` is its first operand. -/
def Wraps (g : Graph) (start : Nat) (v w : ValueId) : Prop :=
  ∃ m ty, g.value v = .ok (.inst m ty) ∧ start ≤ m.index ∧ g.operand m 0 = .ok w

/-- Following the instructions made from `start` on to their first operands leads from `v` to `w`.
-/
def Unwraps (g : Graph) (start : Nat) : ValueId → ValueId → Prop :=
  Relation.ReflTransGen (g.Wraps start)

/-- Following the instructions made from `start` on to their first operands, from `v`, ends in `w`.
-/
def UnwrapsTo (g : Graph) (start : Nat) (v w : ValueId) : Prop :=
  g.Unwraps start v w ∧ ∀ u, ¬ g.Wraps start w u

end Graph

namespace Function

variable {f f' f₀ : Function} {b : BlockId} {front back : List InstId} {ty : Ty} {v : ValueId}
  {start : Nat}

/-! ## Chains after an insertion -/

theorem Inserts.wraps {inst : Inst} (h : f.Inserts b front inst ty back f') {v w : ValueId}
    (hw : f.graph.Wraps start v w) : f'.graph.Wraps start v w := by
  obtain ⟨m, mty, hm, hle, hop⟩ := hw
  exact ⟨m, mty, h.keeps v _ hm, hle, h.operand_old hop⟩

/-- A value that exists is wrapped by what wrapped it before. -/
theorem Inserts.wraps_of_has {inst : Inst} (h : f.Inserts b front inst ty back f') (hf : f.Sound)
    {v w : ValueId} (hv : f.graph.Has v) (hw : f'.graph.Wraps start v w) :
    f.graph.Wraps start v w := by
  obtain ⟨m, mty, hm, hle, hop⟩ := hw
  obtain ⟨val, hval⟩ := hv.exists_value
  cases hm.symm.trans (h.keeps v val hval)
  refine ⟨m, mty, hval, hle, ?_⟩
  rw [h.operand_eq, if_neg] at hop
  · exact hop
  · rintro rfl
    exact absurd (hf.graph.defined_lt v _ mty hval) (Nat.lt_irrefl _)

/-! ## Chains after a detour -/

/-- Operand `slot` of `user` is `old`, and `new` is the value of the marker `m`, which wraps `old`.
-/
structure Detours (f : Function) (start : Nat) (user : InstId) (slot : Nat) (m : InstId)
    (old new : ValueId) : Prop where
  operand : f.graph.operand user slot = .ok old
  marker : f.graph.operand m 0 = .ok old
  value : ∃ ty, f.graph.value new = .ok (.inst m ty)
  made : start ≤ m.index
  ne : user ≠ m

variable {user m : InstId} {slot : Nat} {old new : ValueId}

namespace Detours

theorem wraps_new (h : f.Detours start user slot m old new) (hr : f.Rewires user slot new f') :
    f'.graph.Wraps start new old := by
  obtain ⟨ty, hnew⟩ := h.value
  refine ⟨m, ty, (hr.graph.value_eq new).trans hnew, h.made, ?_⟩
  rw [hr.graph.operand_eq, if_neg (fun hand => h.ne hand.1.symm)]
  exact h.marker

/-- A link of a chain that is cut by the detour is replaced by two. -/
theorem unwraps (h : f.Detours start user slot m old new) (hr : f.Rewires user slot new f')
    {v w : ValueId} (hw : f.graph.Unwraps start v w) : f'.graph.Unwraps start v w := by
  refine Relation.reflTransGen_closed ?_ v w hw
  rintro v w ⟨k, ty, hk, hle, hop⟩
  have hvalue : f'.graph.value v = .ok (.inst k ty) := (hr.graph.value_eq v).trans hk
  by_cases hcut : k = user ∧ 0 = slot
  · obtain ⟨rfl, rfl⟩ := hcut
    cases hop.symm.trans h.operand
    have hfirst : f'.graph.Wraps start v new :=
      ⟨k, ty, hvalue, hle, by rw [hr.graph.operand_eq, if_pos ⟨rfl, rfl⟩]⟩
    exact .tail (.single hfirst) (h.wraps_new hr)
  · exact .single ⟨k, ty, hvalue, hle, by rw [hr.graph.operand_eq, if_neg hcut]; exact hop⟩

end Detours

/-- Rewiring makes no new ends and no new links out of them. -/
theorem Rewires.not_wraps (hr : f.Rewires user slot new f')
    (hop : f.graph.operand user slot = .ok old) {v : ValueId} (hv : ∀ w, ¬ f.graph.Wraps start v w)
    (w : ValueId) : ¬ f'.graph.Wraps start v w := by
  rintro ⟨k, ty, hk, hle, hw⟩
  have hvalue : f.graph.value v = .ok (.inst k ty) := (hr.graph.value_eq v).symm.trans hk
  by_cases hcut : k = user ∧ 0 = slot
  · obtain ⟨rfl, rfl⟩ := hcut
    exact hv old ⟨k, ty, hvalue, hle, hop⟩
  · rw [hr.graph.operand_eq, if_neg hcut] at hw
    exact hv w ⟨k, ty, hvalue, hle, hw⟩

/-! ## What marking keeps -/

/-- The instructions that `f` has beyond those of `f₀` are markers that can be erased: following
them ends, and leads from every operand to the one that `f₀` has in its place. -/
structure Erasable (f₀ f : Function) : Prop where
  operand : ∀ i slot v, f₀.graph.operand i slot = .ok v →
    ∃ w, f.graph.operand i slot = .ok w ∧ f.graph.Unwraps f₀.graph.insts.size w v
  ends : ∀ v, f.graph.Has v →
    ∃ w, f.graph.Has w ∧ f.graph.UnwrapsTo f₀.graph.insts.size v w
  marker : ∀ m, f₀.graph.insts.size ≤ m.index → m.index < f.graph.insts.size →
    ∃ arg ty v, f.graph.inst m = .ok (.marker arg ty) ∧ f.graph.typeOf arg = .ok ty ∧
      f.graph.result? m = some v ∧ f.graph.typeOf v = .ok ty

theorem Erasable.refl (hf : f.Sound) : f.Erasable f where
  operand i slot v hv := ⟨v, hv, .refl⟩
  ends v hv := by
    refine ⟨v, hv, .refl, ?_⟩
    rintro w ⟨m, ty, hm, hle, -⟩
    exact absurd (hf.graph.defined_lt v m ty hm) (Nat.not_lt.2 hle)
  marker m hle hlt := absurd hlt (Nat.not_lt.2 hle)

theorem Erasable.inserts (h : f₀.Erasable f) (hf : f.Sound)
    (hle : f₀.graph.insts.size ≤ f.graph.insts.size) (hty : f.graph.typeOf v = .ok ty)
    (hins : f.Inserts b front (.marker v ty) ty back f') : f₀.Erasable f' := by
  have hmono : ∀ {v w}, f.graph.Unwraps f₀.graph.insts.size v w →
      f'.graph.Unwraps f₀.graph.insts.size v w :=
    fun hw => Relation.ReflTransGen.mono (fun _ _ => hins.wraps) _ _ hw
  -- A chain from a value that exists ends in one that exists, so the insertion does not prolong it.
  have hends : ∀ {v}, f.graph.Has v →
      ∃ w, f'.graph.Has w ∧ f'.graph.UnwrapsTo f₀.graph.insts.size v w := by
    intro v hv
    obtain ⟨w, hw, hunwraps, hend⟩ := h.ends v hv
    exact ⟨w, hins.keeps.has hw, hmono hunwraps, fun u hu => hend u (hins.wraps_of_has hf hw hu)⟩
  have hvalue : f'.graph.typeOf f.graph.nextValue = .ok ty :=
    Graph.typeOf_eq_ok.2 ⟨_, hins.value_new, rfl⟩
  have hv : f.graph.Has v := by
    obtain ⟨val, hval, -⟩ := Graph.typeOf_eq_ok.1 hty
    exact Graph.has_of_value hval
  refine ⟨?_, ?_, ?_⟩
  · intro i slot u hu
    obtain ⟨w, hw, hunwraps⟩ := h.operand i slot u hu
    exact ⟨w, hins.operand_old hw, hmono hunwraps⟩
  · intro u hu
    by_cases hnew : u = f.graph.nextValue
    · subst hnew
      obtain ⟨w, hw, hunwraps, hend⟩ := hends hv
      have hfirst : f'.graph.Wraps f₀.graph.insts.size f.graph.nextValue v :=
        ⟨_, _, hins.value_new, hle, Graph.operand_eq_ok.2 ⟨_, hins.inst_new, rfl⟩⟩
      exact ⟨w, hw, .head hfirst hunwraps, hend⟩
    · obtain ⟨val, hval⟩ := hu.exists_value
      rw [hins.value_eq, if_neg hnew] at hval
      exact hends (Graph.has_of_value hval)
  · intro m hm hlt
    by_cases hnew : m = f.graph.nextInst
    · subst hnew
      exact ⟨v, ty, f.graph.nextValue, hins.inst_new, hins.keeps.typeOf hty,
        by rw [hins.result?, if_pos rfl], hvalue⟩
    · have hlt' : m.index < f.graph.insts.size := by
        have hne : m.index ≠ f.graph.insts.size := fun heq => hnew (InstId.ext heq)
        rw [hins.insts, Array.size_push] at hlt
        omega
      obtain ⟨arg, mty, u, hinst, harg, hres, hu⟩ := h.marker m hm hlt'
      exact ⟨arg, mty, u, hins.inst_old hinst, hins.keeps.typeOf harg,
        by rw [hins.result?, if_neg hnew, hres], hins.keeps.typeOf hu⟩

theorem Erasable.reroutes (h : f₀.Erasable f) (hf : f.Sound)
    (hdetour : f.Detours f₀.graph.insts.size user slot m old new)
    (hr : f.Rewires user slot new f') : f₀.Erasable f' := by
  have hkeeps : f.graph.Keeps f'.graph := (hr.extends hf).keeps
  refine ⟨?_, ?_, ?_⟩
  · intro i s v hv
    obtain ⟨w, hw, hunwraps⟩ := h.operand i s v hv
    by_cases hcut : i = user ∧ s = slot
    · obtain ⟨rfl, rfl⟩ := hcut
      cases hw.symm.trans hdetour.operand
      refine ⟨new, by rw [hr.graph.operand_eq, if_pos ⟨rfl, rfl⟩], ?_⟩
      exact .head (hdetour.wraps_new hr) (hdetour.unwraps hr hunwraps)
    · exact ⟨w, by rw [hr.graph.operand_eq, if_neg hcut]; exact hw, hdetour.unwraps hr hunwraps⟩
  · intro v hv
    have hv' : f.graph.Has v := by
      obtain ⟨val, hval⟩ := hv.exists_value
      exact Graph.has_of_value ((hr.graph.value_eq v).symm.trans hval)
    obtain ⟨w, hw, hunwraps, hend⟩ := h.ends v hv'
    exact ⟨w, hkeeps.has hw, hdetour.unwraps hr hunwraps, hr.not_wraps hdetour.operand hend⟩
  · intro k hk hlt
    rw [hr.graph.size_insts] at hlt
    obtain ⟨arg, ty, v, hinst, harg, hres, hv⟩ := h.marker k hk hlt
    have hres' : f'.graph.result? k = some v := (hr.graph.result?_eq k).trans hres
    by_cases hkuser : k = user
    · -- The detour runs through the only operand of another marker, and keeps its type.
      subst hkuser
      obtain ⟨hslot, hnewInst⟩ := hr.graph.inst_self hinst
      obtain rfl : slot = 0 := by simpa [Inst.marker, Inst.operands] using hslot
      obtain ⟨_, hinst', hop⟩ := Graph.operand_eq_ok.1 hdetour.operand
      cases hinst.symm.trans hinst'
      cases hop
      have hnew : f.graph.typeOf new = .ok ty := by
        obtain ⟨mty, hvalue⟩ := hdetour.value
        obtain ⟨marg, ty', u, hmarker, hmarg, hmres, hu⟩ :=
          h.marker m hdetour.made (hf.graph.defined_lt new m mty hvalue)
        obtain ⟨_, hmarker', hop⟩ := Graph.operand_eq_ok.1 hdetour.marker
        cases hmarker.symm.trans hmarker'
        cases hop
        cases hmres.symm.trans ((hf.graph.result_iff m new).2 ⟨mty, hvalue⟩)
        cases hmarg.symm.trans harg
        exact hu
      exact ⟨new, ty, v, hnewInst, hkeeps.typeOf hnew, hres', hkeeps.typeOf hv⟩
    · exact ⟨arg, ty, v, (hr.graph.inst_of_ne hkuser).trans hinst, hkeeps.typeOf harg, hres',
        hkeeps.typeOf hv⟩

/-- The operand that an interposed marker takes the place of is what the marker wraps. -/
theorem Erasable.interposes (h : f₀.Erasable f) (hf : f.Sound)
    (hle : f₀.graph.insts.size ≤ f.graph.insts.size) (hty : f.graph.typeOf v = .ok ty)
    (hinter : f.Interposes user slot v (.marker v ty) ty f') : f₀.Erasable f' := by
  obtain ⟨b, front, back, mid, -, hins, hr⟩ := hinter.edits
  have hdetour : mid.Detours f₀.graph.insts.size user slot f.graph.nextInst v f.graph.nextValue :=
    ⟨hins.operand_old hinter.operand, Graph.operand_eq_ok.2 ⟨_, hins.inst_new, rfl⟩,
      ⟨ty, hins.value_new⟩, hle, hinter.user_ne⟩
  exact (h.inserts hf hle hty hins).reroutes hins.sound hdetour hr

theorem Erasable.markStep (h : f₀.Erasable f) (hextends : f₀.Extends f) (hf : f.Sound) {i : InstId}
    (hstep : f.MarkStep f₀.graph.insts.size i f') : f₀.Erasable f' := by
  cases hstep with
  | wrap _ hty _ hinter => exact h.interposes hf hextends.size_le hty hinter
  | follow _ _ _ _ hty hins => exact h.inserts hf hextends.size_le hty hins
  | redirect _ hop _ hle hne hmarker hnew hr =>
      refine h.reroutes hf ⟨hop, ?_, ⟨_, hnew⟩, hle, hne⟩ hr
      exact Graph.operand_eq_ok.2 ⟨_, hmarker, rfl⟩

theorem Marked.erasable (hf₀ : f₀.Sound) (h : f₀.Marked f₀.graph.insts.size f) : f₀.Erasable f := by
  refine (h.invariant (P := f₀.Erasable) hf₀ (.refl hf₀) ?_).2.2
  exact fun f f' i hextends hf hP hstep => hP.markStep hextends hf hstep

end Function

/-! ## Marking a module -/

namespace Module

/-- Markers can be erased, whether marking succeeds or is refused half-way. In every function the
blocks, and the kinds, the fields and the results of the instructions, stay; without the markers of
the run the rows are what they were. From every operand, following those markers passes through the
operand that stood there and ends. It ends there if that value existed when the run started. Every
instruction that the run made casts a value to the type it has. -/
theorem mark_erasable {m m' : Module} {outcome : Except Refusal Bool} (hm : m.Built)
    (h : mark.exec m = .ok (outcome, m')) :
    m'.funcs.size = m.funcs.size ∧ ∀ id f, m.func id = .ok f → ∃ f', m'.func id = .ok f' ∧
      f.Extends f' ∧
      (∀ i slot v, f.graph.operand i slot = .ok v → ∃ w, f'.graph.operand i slot = .ok w ∧
        f'.graph.Unwraps f.graph.insts.size w v ∧
        (∃ u, f'.graph.UnwrapsTo f.graph.insts.size w u) ∧
        (f.graph.Has v → f'.graph.UnwrapsTo f.graph.insts.size w v)) ∧
      ∀ i, f.graph.insts.size ≤ i.index → i.index < f'.graph.insts.size → ∃ arg ty v,
        f'.graph.inst i = .ok (.cast .bitcast arg ty) ∧ f'.graph.typeOf arg = .ok ty ∧
        f'.graph.result? i = some v ∧ f'.graph.typeOf v = .ok ty := by
  obtain ⟨hsize, hfuncs⟩ := mark_eq_ok h
  refine ⟨hsize, fun id f hf => ?_⟩
  obtain ⟨f', hf', hout⟩ := hfuncs id f hf
  have hsound : f.Sound := hm.sound hf
  have hmarked := hout.marked hsound
  have hextends := (hmarked.keeps hsound).1
  have herasable := hmarked.erasable hsound
  refine ⟨f', hf', hextends, fun i slot v hv => ?_, herasable.marker⟩
  obtain ⟨w, hw, hunwraps⟩ := herasable.operand i slot v hv
  refine ⟨w, hw, hunwraps, ?_, fun hhas => ⟨hunwraps, ?_⟩⟩
  · by_cases hw' : f'.graph.Has w
    · obtain ⟨u, -, hu⟩ := herasable.ends w hw'
      exact ⟨u, hu⟩
    · refine ⟨w, .refl, ?_⟩
      rintro u ⟨m, ty, hm, -⟩
      exact hw' (Graph.has_of_value hm)
  · -- The value is defined by no instruction of the run.
    rintro u ⟨k, ty, hk, hle, -⟩
    obtain ⟨val, hval⟩ := hhas.exists_value
    cases hk.symm.trans (hextends.keeps v val hval)
    exact absurd (hsound.graph.defined_lt v k ty hval) (Nat.not_lt.2 hle)

/-- A function that takes a pointer. -/
def takesPointer : Signature := ⟨"f", .exported, [.genericPtr], .unit, none⟩

/-- A read through an address that is computed behind it, so that the marker of the address stands
between the address and the marker of the read. -/
def readBeforeAddress : Except Fault Module :=
  ofInsts ⟨.air64, .bitcode, .v7⟩ takesPointer
    [.load ⟨2⟩ .i32, .gep .i32 .i32 [⟨0⟩], .ret none]

theorem mark_erasable_readBeforeAddress : ∃ m m' outcome f f', m.Built ∧
    mark.exec m = .ok (outcome, m') ∧ m.func ⟨0⟩ = .ok f ∧ m'.func ⟨0⟩ = .ok f' ∧
    f.graph.operand ⟨0⟩ 0 = .ok ⟨2⟩ ∧ f'.graph.operand ⟨0⟩ 0 = .ok ⟨3⟩ ∧
    f'.graph.UnwrapsTo f.graph.insts.size ⟨3⟩ ⟨2⟩ := by
  have hrun : succeeds readBeforeAddress (fun m => succeeds (mark.exec m) fun (_, m') =>
      succeeds (m.func ⟨0⟩) fun f => succeeds (m'.func ⟨0⟩) fun f' =>
        f.graph.operand ⟨0⟩ 0 = .ok ⟨2⟩ && f'.graph.operand ⟨0⟩ 0 = .ok ⟨3⟩ &&
        f.graph.values.size = 3) = true := by
    decide +kernel
  obtain ⟨m, hm, hrun⟩ := exists_of_succeeds hrun
  obtain ⟨⟨outcome, m'⟩, hmark, hrun⟩ := exists_of_succeeds hrun
  obtain ⟨f, hf, hrun⟩ := exists_of_succeeds hrun
  obtain ⟨f', hf', hrun⟩ := exists_of_succeeds hrun
  simp only [Bool.and_eq_true, decide_eq_true_eq] at hrun
  obtain ⟨⟨hv, hw⟩, hsize⟩ := hrun
  have hbuilt := built_of_ofItems hm
  obtain ⟨f'', hf'', -, hoperand, -⟩ := (mark_erasable hbuilt hmark).2 ⟨0⟩ f hf
  cases hf'.symm.trans hf''
  obtain ⟨w', hw', -, -, hends⟩ := hoperand ⟨0⟩ 0 ⟨2⟩ hv
  cases hw.symm.trans hw'
  refine ⟨m, m', outcome, f, f', hbuilt, hmark, hf, hf', hv, hw, hends ?_⟩
  show 2 < f.graph.values.size
  omega

/-- A return of a value that does not exist. The marker of the read defines a value, and that is the
one. -/
def returnsMarker : Except Fault Module :=
  ofInsts ⟨.air64, .bitcode, .v7⟩ takesPointer [.load ⟨0⟩ .i32, .ret (some ⟨2⟩)]

/-- Following markers need not end in the old operand if no value stood behind it. -/
theorem not_forall_unwrapsTo : ¬ ∀ (m m' : Module) (outcome : Except Refusal Bool), m.Built →
    mark.exec m = .ok (outcome, m') → ∀ id f f', m.func id = .ok f → m'.func id = .ok f' →
    ∀ i slot v w, f.graph.operand i slot = .ok v → f'.graph.operand i slot = .ok w →
      f'.graph.UnwrapsTo f.graph.insts.size w v := by
  intro hall
  have hrun : succeeds returnsMarker (fun m => succeeds (mark.exec m) fun (_, m') =>
      succeeds (m.func ⟨0⟩) fun f => succeeds (m'.func ⟨0⟩) fun f' =>
        f.graph.operand ⟨1⟩ 0 = .ok ⟨2⟩ && f'.graph.operand ⟨1⟩ 0 = .ok ⟨2⟩ &&
        f'.graph.value ⟨2⟩ = .ok (.inst ⟨2⟩ .genericPtr) && f'.graph.operand ⟨2⟩ 0 = .ok ⟨0⟩ &&
        f.graph.insts.size = 2) = true := by
    decide +kernel
  obtain ⟨m, hm, hrun⟩ := exists_of_succeeds hrun
  obtain ⟨⟨outcome, m'⟩, hmark, hrun⟩ := exists_of_succeeds hrun
  obtain ⟨f, hf, hrun⟩ := exists_of_succeeds hrun
  obtain ⟨f', hf', hrun⟩ := exists_of_succeeds hrun
  simp only [Bool.and_eq_true, decide_eq_true_eq] at hrun
  obtain ⟨⟨⟨⟨hold, hnew⟩, hvalue⟩, hwrapped⟩, hsize⟩ := hrun
  have hends :=
    hall m m' outcome (built_of_ofItems hm) hmark ⟨0⟩ f f' hf hf' ⟨1⟩ 0 ⟨2⟩ ⟨2⟩ hold hnew
  exact hends.2 ⟨0⟩ ⟨⟨2⟩, .genericPtr, hvalue, Nat.le_of_eq hsize, hwrapped⟩

end Module

end Pointee
