import Pointee.Proofs.MarkingFrame

/-!
# Marking ends well

The loops that marking consists of end well in a function where everything is there that they look
for. Two relations say what a loop has done so far: `SlotsWrapped` for the operands of an
instruction that are wrapped one after another, and `Redirects` for the consumers of a result that
are redirected to its marker.
-/

namespace Pointee

namespace Inst

/-- Whether the instruction is a call of a function that has a sample for argument `slot`. -/
def annotates (ctx : Context) (slot : Nat) : Inst → Bool
  | call callee _ _ => succeeds (ctx.signature callee) fun sig => (sig.sample? slot).isSome
  | _ => false

variable {inst : Inst}

theorem pointerSlot?_shape (inst : Inst) : inst.shape.pointerSlot? = inst.pointerSlot? := by
  cases inst <;> rfl

theorem annotates_shape (ctx : Context) (slot : Nat) (inst : Inst) :
    inst.shape.annotates ctx slot = inst.annotates ctx slot := by
  cases inst <;> rfl

theorem pointerSlot_lt {slot : Nat} (h : inst.pointerSlot? = some slot)
    (hbase : inst.lacksBase = false) : slot < inst.operands.length := by
  cases inst with
  | gep source result args =>
      cases h
      cases args with
      | nil => cases hbase
      | cons => simp [operands]
  | load | store | rmw | cmpxchg =>
      cases h
      simp [operands]
  | _ => cases h

theorem isPhi_of_pointerSlot {slot : Nat} (h : inst.pointerSlot? = some slot) :
    inst.isPhi = false := by
  cases inst with
  | phi => cases h
  | _ => rfl

end Inst

namespace Function

variable {f g : Function} {ctx : Context} {start slot : Nat} {i : InstId} {inst : Inst}
  {slots : List Nat} {v : ValueId}

/-! ## Wrapping operands -/

/-- The function `g` is `f` with markers around the given operands of `i`. -/
structure SlotsWrapped (f : Function) (start : Nat) (i : InstId) (slots : List Nat) (g : Function) :
    Prop where
  edits : f.MarkedFor start i g
  wrapped : ∀ s ∈ slots, g.WrappedAt start i s
  others : ∀ s, s ∉ slots → g.graph.operand i s = f.graph.operand i s
  length : g.insts.length = f.insts.length + slots.length

/-- Whether operand `slot` of `i` is the address of a global. -/
def isGlobalAt (f : Function) (i : InstId) (slot : Nat) : Bool :=
  succeeds (f.graph.operand i slot) fun v => succeeds (f.graph.value v) (·.global?.isSome)

theorem isGlobalAt_eq {val : Value} (hv : f.graph.operand i slot = .ok v)
    (hval : f.graph.value v = .ok val) : f.isGlobalAt i slot = val.global?.isSome := by
  simp [isGlobalAt, succeeds, hv, hval]

theorem isGlobalAt_iff : f.isGlobalAt i slot = true ↔ f.GlobalAt i slot := by
  constructor
  · intro h
    obtain ⟨v, hv, h⟩ := exists_of_succeeds h
    obtain ⟨val, hval, h⟩ := exists_of_succeeds h
    cases val with
    | global id ty => exact ⟨v, id, ty, hv, hval⟩
    | _ => cases h
  · rintro ⟨v, id, ty, hv, hval⟩
    rw [isGlobalAt_eq hv hval]
    rfl

section Wrap

variable (hf : f.Markable ctx) (hi : i ∈ f.insts) (hstart : i.index < start)
  (hle : start ≤ f.graph.insts.size)
include hf hi hstart hle

/-- One more operand can be wrapped. Of a phi, these are the addresses of globals. -/
theorem SlotsWrapped.wrap (h : f.SlotsWrapped start i slots g) (hnew : slot ∉ slots)
    (hv : f.graph.operand i slot = .ok v)
    (hphi : f.InstIs i (·.isPhi = true) → f.GlobalAt i slot) :
    ∃ g', g.wrapOperand i slot = .ok g' ∧ f.SlotsWrapped start i (slots ++ [slot]) g' := by
  have hframe := h.edits.frame hf hstart hle
  have hg := hframe.markable
  have hlt : i.index < f.graph.insts.size := Nat.lt_of_lt_of_le hstart hle
  have hlt' : i.index < g.graph.insts.size := Nat.lt_of_lt_of_le hlt hframe.extension.size_le
  have hle' : start ≤ g.graph.insts.size := Nat.le_trans hle hframe.extension.size_le
  have hv' : g.graph.operand i slot = .ok v := (h.others slot hnew).trans hv
  obtain ⟨val, hval⟩ := (hg.closed i slot v hv').exists_value
  have hty : g.graph.typeOf v = .ok val.ty := Graph.typeOf_eq_ok.2 ⟨val, hval, rfl⟩
  have hi' : i ∈ g.insts := (hframe.extension.mem_insts_iff hf.sound hg.sound hlt).2 hi
  obtain ⟨b, hb⟩ := hg.sound.mem_insts.1 hi'
  obtain ⟨loc, hloc⟩ := hg.sound.exists_operandLocation hg.phis hb hv'
  obtain ⟨g', hok, hinter⟩ := hg.sound.wrapOperand_of hv' hty hloc
  have hstep : g.MarkStep start i g' := by
    refine .wrap hstart hty (fun inst hinst his => ?_) hinter
    obtain ⟨w, id, gty, hw, hglobal⟩ :=
      hphi ((hframe.extension.instIs_iff Inst.ofShape_isPhi hlt).1 ⟨inst, hinst, his⟩)
    cases hv.symm.trans hw
    exact ⟨id, gty, hframe.extension.keeps v _ hglobal⟩
  refine ⟨g', hok, h.edits.step hstep, fun s hs => ?_, fun s hs => ?_, ?_⟩
  · rcases List.mem_append.1 hs with hs | hs
    · exact hstep.wrappedAt hg.sound hle' hlt' (h.wrapped s hs)
    · obtain rfl := List.mem_singleton.1 hs
      refine ⟨g.graph.nextValue, g.graph.nextInst, val.ty, ?_, ?_, hle'⟩
      · rw [hinter.operand_eq, if_neg hinter.user_ne, if_pos ⟨rfl, rfl⟩]
      · rw [hinter.value_eq, if_pos rfl]
  · rw [List.mem_append, List.mem_singleton, not_or] at hs
    rw [hinter.operand_eq, if_neg hinter.user_ne, if_neg (fun heq => hs.2 heq.2), h.others s hs.1]
  · rw [hinter.length_insts hg.sound, h.length, List.length_append, List.length_singleton]
    omega

/-- The operands of any instruction but a phi can be wrapped one after another. -/
theorem SlotsWrapped.wrapOperands (h : f.SlotsWrapped start i slots g)
    (hphi : ¬ f.InstIs i (·.isPhi = true)) {more : List Nat} (hnodup : (slots ++ more).Nodup)
    (hslots : ∀ s ∈ more, f.HasSlot i s) :
    ∃ g', more.foldlM (wrapOperand i) g = .ok g' ∧ f.SlotsWrapped start i (slots ++ more) g' := by
  refine foldlM_total (P := fun done g' => f.SlotsWrapped start i (slots ++ done) g') ?_
    (by simpa using h)
  rintro done s rest g' rfl hg'
  obtain ⟨v, hv⟩ := hslots s (by simp)
  have hnew : s ∉ slots ++ done := by
    rw [← List.append_assoc] at hnodup
    exact fun hmem => (List.nodup_append.1 hnodup).2.2 s hmem s List.mem_cons_self rfl
  obtain ⟨g'', hok, hg''⟩ := hg'.wrap hf hi hstart hle hnew hv fun his => absurd his hphi
  exact ⟨g'', hok, by simpa using hg''⟩

theorem Markable.wrapGlobals_total (hinst : f.graph.inst i = .ok inst) :
    ∃ g, f.wrapGlobals i = .ok ((List.range inst.operands.length).filter (f.isGlobalAt i), g) ∧
      f.SlotsWrapped start i ((List.range inst.operands.length).filter (f.isGlobalAt i)) g := by
  have hloop : ∃ state,
      (List.range inst.operands.length).foldlM (wrapGlobal i) ([], f) = .ok state ∧
      state.1 = (List.range inst.operands.length).filter (f.isGlobalAt i) ∧
      f.SlotsWrapped start i state.1 state.2 := by
    refine foldlM_total (P := fun done (state : List Nat × Function) =>
      state.1 = done.filter (f.isGlobalAt i) ∧ f.SlotsWrapped start i state.1 state.2) ?_
      ⟨rfl, .refl, by simp, fun _ _ => rfl, rfl⟩
    rintro done s rest ⟨_, g⟩ hsplit ⟨rfl, hg⟩
    have hs : s ∈ List.range inst.operands.length := by
      rw [hsplit]
      simp
    have hnew : s ∉ done := by
      have hnodup := List.nodup_range (n := inst.operands.length)
      rw [hsplit] at hnodup
      exact fun hmem => (List.nodup_append.1 hnodup).2.2 s hmem s List.mem_cons_self rfl
    have hnew' : s ∉ done.filter (f.isGlobalAt i) := fun hmem => hnew (List.mem_filter.1 hmem).1
    obtain ⟨v, hv⟩ := (hasSlot_iff hinst).2 (List.mem_range.1 hs)
    obtain ⟨val, hval⟩ := (hf.closed i s v hv).exists_value
    have hv' : g.graph.operand i s = .ok v := (hg.others s hnew').trans hv
    have hval' : g.graph.value v = .ok val :=
      (hg.edits.frame hf hstart hle).extension.keeps v val hval
    have hglobal := isGlobalAt_eq hv hval
    cases val with
    | global id gty =>
        obtain ⟨g', hok, hg'⟩ := hg.wrap hf hi hstart hle hnew' hv fun _ => ⟨v, id, gty, hv, hval⟩
        have hfilter : done.filter (f.isGlobalAt i) ++ [s] =
            (done ++ [s]).filter (f.isGlobalAt i) := by
          simp [List.filter_append, hglobal, Value.global?]
        exact ⟨_, bind_eq_ok_iff.2 ⟨v, hv', bind_eq_ok_iff.2 ⟨_, hval',
          bind_eq_ok_iff.2 ⟨g', hok, rfl⟩⟩⟩, hfilter, hg'⟩
    | _ =>
        have hfilter : done.filter (f.isGlobalAt i) = (done ++ [s]).filter (f.isGlobalAt i) := by
          simp [List.filter_append, hglobal, Value.global?]
        exact ⟨_, bind_eq_ok_iff.2 ⟨v, hv', bind_eq_ok_iff.2 ⟨_, hval', rfl⟩⟩, hfilter, hg⟩
  obtain ⟨⟨_, g⟩, hok, rfl, hg⟩ := hloop
  exact ⟨g, bind_eq_ok_iff.2 ⟨inst, hinst, hok⟩, hg⟩

/-- The pointer operand is wrapped unless it is already. -/
theorem SlotsWrapped.wrapPointer_total (h : f.SlotsWrapped start i slots g)
    (hinst : f.graph.inst i = .ok inst) :
    ∃ g', g.wrapPointer i slots =
        .ok (slots ++ inst.pointerSlot?.toList.filter (· ∉ slots), g') ∧
      f.SlotsWrapped start i (slots ++ inst.pointerSlot?.toList.filter (· ∉ slots)) g' := by
  have hext := (h.edits.frame hf hstart hle).extension
  obtain ⟨inst', hinst', hshape⟩ :=
    Graph.inst_of_shape_eq (hext.shape i (Graph.inst_lt hinst)) hinst
  have hpointer := Inst.eq_of_shape Inst.pointerSlot?_shape hshape
  cases hslot : inst.pointerSlot? with
  | none =>
      refine ⟨g, bind_eq_ok_iff.2 ⟨inst', hinst', ?_⟩, by simpa using h⟩
      rw [hpointer, hslot]
      simp [pure, Except.pure]
  | some slot =>
      by_cases hmem : slot ∈ slots
      · refine ⟨g, bind_eq_ok_iff.2 ⟨inst', hinst', ?_⟩, by simpa [hmem] using h⟩
        rw [hpointer, hslot]
        simp [hmem, pure, Except.pure]
      · obtain ⟨v, hv⟩ := (hasSlot_iff hinst).2 (Inst.pointerSlot_lt hslot (hf.base hinst))
        obtain ⟨g', hok, hg'⟩ := h.wrap hf hi hstart hle hmem hv fun his => by
          have hphi := his.of_inst hinst
          rw [Inst.isPhi_of_pointerSlot hslot] at hphi
          cases hphi
        have hfilter : (some slot).toList.filter (· ∉ slots) = [slot] := by simp [hmem]
        rw [hfilter]
        refine ⟨g', bind_eq_ok_iff.2 ⟨inst', hinst', ?_⟩, hg'⟩
        rw [hpointer, hslot]
        show ite _ _ _ = _
        rw [if_neg hmem]
        exact bind_eq_ok_iff.2 ⟨g', hok, rfl⟩

end Wrap

/-! ## Wrapping results -/

section Redirect

variable {old new : ValueId} {visited : InstId → Nat → Prop} {user : InstId}

/-- The function `g` is `f` with `new` for `old` at the slots that were visited. -/
structure Redirects (f : Function) (old new : ValueId) (visited : InstId → Nat → Prop)
    (g : Function) : Prop where
  moved : ∀ x s, visited x s → f.graph.operand x s = .ok old → g.graph.operand x s = .ok new
  kept : ∀ x s, ¬ (visited x s ∧ f.graph.operand x s = .ok old) →
    g.graph.operand x s = f.graph.operand x s
  insts : g.insts = f.insts
  result? : ∀ j, g.graph.result? j = f.graph.result? j

namespace Redirects

/-- Only slots that hold the old value count. -/
theorem congr {visited' : InstId → Nat → Prop} (h : f.Redirects old new visited g)
    (hiff : ∀ x s, f.graph.operand x s = .ok old → (visited' x s ↔ visited x s)) :
    f.Redirects old new visited' g where
  moved x s hx hop := h.moved x s ((hiff x s hop).1 hx) hop
  kept x s hx := h.kept x s fun ⟨hvisited, hop⟩ => hx ⟨(hiff x s hop).2 hvisited, hop⟩
  insts := h.insts
  result? := h.result?

theorem hasSlot (h : f.Redirects old new visited g) {x : InstId} {s : Nat} :
    g.HasSlot x s ↔ f.HasSlot x s := by
  unfold HasSlot
  by_cases hmoved : visited x s ∧ f.graph.operand x s = .ok old
  · exact ⟨fun _ => ⟨old, hmoved.2⟩, fun _ => ⟨new, h.moved x s hmoved.1 hmoved.2⟩⟩
  · rw [h.kept x s hmoved]

/-- One more slot can be visited. -/
theorem visitSlot (h : f.Redirects old new visited g) {slot : Nat} (hslot : f.HasSlot user slot) :
    ∃ g', redirectSlot old new user g slot = .ok g' ∧
      f.Redirects old new (fun x s => visited x s ∨ x = user ∧ s = slot) g' := by
  obtain ⟨w, hw⟩ := h.hasSlot.2 hslot
  by_cases heq : w = old
  · subst heq
    obtain ⟨inst, hinst, hs⟩ := Graph.operand_eq_ok.1 hw
    obtain ⟨graph, hgraph⟩ :=
      Graph.setOperand_isOk (v := new) hinst (List.getElem?_eq_some_iff.1 hs).1
    have hset : g.setOperand user slot new = .ok { g with graph } :=
      bind_eq_ok_iff.2 ⟨graph, hgraph, rfl⟩
    have hr := setOperand_rewires hset
    refine ⟨_, bind_eq_ok_iff.2 ⟨w, hw, by rw [if_pos rfl]; exact hset⟩, fun x s hx hop => ?_,
      fun x s hx => ?_, hr.insts_eq.trans h.insts,
      fun j => (hr.graph.result?_eq j).trans (h.result? j)⟩
    · rw [hr.graph.operand_eq]
      split
      · rfl
      · next hne => exact h.moved x s (hx.resolve_right hne) hop
    · have hx' : ¬ (visited x s ∧ f.graph.operand x s = .ok w) :=
        fun hand => hx ⟨.inl hand.1, hand.2⟩
      rw [hr.graph.operand_eq, if_neg]
      · exact h.kept x s hx'
      · rintro ⟨rfl, rfl⟩
        exact hx ⟨.inr ⟨rfl, rfl⟩, (h.kept x s hx').symm.trans hw⟩
  · refine ⟨g, bind_eq_ok_iff.2 ⟨w, hw, by rw [if_neg heq]; rfl⟩, fun x s hx hop => ?_,
      fun x s hx => h.kept x s fun hand => hx ⟨.inl hand.1, hand.2⟩, h.insts, h.result?⟩
    by_cases hvisited : visited x s
    · exact h.moved x s hvisited hop
    · -- The slot was not visited, so it would still hold the old value.
      obtain ⟨rfl, rfl⟩ := hx.resolve_left hvisited
      have hkept := h.kept x s fun hand => hvisited hand.1
      cases hw.symm.trans (hkept.trans hop)
      exact absurd rfl heq

/-- One more consumer can be redirected. -/
theorem visitUser (h : f.Redirects old new visited g) (hinst : g.graph.inst user = .ok inst) :
    ∃ g', g.redirect old new user = .ok g' ∧
      f.Redirects old new (fun x s => visited x s ∨ x = user) g' := by
  have hslots : ∀ s, f.HasSlot user s ↔ s < inst.operands.length := fun s =>
    h.hasSlot.symm.trans (hasSlot_iff hinst)
  have hstart : f.Redirects old new (fun x s => visited x s ∨ x = user ∧ s ∈ []) g :=
    h.congr (by simp)
  obtain ⟨g', hok, hg'⟩ : ∃ g', (List.range inst.operands.length).foldlM
      (redirectSlot old new user) g = .ok g' ∧ f.Redirects old new
        (fun x s => visited x s ∨ x = user ∧ s ∈ List.range inst.operands.length) g' := by
    refine foldlM_total (P := fun done g' => f.Redirects old new
      (fun x s => visited x s ∨ x = user ∧ s ∈ done) g') ?_ hstart
    intro done s rest g₁ hsplit hg₁
    have hs : s ∈ List.range inst.operands.length := by
      rw [hsplit]
      simp
    obtain ⟨g₂, hok, hg₂⟩ := hg₁.visitSlot ((hslots s).2 (List.mem_range.1 hs))
    refine ⟨g₂, hok, hg₂.congr fun x k _ => ?_⟩
    rw [List.mem_append, List.mem_singleton, or_assoc, and_or_left]
  refine ⟨g', bind_eq_ok_iff.2 ⟨inst, hinst, hok⟩, hg'.congr fun x s hop => ?_⟩
  constructor
  · rintro (hvisited | rfl)
    · exact .inl hvisited
    · exact .inr ⟨rfl, List.mem_range.2 ((hslots s).1 ⟨old, hop⟩)⟩
  · rintro (hvisited | ⟨hx, -⟩)
    · exact .inl hvisited
    · exact .inr hx

/-- All consumers can be redirected one after another. -/
theorem visitUsers {users : List InstId} (husers : ∀ x ∈ users, ∃ s, f.HasSlot x s) :
    ∃ g, users.foldlM (redirect old new) f = .ok g ∧
      f.Redirects old new (fun x _ => x ∈ users) g := by
  have hstart : f.Redirects old new (fun x _ => x ∈ ([] : List InstId)) f :=
    ⟨fun x s hx => absurd hx List.not_mem_nil, fun _ _ _ => rfl, rfl, fun _ => rfl⟩
  refine foldlM_total (P := fun done g => f.Redirects old new (fun x _ => x ∈ done) g) ?_ hstart
  rintro done user rest g rfl hg
  obtain ⟨s, hs⟩ := husers user (by simp)
  obtain ⟨v, hv⟩ := hg.hasSlot.2 hs
  obtain ⟨inst, hinst, -⟩ := Graph.operand_eq_ok.1 hv
  obtain ⟨g', hok, hg'⟩ := hg.visitUser hinst
  exact ⟨g', hok, hg'.congr fun x s _ => by simp⟩

end Redirects

end Redirect

/-- The result of an instruction that has a place can be wrapped: its marker is inserted directly
behind it, and every other consumer takes the value of the marker instead. -/
theorem Sound.wrapResult_of (hf : f.Sound) (hi : i ∈ f.insts)
    (hresult : f.graph.result? i = some v) :
    ∃ ty b front back mid g, f.wrapResult i = .ok (1, g) ∧
      f.Inserts b front (.marker v ty) ty back mid ∧
      mid.Redirects v f.graph.nextValue (fun x _ => x ≠ f.graph.nextInst) g := by
  obtain ⟨ty, hval⟩ := (hf.graph.result_iff i v).1 hresult
  have hty : f.graph.typeOf v = .ok ty := Graph.typeOf_eq_ok.2 ⟨_, hval, rfl⟩
  obtain ⟨b, hb⟩ := hf.mem_insts.1 hi
  obtain ⟨front, back, hrow⟩ := List.append_of_mem hb
  obtain ⟨mid, hmid, hins, -⟩ := hf.follow ty hrow hresult
  obtain ⟨users, husers⟩ : ∃ users, users = (mid.graph.usersOf v).filter (· ≠ f.graph.nextInst) :=
    ⟨_, rfl⟩
  have hmem : ∀ {x}, x ∈ users ↔ (∃ s, mid.graph.operand x s = .ok v) ∧ x ≠ f.graph.nextInst := by
    intro x
    rw [husers, List.mem_filter, hins.sound.graph.mem_usersOf, decide_eq_true_eq]
  have hslots : ∀ x ∈ users, ∃ s, mid.HasSlot x s := by
    intro x hx
    obtain ⟨s, hop⟩ := (hmem.1 hx).1
    exact ⟨s, v, hop⟩
  obtain ⟨g, hok, hg⟩ : ∃ g, users.foldlM (redirect v f.graph.nextValue) mid = .ok g ∧
      mid.Redirects v f.graph.nextValue (fun x _ => x ∈ users) g := Redirects.visitUsers hslots
  refine ⟨ty, b, front ++ [i], back, mid, g, ?_, hins, hg.congr fun x s hop => ?_⟩
  · unfold Function.wrapResult
    rw [hresult]
    rw [husers] at hok
    exact bind_eq_ok_iff.2 ⟨ty, hty, bind_eq_ok_iff.2 ⟨_, hmid, bind_eq_ok_iff.2 ⟨g, hok, rfl⟩⟩⟩
  · exact ⟨fun hne => hmem.2 ⟨⟨s, hop⟩, hne⟩, fun hx => (hmem.1 hx).2⟩

/-- `g` is `f` with the result `v` of `i` wrapped: the new marker alone consumes it, the other
consumers take the value of the marker, and all other operands stay. -/
structure WrapsResult (f : Function) (i : InstId) (v : ValueId) (g : Function) : Prop where
  run : f.wrapResult i = .ok (1, g)
  result : g.graph.result? i = some v
  sole : ∀ x s, g.graph.operand x s = .ok v ↔ x = f.graph.nextInst ∧ s = 0
  moved : ∀ x s, f.graph.operand x s = .ok v → g.graph.operand x s = .ok f.graph.nextValue
  kept : ∀ x s p, p ≠ v → f.graph.operand x s = .ok p → g.graph.operand x s = .ok p
  old : ∀ x s p, p ≠ v → p ≠ f.graph.nextValue → g.graph.operand x s = .ok p →
    f.graph.operand x s = .ok p
  length : g.insts.length = f.insts.length + 1

/-- The result of an instruction that has a place can be wrapped. -/
theorem Sound.exists_wrapsResult (hf : f.Sound) (hi : i ∈ f.insts)
    (hresult : f.graph.result? i = some v) : ∃ g, f.WrapsResult i v g := by
  obtain ⟨vty, hval⟩ := (hf.graph.result_iff i v).1 hresult
  obtain ⟨ty, b, front, back, mid, g, hok, hins, hg⟩ := hf.wrapResult_of hi hresult
  have hne : i ≠ f.graph.nextInst := by
    rintro rfl
    exact absurd (hf.lt_of_mem_insts hi) (Nat.lt_irrefl _)
  have hmarker : ∀ s p, mid.graph.operand f.graph.nextInst s = .ok p ↔ s = 0 ∧ p = v := by
    intro s p
    rw [hins.operand_eq, if_pos rfl, require_eq_ok_iff]
    cases s <;> simp [Inst.marker, Inst.operands, eq_comm]
  have hself : ∀ s, g.graph.operand f.graph.nextInst s = mid.graph.operand f.graph.nextInst s :=
    fun s => hg.kept _ s fun hand => hand.1 rfl
  refine ⟨g, hok, ?_, fun x s => ⟨fun hop => ?_, ?_⟩, fun x s hop => ?_, fun x s p hpv hop => ?_,
    fun x s p hpv hpnew hop => ?_, ?_⟩
  · rw [hg.result?, hins.result?, if_neg hne, hresult]
  · by_cases hx : x = f.graph.nextInst
    · subst hx
      exact ⟨rfl, ((hmarker s v).1 (hself s ▸ hop)).1⟩
    · -- Any other consumer was redirected to the value of the marker.
      by_cases hold : mid.graph.operand x s = .ok v
      · cases hop.symm.trans (hg.moved x s hx hold)
        exact absurd (Graph.has_of_value hval) (Nat.lt_irrefl _)
      · exact absurd ((hg.kept x s fun hand => hold hand.2).symm.trans hop) hold
  · rintro ⟨rfl, rfl⟩
    exact (hself 0).trans ((hmarker 0 v).2 ⟨rfl, rfl⟩)
  · refine hg.moved x s ?_ (hins.operand_old hop)
    rintro rfl
    obtain ⟨inst, hinst, -⟩ := Graph.operand_eq_ok.1 hop
    exact absurd (Graph.inst_lt hinst) (Nat.lt_irrefl _)
  · have hmid := hins.operand_old hop
    rw [hg.kept x s, hmid]
    rintro ⟨-, hv⟩
    cases hmid.symm.trans hv
    exact hpv rfl
  · by_cases hx : x = f.graph.nextInst
    · subst hx
      exact absurd ((hmarker s p).1 (hself s ▸ hop)).2 hpv
    · by_cases hold : mid.graph.operand x s = .ok v
      · cases hop.symm.trans (hg.moved x s hx hold)
        exact absurd rfl hpnew
      · rw [hg.kept x s fun hand => hold hand.2, hins.operand_eq, if_neg hx] at hop
        exact hop
  · rw [hg.insts, hins.length_insts hf]

/-- After its result is wrapped, the marker alone consumes the address that an instruction makes. -/
theorem Markable.wrapResult_total (hf : f.Markable ctx) (hi : i ∈ f.insts)
    (hle : start ≤ f.graph.insts.size) (hmakes : f.InstIs i (·.makesAddress = true)) :
    ∃ g, f.wrapResult i = .ok (1, g) ∧ g.SoleAt start i ∧
      g.insts.length = f.insts.length + 1 := by
  obtain ⟨v, hresult⟩ := hf.defined i hi hmakes
  obtain ⟨g, hwraps⟩ := hf.sound.exists_wrapsResult hi hresult
  exact ⟨g, hwraps.run, ⟨v, f.graph.nextInst, hwraps.result, hle, hwraps.sole⟩, hwraps.length⟩

end Function

end Pointee
