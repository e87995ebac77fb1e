import Pointee.Proofs.Classification

/-!
# The order of classification

Functions are classified one after another against a map that grows on the way: the address of each
is recorded before the next one is typed. A function that returns the address of one declared before
it therefore finds a descriptor there, where a function that returns the address of one declared
after it finds none. `Module.signatures_read_earlier_addresses` says what every signature was typed
by, and when that is the map that classification started from. It is so for all argument slots.
-/

namespace Pointee

open PtrMap TypeStore

/-! ## What a source of descriptors reads -/

namespace SlotSource

variable {m : Module} {map map' : PtrMap} {f : FuncId} {func : Function}

/-- The returned values alone decide what they share. -/
theorem sharedReturn_congr {g : Graph} {is : List InstId}
    (h : ∀ i ∈ is, ∀ v key, g.inst i = .ok (.ret (some v)) → PtrKey.ofValue f g v = .ok key →
      map.get? key = map'.get? key) (found : Option Descriptor) :
    sharedReturn map f g found is = sharedReturn map' f g found is := by
  induction is generalizing found with
  | nil => rfl
  | cons i is ih =>
      rw [List.forall_mem_cons] at h
      have ih := ih h.2
      unfold sharedReturn
      cases hinst : g.inst i with
      | error fault => rfl
      | ok inst =>
          cases inst with
          | ret returned =>
              cases returned with
              | none => exact ih found
              | some v =>
                  have hread : map.ofValue? f g v = map'.ofValue? f g v := by
                    unfold ofValue?
                    cases hkey : PtrKey.ofValue f g v with
                    | error fault => rfl
                    | ok key => exact congrArg Except.ok (h.1 v key hinst hkey)
                  show (map.ofValue? f g v >>= _) = (map'.ofValue? f g v >>= _)
                  rw [hread]
                  simp only [ih]
          | _ => exact ih found

/-- A source reads the arguments of its function and what the function returns. -/
theorem ofMap_congr (hfunc : m.func f = .ok func)
    (harg : ∀ v, map.get? (.value f v) = map'.get? (.value f v))
    (hret : ∀ i ∈ func.insts, ∀ v key, func.graph.inst i = .ok (.ret (some v)) →
      PtrKey.ofValue f func.graph v = .ok key → map.get? key = map'.get? key) :
    ofMap m map f = ofMap m map' f := by
  simp only [ofMap, hfunc, harg, mk.injEq, and_true]
  exact sharedReturn_congr hret .none

end SlotSource

/-- Two sources with the same descriptors for arguments fill the argument slots in the same way. -/
theorem Signature.args_of_typed {ctx : Context} {fallback : Option Ty} {sig : Signature}
    {source source' : SlotSource} {typed typed' : TypedSignature} {s t t' : TypeStore}
    (h : (sig.typed ctx fallback source).exec s = .ok (.ok typed, s))
    (h' : (sig.typed ctx fallback source').exec t = .ok (.ok typed', t'))
    (hle : s ≤ t') (harg : ∀ i, source.arg i = source'.arg i) : typed.args = typed'.args := by
  have hlen := length_of_typed h
  have hlen' := length_of_typed h'
  refine List.ext_getElem (hlen.trans hlen'.symm) fun i hi hi' => ?_
  have hty : sig.args[i]? = some sig.args[i] := List.getElem?_eq_getElem (hlen ▸ hi)
  have hslot := typed_arg h hle hty
  rw [harg, typed_arg h' (le_refl t') hty] at hslot
  simpa [TypedSignature.arg?, hi, hi'] using hslot.symm

/-- The function has a return of the address of `g`. -/
def Function.ReturnsAddress (f : Function) (g : FuncId) : Prop :=
  ∃ i ∈ f.insts, ∃ v, f.graph.inst i = .ok (.ret (some v)) ∧ f.graph.value v = .ok (.func g)

namespace Module

variable {m : Module} {config : Config} {s t types : TypeStore} {map map' : PtrMap} {f g : FuncId}

/-! ## Addresses that are recorded on the way -/

/-- The descriptor of the address of `g` that its signature in the map makes. -/
def signatureAddress? (m : Module) (types : TypeStore) (map : PtrMap) (g : FuncId) :
    Option Descriptor := do
  let sig ← (m.ctx.signature g).toOption
  let typed ← map.signature? g
  return (typed.funcDescriptor sig types).1

/-- The addresses of the functions that are declared before `f`. -/
def earlierAddresses (m : Module) (types : TypeStore) (map : PtrMap) (f : FuncId) :
    List (PtrKey × Descriptor) :=
  (m.funcIds.take f.index).filterMap fun g =>
    (m.signatureAddress? types map g).map fun d => (.func g, d)

theorem lookup_address (address? : FuncId → Option Descriptor) (ids : List FuncId) (g : FuncId) :
    (ids.filterMap fun g => (address? g).map fun d => (PtrKey.func g, d)).lookup (.func g) =
      if g ∈ ids then address? g else none := by
  induction ids with
  | nil => rfl
  | cons g' ids ih =>
      by_cases heq : g = g'
      · subst heq
        cases hd : address? g with
        | none =>
            rw [List.filterMap_cons_none (by rw [hd]; rfl), ih, if_pos List.mem_cons_self, hd]
            exact ite_self none
        | some d =>
            rw [List.filterMap_cons_some (by rw [hd]; rfl), List.lookup_cons_self,
              if_pos List.mem_cons_self]
      · have hne : (PtrKey.func g == PtrKey.func g') = false := by simpa using heq
        have hmem : g ∈ g' :: ids ↔ g ∈ ids := by simp [heq]
        simp only [hmem, ← ih]
        cases hd : address? g' with
        | none => rw [List.filterMap_cons_none (by rw [hd]; rfl)]
        | some d => rw [List.filterMap_cons_some (by rw [hd]; rfl), List.lookup_cons, hne]

/-- A function has the address it had, or the one of its signature if it is an earlier one. -/
theorem get?_earlier_func (g : FuncId) :
    (map.insertAll (m.earlierAddresses types map' f)).get? (.func g) = (map.get? (.func g)).or
      (if g ∈ m.funcIds.take f.index then m.signatureAddress? types map' g else none) := by
  rw [get?_insertAll, earlierAddresses, lookup_address]

theorem get?_earlier_other {key : PtrKey} (hkey : ∀ g, key ≠ .func g) :
    (map.insertAll (m.earlierAddresses types map' f)).get? key = map.get? key := by
  rw [get?_insertAll, List.lookup_eq_none_iff.2, Option.or_none]
  rintro ⟨key', d⟩ hmem
  obtain ⟨g, -, hg⟩ := List.mem_filterMap.1 hmem
  obtain ⟨d', -, heq⟩ := Option.map_eq_some_iff.1 hg
  cases heq
  simpa using hkey g

/-- Once the functions before `f` are classified, the map knows their addresses and nothing else
that is new. -/
theorem get?_of_classified {mid : PtrMap}
    (hframe : ClassifyFrame (m.funcIds.take f.index) map mid)
    (hclassified : ∀ g ∈ m.funcIds.take f.index,
      ∃ sig typed, m.Classified config types map mid g sig typed)
    (hsame : ∀ g ∈ m.funcIds.take f.index, map'.signature? g = mid.signature? g) (key : PtrKey) :
    mid.get? key = (map.insertAll (m.earlierAddresses types map' f)).get? key := by
  by_cases hkey : ∃ g, key = .func g
  · obtain ⟨g, rfl⟩ := hkey
    rw [get?_earlier_func]
    split
    · next hg =>
        obtain ⟨sig, typed, hclass⟩ := hclassified g hg
        have haddress : m.signatureAddress? types map' g =
            some (typed.funcDescriptor sig types).1 := by
          simp [signatureAddress?, hclass.declared, hsame g hg, hclass.signature, Except.toOption]
        rw [hclass.address, haddress]
    · next hg =>
        rw [Option.or_none]
        refine hframe.get? _ fun g' hg' heq => hg ?_
        cases heq
        exact hg'
  · rw [not_exists] at hkey
    rw [get?_earlier_other hkey]
    exact hframe.get? key fun g _ => hkey g

theorem funcIds_split {func : Function} (hf : m.func f = .ok func) :
    ∃ after, m.funcIds = m.funcIds.take f.index ++ f :: after := by
  have hlt : f.index < m.funcIds.length := by
    obtain ⟨hlt, -⟩ := Array.getElem?_eq_some_iff.1 (func_eq_ok.1 hf)
    simpa [funcIds] using hlt
  refine ⟨m.funcIds.drop (f.index + 1), ?_⟩
  have hget : m.funcIds[f.index] = f := by simp [funcIds]
  conv_lhs => rw [← List.take_append_drop f.index m.funcIds, List.drop_eq_getElem_cons hlt, hget]

/-- When a function is classified, the functions declared before it have been, and no other. -/
theorem classifyFunctions_turn {func : Function} (hf : m.func f = .ok func)
    (h : (m.classifyFunctions config map).exec s = .ok (.ok map', t)) :
    ∃ mid sig typed, (∀ key, mid.get? key =
        (map.insertAll (m.earlierAddresses t map' f)).get? key) ∧
      m.ctx.signature f = .ok sig ∧ map'.signature? f = some typed ∧
      (sig.typed m.ctx (some config.fallback) (.ofMap m mid f)).exec t = .ok (.ok typed, t) := by
  obtain ⟨after, hsplit⟩ := funcIds_split hf
  have hnodup := m.nodup_funcIds
  unfold classifyFunctions at h
  rw [hsplit] at h hnodup
  rw [List.foldlM_append] at h
  obtain ⟨hbefore, hcons, hdisjoint⟩ := List.nodup_append.1 hnodup
  obtain ⟨hnot, hafter⟩ := List.nodup_cons.1 hcons
  obtain ⟨mid, u, hrun, h⟩ := Pass.exec_bind_eq_ok.1 h
  rw [List.foldlM_cons] at h
  obtain ⟨mid', v, hturn, hrest⟩ := Pass.exec_bind_eq_ok.1 h
  obtain ⟨sig, typed, d, w, hsig, htyped, hle, -, rfl⟩ := classifyFunction_typed hturn
  obtain ⟨hgrows, hrest⟩ := foldlM_classifyFunction hafter hrest
  obtain ⟨hframe, -⟩ := hrest (le_refl t)
  have huv : u ≤ v := le_trans ((sig.typed_bounded _ _ _).grows u _ w htyped) hle
  obtain ⟨-, hclassified⟩ := foldlM_classifyFunction hbefore hrun
  obtain ⟨hframe₀, hclassified⟩ := hclassified (le_trans huv hgrows)
  -- What the signature of an earlier function is, is settled when `f` is classified.
  have hearlier : ∀ g ∈ m.funcIds.take f.index, map'.signature? g = mid.signature? g := by
    intro g hg
    have hne : g ≠ f := hdisjoint g hg f List.mem_cons_self
    have hmem : g ∉ after := fun hmem => hdisjoint g hg g (List.mem_cons_of_mem f hmem) rfl
    rw [hframe.signature? g hmem, signature?_setSignature, if_neg hne]
    show (mid.insert _ _).signatures.lookup g = _
    rw [(insert_frame ..).1]
    rfl
  refine ⟨mid, sig, typed, get?_of_classified hframe₀ hclassified hearlier, hsig, ?_, ?_⟩
  · rw [hframe.signature? f hnot, signature?_setSignature, if_pos rfl]
  · exact Signature.typed_again htyped (le_trans hle hgrows)

/-- The addresses of earlier functions matter only to a function that returns one of them which the
map does not know. -/
theorem get?_insertAll_earlier {func : Function} {v : ValueId} {i : InstId} {key : PtrKey}
    (hi : i ∈ func.insts) (hinst : func.graph.inst i = .ok (.ret (some v)))
    (hkey : PtrKey.ofValue f func.graph v = .ok key)
    (hknown : ∀ g, func.ReturnsAddress g → g.index < f.index → (map.get? (.func g)).isSome) :
    (map.insertAll (m.earlierAddresses types map' f)).get? key = map.get? key := by
  rcases PtrKey.ofValue_eq_ok hkey with ⟨gid, ty, -, rfl⟩ | ⟨g, hval, rfl⟩ | rfl
  · exact get?_earlier_other fun g heq => by cases heq
  · rw [get?_earlier_func]
    split
    · next hg =>
        have hlt : g.index < f.index := by
          rw [funcIds, ← List.map_take, List.mem_map] at hg
          obtain ⟨n, hn, rfl⟩ := hg
          rw [List.take_range, List.mem_range] at hn
          exact Nat.lt_of_lt_of_le hn (Nat.min_le_left _ _)
        obtain ⟨d, hd⟩ := Option.isSome_iff_exists.1 (hknown g ⟨i, hi, v, hinst, hval⟩ hlt)
        rw [hd]
        rfl
    · exact Option.or_none
  · exact get?_earlier_other fun g heq => by cases heq

/-- The signature that classification stores for a function is that of the function typed against
the map it was given and the addresses of the functions declared before. The map alone decides
unless the function returns the address of an earlier function that the map does not know, and even
then it decides all argument slots. -/
theorem signatures_read_earlier_addresses {func : Function}
    (h : (m.classifyFunctions config map).exec s = .ok (.ok map', t)) (hf : m.func f = .ok func) :
    ∃ sig typed, m.ctx.signature f = .ok sig ∧ map'.signature? f = some typed ∧
      (sig.typed m.ctx (some config.fallback)
        (.ofMap m (map.insertAll (m.earlierAddresses t map' f)) f)).exec t = .ok (.ok typed, t) ∧
      ((∀ g, func.ReturnsAddress g → g.index < f.index → (map.get? (.func g)).isSome) →
        (sig.typed m.ctx (some config.fallback) (.ofMap m map f)).exec t = .ok (.ok typed, t)) ∧
      ∀ alone u, (sig.typed m.ctx (some config.fallback) (.ofMap m map f)).exec t =
        .ok (.ok alone, u) → typed.args = alone.args := by
  obtain ⟨mid, sig, typed, hmid, hsig, hsignature, htyped⟩ := classifyFunctions_turn hf h
  have hvalue (v : ValueId) : mid.get? (.value f v) = map.get? (.value f v) := by
    rw [hmid, get?_earlier_other fun g heq => by cases heq]
  refine ⟨sig, typed, hsig, hsignature, ?_, fun hknown => ?_, fun alone u halone => ?_⟩
  · rw [← SlotSource.ofMap_congr hf (fun v => hmid _) fun i hi v key hinst hkey => hmid key]
    exact htyped
  · rw [← SlotSource.ofMap_congr hf hvalue fun i hi v key hinst hkey => ?_]
    · exact htyped
    · rw [hmid, get?_insertAll_earlier hi hinst hkey hknown]
  · refine Signature.args_of_typed htyped halone ?_ fun i => ?_
    · exact (sig.typed_bounded _ _ _).grows t _ u halone
    · simp only [SlotSource.ofMap, hf, hvalue]

/-- Two functions that return addresses: the second that of the first, and the third its own. -/
def returnsAddresses : Except Fault Module := do
  let m ← ofItems ⟨.air64, .bitcode, .v7⟩ [] [⟨"f", .exported, [], .unit, none⟩,
    ⟨"g", .exported, [], .genericPtr, none⟩, ⟨"h", .exported, [.genericPtr], .genericPtr, none⟩]
    [.inst (.ret none)]
  let m ← m.writeBody ⟨1⟩ [.funcAddr ⟨0⟩, .inst (.ret (some ⟨0⟩))]
  m.writeBody ⟨2⟩ [.funcAddr ⟨2⟩, .inst (.ret (some ⟨1⟩))]

theorem built_of_returnsAddresses {m : Module} (h : returnsAddresses = .ok m) : m.Built := by
  obtain ⟨m₁, h₁, h⟩ := bind_eq_ok_iff.1 h
  obtain ⟨m₂, h₂, h⟩ := bind_eq_ok_iff.1 h
  exact ((built_of_ofItems h₁).writeBody h₂).writeBody h

theorem signatures_read_earlier_addresses_returnsAddresses : ∃ m map t sig typed sig' typed',
    returnsAddresses = .ok m ∧
    (m.classifyFunctions (.ofStrategy .analytical) .empty).exec m.ctx.types = .ok (.ok map, t) ∧
    m.ctx.signature ⟨1⟩ = .ok sig ∧ map.signature? ⟨1⟩ = some typed ∧
    (sig.typed m.ctx (some .i8)
      (.ofMap m (insertAll .empty (m.earlierAddresses t map ⟨1⟩)) ⟨1⟩)).exec t =
        .ok (.ok typed, t) ∧
    m.ctx.signature ⟨2⟩ = .ok sig' ∧ map.signature? ⟨2⟩ = some typed' ∧
    (sig'.typed m.ctx (some .i8) (.ofMap m .empty ⟨2⟩)).exec t = .ok (.ok typed', t) := by
  have hrun : succeeds returnsAddresses (fun m =>
      succeeds ((m.classifyFunctions (.ofStrategy .analytical) .empty).exec m.ctx.types) fun run =>
        succeeds (m.func ⟨1⟩) fun _ => succeeds (m.func ⟨2⟩) fun h => run.1.isOk &&
          succeeds (h.graph.value ⟨1⟩) (· = .func ⟨2⟩) &&
          h.insts.all fun i => succeeds (h.graph.inst i) (· = .ret (some ⟨1⟩))) = true := by
    decide +kernel
  obtain ⟨m, hm, hrun⟩ := exists_of_succeeds hrun
  obtain ⟨⟨r, t⟩, hexec, hrun⟩ := exists_of_succeeds hrun
  obtain ⟨g, hg, hrun⟩ := exists_of_succeeds hrun
  obtain ⟨h, hh, hrun⟩ := exists_of_succeeds hrun
  simp only [Bool.and_eq_true, List.all_eq_true] at hrun
  obtain ⟨⟨hr, haddress⟩, hreturns⟩ := hrun
  cases r with
  | error e => cases hr
  | ok map =>
      obtain ⟨sig, typed, hsig, htyped, hearlier, -⟩ := signatures_read_earlier_addresses hexec hg
      obtain ⟨sig', typed', hsig', htyped', -, hown, -⟩ :=
        signatures_read_earlier_addresses hexec hh
      refine ⟨m, map, t, sig, typed, sig', typed', hm, hexec, hsig, htyped, hearlier, hsig',
        htyped', hown ?_⟩
      -- The only address that the third function returns is its own.
      rintro f ⟨i, hi, v, hinst, hval⟩ hlt
      obtain ⟨inst, hinst', hret⟩ := exists_of_succeeds (hreturns i hi)
      cases hinst.symm.trans hinst'
      cases of_decide_eq_true hret
      obtain ⟨val, hval', hown⟩ := exists_of_succeeds haddress
      cases hval.symm.trans hval'
      cases of_decide_eq_true hown
      exact absurd hlt (Nat.lt_irrefl _)

/-- The map that classification starts from does not decide every signature: a function may return
the address of one declared before it. -/
theorem not_forall_typed_by_map : ¬ ∀ (config : Config) (m : Module) (map map' : PtrMap)
    (s t : TypeStore), m.Built → (m.classifyFunctions config map).exec s = .ok (.ok map', t) →
    ∀ f func, m.func f = .ok func → ∃ sig typed, m.ctx.signature f = .ok sig ∧
      map'.signature? f = some typed ∧
      (sig.typed m.ctx (some config.fallback) (.ofMap m map f)).exec t = .ok (.ok typed, t) := by
  intro hall
  have hrun : succeeds returnsAddresses (fun m =>
      succeeds ((m.classifyFunctions (.ofStrategy .analytical) .empty).exec m.ctx.types) fun run =>
        succeeds (m.func ⟨1⟩) fun _ => succeeds (m.ctx.signature ⟨1⟩) fun sig =>
        succeeds ((sig.typed m.ctx (some .i8) (.ofMap m .empty ⟨1⟩)).exec run.2) fun alone =>
          run.1.toOption.any fun map => alone.1.toOption.any fun alone =>
            map.signature? ⟨1⟩ ≠ some alone) = true := by
    decide +kernel
  obtain ⟨m, hm, hrun⟩ := exists_of_succeeds hrun
  obtain ⟨⟨r, t⟩, hexec, hrun⟩ := exists_of_succeeds hrun
  obtain ⟨g, hg, hrun⟩ := exists_of_succeeds hrun
  obtain ⟨sig, hsig, hrun⟩ := exists_of_succeeds hrun
  obtain ⟨⟨r', t'⟩, halone, hrun⟩ := exists_of_succeeds hrun
  cases r with
  | error e => cases hrun
  | ok map =>
      obtain ⟨sig', typed, hsig', hsignature, htyped⟩ := hall (.ofStrategy .analytical) m .empty
        map _ t (built_of_returnsAddresses hm) hexec ⟨1⟩ g hg
      cases hsig.symm.trans hsig'
      cases halone.symm.trans htyped
      exact of_decide_eq_true hrun hsignature

end Module

end Pointee
