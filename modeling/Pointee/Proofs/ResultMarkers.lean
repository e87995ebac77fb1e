import Pointee.Proofs.ExactExtraction

/-!
# Descriptors of addresses and of their markers

An address computation or an allocation records the same descriptor for its result and for the
marker behind it. For the result nothing else is recorded. The marker is also what the accesses
through the result go through, by markers of their own, and the first record counts: an access that
is laid out before the instruction, or one that the instruction makes itself, gives its element type
to the marker. `Module.result_markers_keep_first_access` says this of every run that succeeds, and
`Module.not_forall_marker_of_result` that a marker may disagree with the result.
-/

namespace Pointee

open PtrMap TypeStore

namespace Function

variable {ctx : Context} {f : Function} {start : Nat} {id : FuncId} {i j : InstId}
  {v marker : ValueId} {d d' : Descriptor} {site : Site} {types s t : TypeStore} {map map' : PtrMap}
  {front back : List InstId} {pointee : Ty}

/-! ## One instruction -/

/-- If extraction gets past an instruction that makes an address, the address has its marker. -/
theorem exists_makes_of_extractInst (hsite : f.graph.site i = .ok site)
    (hpointee : resultPointee? site = some pointee) (hresult : f.graph.result? i = some v)
    (h : (f.extractInst ctx id map i).exec s = .ok (.ok map', t)) :
    ∃ marker space, f.Makes i v marker ⟨pointee, space⟩ := by
  have hmarker := isMarker_ne_of_resultPointee hsite hpointee
  obtain ⟨_, _, _, _, -, h, -⟩ := extractInst_eq_ok hmarker hsite h
  unfold extractResult at h
  rw [hpointee, hresult] at h
  dsimp only at h
  rw [Pass.exec_liftM_bind] at h
  obtain ⟨space, hspace, h⟩ := bind_eq_ok_iff.1 h
  cases space with
  | none => exact absurd h refuseType_not_ok
  | some space =>
      dsimp only at h
      rw [Pass.exec_liftM_bind] at h
      obtain ⟨marker, hmarked, h⟩ := bind_eq_ok_iff.1 h
      cases marker with
      | none => exact absurd h refuse_not_ok
      | some marker => exact ⟨marker, space, ⟨site, hsite, hpointee⟩, hresult, hspace, hmarked⟩

namespace Parted

variable (h : f.Parted ctx start) (hi : i ∈ f.insts) (hmakes : f.Makes i v marker d)
include h hi hmakes

/-- No access goes through the marker of an address itself. -/
theorem ne_marker_of_accesses {p w : ValueId} (hj : j ∈ f.insts) (haccess : f.Accesses j p w d') :
    p ≠ marker := by
  rintro rfl
  obtain ⟨slot, hsite, hop⟩ := haccess.isSite
  exact h.operand_ne_marker hi hmakes hj hsite hop

/-- No call passes the marker of an address itself where the callee types the argument. -/
theorem ne_marker_of_passes {p : ValueId} (hj : j ∈ f.insts)
    (hpasses : f.Passes ctx types j p d') : p ≠ marker := by
  rintro rfl
  obtain ⟨slot, hsite, hop⟩ := hpasses.isSite
  exact h.operand_ne_marker hi hmakes hj hsite hop

/-- About the marker of an address, only accesses through the address say something, and the
instruction that makes the address. -/
theorem fixes_marker (hj : j ∈ f.insts) (hji : j ≠ i) :
    f.Fixes ctx types id j (.value id marker) d' ↔
      f.accessTo id (.value id marker) j = some d' := by
  rw [accessTo_eq_some]
  constructor
  · intro hfix
    generalize hkey : PtrKey.value id marker = key at hfix
    cases hfix with
    | pointer haccess =>
        cases hkey
        exact absurd rfl (h.ne_marker_of_accesses hi hmakes hj haccess)
    | wrapped haccess hofValue => exact ⟨_, _, haccess, hkey ▸ hofValue⟩
    | result hmakes' =>
        cases hkey
        exact absurd (hmakes.markedOperand h.sound) (hmakes'.markedOperand_ne h.sound)
    | marker hmakes' =>
        -- The marker wraps one address only.
        cases hkey
        have hwrapped := (hmakes.markedOperand h.sound).symm.trans (hmakes'.markedOperand h.sound)
        cases hwrapped
        exact absurd (h.sound.graph.result_inj hmakes'.result hmakes.result) hji
    | argument hpasses =>
        cases hkey
        exact absurd rfl (h.ne_marker_of_passes hi hmakes hj hpasses)
  · rintro ⟨p, w, haccess, hofValue⟩
    exact .wrapped haccess hofValue

/-- The instruction that makes an address records it for the marker, behind what it may access
through the address itself. -/
theorem get?_extractInst (hrun : (f.extractInst ctx id map i).exec s = .ok (.ok map', t)) :
    map'.get? (.value id marker) =
      ((map.get? (.value id marker)).or (f.accessTo id (.value id marker) i)).or (some d) := by
  obtain ⟨site, hsite, hpointee⟩ := hmakes.pointee
  obtain ⟨map₁, s₁, map₂, s₂, hbinding, hresult, hcall⟩ :=
    extractInst_eq_ok hmakes.isMarker_ne hsite hrun
  have hbindings : map₁.get? (.value id marker) =
      (map.get? (.value id marker)).or (f.accessTo id (.value id marker) i) := by
    refine (extractBinding_records hsite).get? hbinding (le_refl s₁) fun d' => ?_
    rw [accessTo_eq_some]
    constructor
    · rintro ⟨p, w, haccess, heq | hofValue⟩
      · cases heq
        exact absurd rfl (h.ne_marker_of_accesses hi hmakes hi haccess)
      · exact ⟨p, w, haccess, hofValue⟩
    · rintro ⟨p, w, haccess, hofValue⟩
      exact ⟨p, w, haccess, .inr hofValue⟩
  have hresults : map₂.get? (.value id marker) =
      (map₁.get? (.value id marker)).or (some d) := by
    refine (extractResult_records hsite).get? hresult (le_refl s₂) fun d' => ⟨?_, ?_⟩
    · rintro ⟨v', marker', hmakes', -⟩
      rw [(hmakes.unique hmakes').2.2]
    · intro heq
      cases heq
      exact ⟨v, marker, hmakes, .inr rfl⟩
  have hcalls : map'.get? (.value id marker) = (map₂.get? (.value id marker)).or none := by
    refine (extractCall_records hsite).get? hcall (le_refl t) fun d' => ⟨?_, nofun⟩
    rintro ⟨arg, hpasses, heq⟩
    cases heq
    exact absurd rfl (h.ne_marker_of_passes hi hmakes hi hpasses)
  rw [hcalls, hresults, hbindings, Option.or_none]

end Parted

/-! ## One function -/

/-- What extraction leaves for an address that the function makes, and for its marker. -/
theorem Parted.get?_extract (h : f.Parted ctx start) (hinsts : f.insts = front ++ i :: back)
    (hsite : f.graph.site i = .ok site) (hpointee : resultPointee? site = some pointee)
    (hresult : f.graph.result? i = some v) (hmap : ∀ v, map.get? (.value id v) = none)
    (hrun : (f.extract ctx id map).exec s = .ok (.ok map', t)) :
    ∃ marker space, f.Makes i v marker ⟨pointee, space⟩ ∧
      map'.get? (.value id v) = some ⟨pointee, space⟩ ∧
      map'.get? (.value id marker) =
        ((front ++ [i]).findSome? (f.accessTo id (.value id marker))).or
          (some ⟨pointee, space⟩) := by
  have hi : i ∈ f.insts := by simp [hinsts]
  have hnodup := h.sound.nodup_insts
  obtain ⟨mid, hloop, hsecond⟩ := extract_eq_ok hrun
  have hfirst := (Pass.Records.foldlM (fun j _ => extractInst_records j) hloop).2 (le_refl t)
  -- The marker is read where the loop comes to `i`.
  rw [hinsts] at hnodup
  rw [hinsts, List.foldlM_append] at hloop
  obtain ⟨map₁, s₁, hfront, hloop⟩ := Pass.exec_bind_eq_ok.1 hloop
  rw [List.foldlM_cons] at hloop
  obtain ⟨map₂, s₂, hround, hback⟩ := Pass.exec_bind_eq_ok.1 hloop
  obtain ⟨marker, space, hmakes⟩ := exists_makes_of_extractInst hsite hpointee hresult hround
  refine ⟨marker, space, hmakes, ?_, ?_⟩
  · refine hsecond.kept (hfirst.get?_unique (hmap v) ⟨i, hi, .result hmakes⟩ fun j hj d hfix => ?_)
    exact h.fixes_made hi hmakes hj hfix
  · have hfronts : map₁.get? (.value id marker) =
        (map.get? (.value id marker)).or (front.findSome? (f.accessTo id (.value id marker))) := by
      refine ((Pass.Records.foldlM (fun j _ => extractInst_records j) hfront).2 (le_refl s₁)).get?
        fun j hj d => h.fixes_marker hi hmakes (by simp [hinsts, hj]) ?_
      exact (List.nodup_append.1 hnodup).2.2 j hj i List.mem_cons_self
    have hrounds := h.get?_extractInst hi hmakes hround
    rw [hfronts, hmap, Option.none_or] at hrounds
    obtain ⟨e, he⟩ : ∃ e, ((front ++ [i]).findSome? (f.accessTo id (.value id marker))).or
        (some ⟨pointee, space⟩) = some e := Option.isSome_iff_exists.1 (by simp)
    rw [List.findSome?_append, List.findSome?_singleton] at he ⊢
    rw [he]
    have hkept := (Pass.Records.foldlM (fun j _ => extractInst_records j) hback).2 (le_refl t)
    exact hsecond.kept (hkept.kept (hrounds.trans he))

end Function

/-! ## Modules -/

namespace Module

variable {config : Config} {m m' : Module} {out : Retyped} {id : FuncId} {f : Function}

/-- After a run that succeeds, the markers of sites stay apart from those of addresses. -/
theorem Built.parted {flat : Module} {demoted marked : Bool} (hm : m.Built)
    (hdemote : m.demote = .ok (demoted, flat)) (hmark : mark.exec flat = .ok (.ok marked, m'))
    (hf : m'.func id = .ok f) : ∃ start, f.Parted m'.ctx start := by
  obtain ⟨types, hctx⟩ := (mark_ok hmark).types
  obtain ⟨f₀, types', n, t, hf₀, hrun, rfl⟩ := exists_markFunction hmark hf
  obtain ⟨-, -, -, hsound⟩ := hm.demoted hdemote hf₀
  rw [hctx]
  have hparted := Marking.markFunction_parted (s := ⟨types', f₀⟩) hsound hrun
  exact ⟨_, hparted.withTypes types⟩

/-- After a run that succeeds, the result `v` of an address computation or an allocation has its own
pointee and address space for descriptor. The marker that wraps it has the same, unless an access
through the result comes first, in the order of the layout: then the marker has what the first such
access says. -/
theorem result_markers_keep_first_access (hm : m.Built)
    (h : (retypeEagerly config).exec m = .ok (.ok out, m')) (hf : m'.func id = .ok f)
    {front back : List InstId} {i : InstId} (hinsts : f.insts = front ++ i :: back)
    {site : Site} {pointee : Ty} {v : ValueId} (hsite : f.graph.site i = .ok site)
    (hpointee : Function.resultPointee? site = some pointee)
    (hresult : f.graph.result? i = some v) :
    ∃ marker space, f.graph.soleMarker i = .ok (some marker) ∧
      f.graph.spaceOf v = .ok (some space) ∧
      out.map.get? (.value id v) = some ⟨pointee, space⟩ ∧
      out.map.get? (.value id marker) =
        ((front ++ [i]).findSome? (f.accessTo id (.value id marker))).or
          (some ⟨pointee, space⟩) := by
  obtain ⟨_, _, _, wrapped, checked, types, hdemote, hmark, hextract, rfl⟩ := retypeEagerly_eq_ok h
  have hf' : (wrapped.setTypes checked).func id = .ok f := hf
  obtain ⟨start, hparted⟩ := hm.parted hdemote hmark (f := f) hf
  obtain ⟨bodies, u, hbodies, -, hextracted⟩ := extract_classified hextract
  obtain ⟨before, after, s, t, hfree, hbody, -, hkept⟩ := extractBodies_at hf' hbodies
  have hbody : (f.extract (wrapped.setTypes checked).ctx id before).exec s =
      .ok (.ok after, t) := by
    unfold extractBody at hbody
    split at hbody
    · next hdeclaration =>
        rw [Function.insts_of_isDeclaration hdeclaration] at hinsts
        simp at hinsts
    · exact hbody
  obtain ⟨marker, space, hmakes, hv, hmarker⟩ := (hparted.withTypes checked).get?_extract hinsts
    hsite hpointee hresult (fun w => (hfree w).trans (get?_seedGlobals_value id w)) hbody
  refine ⟨marker, space, hmakes.marked, hmakes.space, hextracted.kept _ _ (hkept _ _ hv), ?_⟩
  obtain ⟨e, he⟩ : ∃ e, ((front ++ [i]).findSome? (f.accessTo id (.value id marker))).or
      (some ⟨pointee, space⟩) = some e := Option.isSome_iff_exists.1 (by simp)
  rw [he] at hmarker ⊢
  exact hextracted.kept _ _ (hkept _ _ hmarker)

/-- A function that runs its last block before the second one: the last block allocates an `i32`,
and the second reads an `i8` there. -/
def readsAheadOfLayout : Except Fault Module := do
  let m := ((Module.empty ⟨.air64, .bitcode, .v7⟩).declare ⟨"f", .exported, [], .i8, none⟩).2
  let d ← Draft.start m.ctx ⟨0⟩
  let (entry, d) ← d.appendBlock
  let (reader, d) ← d.appendBlock
  let (maker, d) ← d.appendBlock
  let (_, d) ← (d.switchTo entry).insert (.jump maker)
  let (v, d) ← (d.switchTo maker).define (.alloca .i32 .generic)
  let (_, d) ← d.insert (.jump reader)
  let (w, d) ← (d.switchTo reader).define (.load v .i8)
  let (_, d) ← d.insert (.ret (some w))
  return d.finish m

theorem built_readsAheadOfLayout (h : readsAheadOfLayout = .ok m) : m.Built := by
  obtain ⟨d₀, hstart, h⟩ := bind_eq_ok_iff.1 h
  obtain ⟨⟨entry, d₁⟩, hentry, h⟩ := bind_eq_ok_iff.1 h
  obtain ⟨⟨reader, d₂⟩, hreader, h⟩ := bind_eq_ok_iff.1 h
  obtain ⟨⟨maker, d₃⟩, hmaker, h⟩ := bind_eq_ok_iff.1 h
  obtain ⟨⟨_, d₄⟩, hjump, h⟩ := bind_eq_ok_iff.1 h
  obtain ⟨⟨v, d₅⟩, halloca, h⟩ := bind_eq_ok_iff.1 h
  obtain ⟨⟨_, d₆⟩, hjump', h⟩ := bind_eq_ok_iff.1 h
  obtain ⟨⟨w, d₇⟩, hload, h⟩ := bind_eq_ok_iff.1 h
  obtain ⟨⟨_, d₈⟩, hret, h⟩ := bind_eq_ok_iff.1 h
  cases pure_eq_ok_iff.1 h
  have hblocks : Building _ (some d₃) :=
    .write (.write (.write (.define (.declare _ (.start _)) hstart) (.appendBlock hentry))
      (.appendBlock hreader)) (.appendBlock hmaker)
  have hmakes : Building _ (some d₆) :=
    .write (.write (.write (.write (.write hblocks (.moveTo _)) (.insert hjump)) (.moveTo _))
      (.define halloca)) (.insert hjump')
  exact .finish (.write (.write (.write hmakes (.moveTo _)) (.define hload)) (.insert hret))

/-- The allocation is laid out behind the read, which gives its type to the marker. -/
theorem exists_run_readsAheadOfLayout : ∃ m m' out f site, m.Built ∧
    (retypeEagerly (.ofStrategy .eager)).exec m = .ok (.ok out, m') ∧ m'.func ⟨0⟩ = .ok f ∧
    f.insts = [⟨0⟩, ⟨5⟩, ⟨3⟩, ⟨4⟩] ++ ⟨1⟩ :: [⟨6⟩, ⟨2⟩] ∧ f.graph.site ⟨1⟩ = .ok site ∧
    Function.resultPointee? site = some .i32 ∧ f.graph.result? ⟨1⟩ = some ⟨0⟩ ∧
    f.graph.soleMarker ⟨1⟩ = .ok (some ⟨3⟩) ∧ f.graph.spaceOf ⟨0⟩ = .ok (some .generic) ∧
    ([⟨0⟩, ⟨5⟩, ⟨3⟩, ⟨4⟩] ++ [⟨1⟩] : List InstId).findSome?
      (f.accessTo ⟨0⟩ (.value ⟨0⟩ ⟨3⟩)) = some ⟨.i8, .generic⟩ ∧
    out.map.get? (.value ⟨0⟩ ⟨3⟩) = some ⟨.i8, .generic⟩ := by
  have hrun : succeeds readsAheadOfLayout (fun m =>
      succeeds ((retypeEagerly (.ofStrategy .eager)).exec m) fun (r, m') =>
        (r.toOption.any fun out => out.map.get? (.value ⟨0⟩ ⟨3⟩) = some ⟨.i8, .generic⟩) &&
        succeeds (m'.func ⟨0⟩) fun f => f.insts = [⟨0⟩, ⟨5⟩, ⟨3⟩, ⟨4⟩] ++ ⟨1⟩ :: [⟨6⟩, ⟨2⟩] &&
          succeeds (f.graph.site ⟨1⟩) (Function.resultPointee? · = some .i32) &&
          f.graph.result? ⟨1⟩ = some ⟨0⟩ && f.graph.soleMarker ⟨1⟩ = .ok (some ⟨3⟩) &&
          f.graph.spaceOf ⟨0⟩ = .ok (some .generic) &&
          ([⟨0⟩, ⟨5⟩, ⟨3⟩, ⟨4⟩] ++ [⟨1⟩] : List InstId).findSome?
            (f.accessTo ⟨0⟩ (.value ⟨0⟩ ⟨3⟩)) = some ⟨.i8, .generic⟩) = true := by
    decide +kernel
  obtain ⟨m, hm, hrun⟩ := exists_of_succeeds hrun
  obtain ⟨⟨r, m'⟩, hexec, hrun⟩ := exists_of_succeeds hrun
  rw [Bool.and_eq_true] at hrun
  obtain ⟨f, hf, hcheck⟩ := exists_of_succeeds hrun.2
  simp only [Bool.and_eq_true, decide_eq_true_eq] at hcheck
  obtain ⟨⟨⟨⟨⟨hinsts, hsite⟩, hresult⟩, hmarker⟩, hspace⟩, haccess⟩ := hcheck
  obtain ⟨site, hsite, hpointee⟩ := exists_of_succeeds hsite
  cases r with
  | error e => cases hrun.1
  | ok out =>
      exact ⟨m, m', out, f, site, built_readsAheadOfLayout hm, hexec, hf, hinsts, hsite,
        of_decide_eq_true hpointee, hresult, hmarker, hspace, haccess, of_decide_eq_true hrun.1⟩

theorem result_markers_keep_first_access_readsAheadOfLayout : ∃ m m' out f, m.Built ∧
    (retypeEagerly (.ofStrategy .eager)).exec m = .ok (.ok out, m') ∧ m'.func ⟨0⟩ = .ok f ∧
    f.graph.result? ⟨1⟩ = some ⟨0⟩ ∧ f.graph.soleMarker ⟨1⟩ = .ok (some ⟨3⟩) ∧
    out.map.get? (.value ⟨0⟩ ⟨0⟩) = some ⟨.i32, .generic⟩ ∧
    out.map.get? (.value ⟨0⟩ ⟨3⟩) = some ⟨.i8, .generic⟩ := by
  obtain ⟨m, m', out, f, site, hm, hexec, hf, hinsts, hsite, hpointee, hresult, hmarker, hspace,
    haccess, -⟩ := exists_run_readsAheadOfLayout
  obtain ⟨marker, space, hmarker', hspace', hv, hget⟩ :=
    result_markers_keep_first_access hm hexec hf hinsts hsite hpointee hresult
  cases hmarker.symm.trans hmarker'
  cases hspace.symm.trans hspace'
  rw [haccess] at hget
  exact ⟨m, m', out, f, hm, hexec, hf, hresult, hmarker, hv, hget⟩

/-- The marker of a result need not have the descriptor of the result: the layout of a function may
have a use first. -/
theorem not_forall_marker_of_result : ¬ ∀ (config : Config) (m m' : Module) (out : Retyped),
    m.Built → (retypeEagerly config).exec m = .ok (.ok out, m') →
    ∀ id f i site pointee v marker space, m'.func id = .ok f → i ∈ f.insts →
      f.graph.site i = .ok site → Function.resultPointee? site = some pointee →
      f.graph.result? i = some v → f.graph.soleMarker i = .ok (some marker) →
      f.graph.spaceOf v = .ok (some space) →
      out.map.get? (.value id marker) = some ⟨pointee, space⟩ := by
  intro hall
  obtain ⟨m, m', out, f, site, hm, hexec, hf, hinsts, hsite, hpointee, hresult, hmarker, hspace, -,
    hget⟩ := exists_run_readsAheadOfLayout
  have hclaimed := hall _ m m' out hm hexec ⟨0⟩ f ⟨1⟩ site .i32 ⟨0⟩ ⟨3⟩ .generic hf
    (by simp [hinsts]) hsite hpointee hresult hmarker hspace
  cases hget.symm.trans hclaimed

end Module

end Pointee
