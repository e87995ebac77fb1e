import Pointee.Proofs.AnnotatedSlots
import Pointee.Proofs.Classification
import Pointee.Proofs.Declarations

/-!
# Descriptors of arguments under the eager strategy

Two descriptors are recorded for an argument of a function: one for the value, which the first
access through it in the body fixes, and one for the slot of the signature, which is filled from the
sample of the annotation, else from the value, else from the fallback. So the two agree where there
is no sample. `arguments_keep_first_access` says this of every run that succeeds, and
`not_forall_sample_of_argument` that a sample and an access may disagree.
-/

namespace Pointee

namespace Module

variable {config : Config} {m m' : Module} {out : Retyped} {id : FuncId} {f : Function}

/-- After a run that succeeds, functions still have the arguments that they are declared with. -/
theorem retypeEagerly_implemented (hm : m.Built)
    (h : (retypeEagerly config).exec m = .ok (.ok out, m')) :
    m'.Implemented ∧ ∀ id f, m'.func id = .ok f → f.Sound := by
  obtain ⟨_, _, _, _, _, _, hdemote, hmark, -, rfl⟩ := retypeEagerly_eq_ok h
  obtain ⟨himplemented, hsound⟩ := hm.marked_implemented hdemote hmark
  exact ⟨himplemented, hsound⟩

/-- No instruction defines an argument. -/
theorem Implemented.outside (hm : m.Implemented) {sig : Signature} {i : Nat} {ty : Ty}
    (hf : m.func id = .ok f) (hsound : f.Sound) (hsig : m.ctx.signature id = .ok sig)
    (hty : sig.args[i]? = some ty) : f.Outside id (.value id ⟨i⟩) := by
  obtain ⟨sig', hsig', himplements⟩ := hm id f hf
  cases hsig.symm.trans hsig'
  have hvalue := himplements.value i ty hty
  intro v heq
  cases heq
  refine ⟨fun j hresult => ?_, fun j ty' hval => ?_⟩
  · obtain ⟨ty', hval⟩ := (hsound.graph.result_iff j _).1 hresult
    cases hvalue.symm.trans hval
  · cases hvalue.symm.trans hval

/-- After a run that succeeds, a pointer argument has the descriptor of the first access through it.
Its slot in the signature has the type of the sample, if there is one, and else the descriptor of
the argument, or the fallback. -/
theorem arguments_keep_first_access (hm : m.Built)
    (h : (retypeEagerly config).exec m = .ok (.ok out, m')) (hf : m'.func id = .ok f)
    {sig : Signature} (hsig : m'.ctx.signature id = .ok sig) {i : Nat} {space : AddrSpace}
    (hty : sig.args[i]? = some (.ptr space)) :
    ∃ v typed, f.args[i]? = some v ∧ out.map.signature? id = some typed ∧
      out.map.get? (.value id v) = m'.firstAccess (.value id v) ∧
      (sig.sample? i = none →
        typed.arg? i = some ((out.map.get? (.value id v)).getD ⟨config.fallback, space⟩)) ∧
      ∀ c, sig.sample? i = some c → ∃ ty, (c.typeOf m'.ctx).run m'.ctx.types =
        .ok (ty, m'.ctx.types) ∧ typed.arg? i = some ⟨ty, space⟩ := by
  obtain ⟨himplemented, hsound⟩ := retypeEagerly_implemented hm h
  have hargs : f.args[i]? = some ⟨i⟩ := by
    obtain ⟨sig', hsig', himplements⟩ := himplemented id f hf
    cases hsig.symm.trans hsig'
    exact himplements.exists_arg hty
  have houtside := himplemented.outside hf (hsound id f hf) hsig hty
  obtain ⟨_, _, _, wrapped, checked, types, -, -, hextract, rfl⟩ := retypeEagerly_eq_ok h
  obtain ⟨bodies, u, hbodies, -, hextracted⟩ := extract_classified hextract
  obtain ⟨sig', typed, hdeclared, ⟨source, hsource, htyped⟩, hsignature, -⟩ :=
    hextracted.functions id f hf
  cases hsig.symm.trans hdeclared
  -- Other functions say nothing about the values of this one.
  have hfirst : bodies.get? (.value id ⟨i⟩) = wrapped.firstAccess (.value id ⟨i⟩) := by
    refine (get?_extractBodies (fun id' f' hmem _ => ?_) hbodies).trans ?_
    · by_cases hid : id = id'
      · subst hid
        cases hf.symm.trans (mem_funcList.1 hmem)
        exact houtside
      · intro v heq
        cases heq
        exact absurd rfl hid
    · rw [get?_seedGlobals (fun _ _ heq => by cases heq), PtrMap.get?_empty, Option.none_or]
      rfl
  have hread : source.arg i = .ok (bodies.get? (.value id ⟨i⟩)) := by
    rw [hsource]
    show ((wrapped.setTypes checked).func id >>= fun func =>
      .ok (func.args[i]?.bind fun v => bodies.get? (.value id v))) = _
    rw [show (wrapped.setTypes checked).func id = .ok f from hf]
    show Except.ok (f.args[i]?.bind _) = _
    rw [hargs]
    rfl
  have hslot := Signature.typed_arg htyped (TypeStore.le_refl types) hty
  rw [hread] at hslot
  refine ⟨⟨i⟩, typed, hargs, hsignature, (hextracted.value id ⟨i⟩).trans hfirst,
    fun hsample => ?_, fun c hsample => ?_⟩
  · rw [show sig.annotation.bind (·.arg? i) = none from hsample] at hslot
    have hslot : some ((bodies.get? (.value id ⟨i⟩)).getD ⟨config.fallback, space⟩) =
        typed.arg? i := by
      cases hd : bodies.get? (.value id ⟨i⟩) with
      | none =>
          rw [hd] at hslot
          exact congrArg Prod.fst (Except.ok.inj hslot)
      | some d =>
          rw [hd] at hslot
          exact congrArg Prod.fst (Except.ok.inj hslot)
    rw [hextracted.value, hslot]
  · obtain ⟨ty, hrun, harg⟩ := Signature.typed_sample htyped (TypeStore.le_refl types) hty hsample
    refine ⟨ty, Eq.trans ?_ hrun, harg⟩
    exact congrArg (StateT.run · _) (Constant.typeOf_congr rfl c)

/-- A function that reads bytes through both of its arguments, although its annotation says that the
first one points to an integer of 32 bits. -/
def readsBytes : Except Fault Module :=
  ofItems ⟨.air64, .bitcode, .v7⟩ [] [⟨"f", .exported, [.genericPtr, .genericPtr], .i8,
    some ⟨none, [(0, .zero .i32)]⟩⟩]
    [.inst (.load ⟨0⟩ .i8), .inst (.load ⟨1⟩ .i8), .inst (.ret (some ⟨2⟩))]

theorem arguments_keep_first_access_readsBytes : ∃ m m' out typed, m.Built ∧
    (retypeEagerly (.ofStrategy .eager)).exec m = .ok (.ok out, m') ∧
    out.map.signature? ⟨0⟩ = some typed ∧
    out.map.get? (.value ⟨0⟩ ⟨0⟩) = some ⟨.i8, .generic⟩ ∧ typed.arg? 0 = some ⟨.i32, .generic⟩ ∧
    out.map.get? (.value ⟨0⟩ ⟨1⟩) = some ⟨.i8, .generic⟩ ∧
    typed.arg? 1 = some ⟨.i8, .generic⟩ := by
  have hrun : succeeds readsBytes (fun m =>
      succeeds ((retypeEagerly (.ofStrategy .eager)).exec m) fun run => run.1.isOk &&
        succeeds (run.2.func ⟨0⟩) fun f => succeeds (run.2.ctx.signature ⟨0⟩) fun sig =>
          f.args = [⟨0⟩, ⟨1⟩] && sig.args[0]? = some .genericPtr &&
          sig.args[1]? = some .genericPtr && (sig.sample? 1).isNone &&
          (sig.sample? 0).any (fun c => succeeds ((c.typeOf run.2.ctx).run run.2.ctx.types)
            (·.1 = .i32)) &&
          run.2.firstAccess (.value ⟨0⟩ ⟨0⟩) = some ⟨.i8, .generic⟩ &&
          run.2.firstAccess (.value ⟨0⟩ ⟨1⟩) = some ⟨.i8, .generic⟩) = true := by
    decide +kernel
  obtain ⟨m, hm, hrun⟩ := exists_of_succeeds hrun
  obtain ⟨⟨r, m'⟩, hexec, hrun⟩ := exists_of_succeeds hrun
  obtain ⟨hr, hrun⟩ := Bool.and_eq_true_iff.1 hrun
  obtain ⟨f, hf, hrun⟩ := exists_of_succeeds hrun
  obtain ⟨sig, hsig, hrun⟩ := exists_of_succeeds hrun
  simp only [Bool.and_eq_true, decide_eq_true_eq] at hrun
  obtain ⟨⟨⟨⟨⟨⟨hargs, hty⟩, hty'⟩, hnone⟩, hsome⟩, hfirst⟩, hfirst'⟩ := hrun
  obtain ⟨c, hc, htypeOf⟩ := (Option.any_eq_true _ _).1 hsome
  obtain ⟨_, htypeOf, hword⟩ := exists_of_succeeds htypeOf
  have hbuilt := built_of_ofItems hm
  cases r with
  | error e => cases hr
  | ok out =>
      obtain ⟨v, typed, hv, htyped, hget, -, hsample⟩ :=
        arguments_keep_first_access hbuilt hexec hf hsig hty
      obtain ⟨w, typed', hw, htyped', hget', hmissing, -⟩ :=
        arguments_keep_first_access hbuilt hexec hf hsig hty'
      cases htyped.symm.trans htyped'
      rw [hargs] at hv hw
      cases hv
      cases hw
      rw [hfirst] at hget
      rw [hfirst'] at hget'
      have hslot' := hmissing (Option.isNone_iff_eq_none.1 hnone)
      rw [hget'] at hslot'
      obtain ⟨ty, hrun, hslot⟩ := hsample c hc
      cases htypeOf.symm.trans hrun
      cases of_decide_eq_true hword
      exact ⟨m, m', out, typed, hbuilt, hexec, htyped, hget, hslot, hget', hslot'⟩

/-- An argument need not have the descriptor of its slot: the body may disagree with the
annotation. -/
theorem not_forall_sample_of_argument : ¬ ∀ (config : Config) (m m' : Module) (out : Retyped),
    m.Built → (retypeEagerly config).exec m = .ok (.ok out, m') →
    ∀ id f sig i space v d, m'.func id = .ok f → m'.ctx.signature id = .ok sig →
      sig.args[i]? = some (.ptr space) → f.args[i]? = some v →
      out.map.get? (.value id v) = some d →
      ∃ typed, out.map.signature? id = some typed ∧ typed.arg? i = some d := by
  intro hall
  have hrun : succeeds readsBytes (fun m =>
      succeeds ((retypeEagerly (.ofStrategy .eager)).exec m) fun (r, m') =>
        succeeds (m'.func ⟨0⟩) fun f => succeeds (m'.ctx.signature ⟨0⟩) fun sig =>
          match r with
          | .error _ => false
          | .ok out => sig.args[0]? = some .genericPtr && f.args[0]? = some ⟨0⟩ &&
              out.map.get? (.value ⟨0⟩ ⟨0⟩) = some ⟨.i8, .generic⟩ &&
              (out.map.signature? ⟨0⟩).all (·.arg? 0 ≠ some ⟨.i8, .generic⟩)) = true := by
    decide +kernel
  obtain ⟨m, hm, hrun⟩ := exists_of_succeeds hrun
  obtain ⟨⟨r, m'⟩, hexec, hrun⟩ := exists_of_succeeds hrun
  obtain ⟨f, hf, hrun⟩ := exists_of_succeeds hrun
  obtain ⟨sig, hsig, hrun⟩ := exists_of_succeeds hrun
  cases r with
  | error e => cases hrun
  | ok out =>
      simp only [Bool.and_eq_true, decide_eq_true_eq] at hrun
      obtain ⟨⟨⟨hty, hv⟩, hget⟩, hne⟩ := hrun
      obtain ⟨typed, htyped, harg⟩ := hall _ m m' out (built_of_ofItems hm) hexec ⟨0⟩ f sig 0
        .generic ⟨0⟩ _ hf hsig hty hv hget
      rw [htyped] at hne
      exact of_decide_eq_true hne harg

end Module

end Pointee
