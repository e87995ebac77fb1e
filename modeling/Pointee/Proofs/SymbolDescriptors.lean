import Pointee.Proofs.Classification

/-!
# Descriptors of symbols under the eager strategy

The address of a function points to its function type, and the address of the constructor table to
its retyped content, unless a body accesses memory through the address itself: then the first such
access counts, in the order of the functions and their layouts. `symbols_keep_first_access` says so
of every run that succeeds, and `not_forall_address_of_signature` that the access may disagree with
the signature.
-/

namespace Pointee.Module

variable {config : Config} {m m' : Module} {out : Retyped}

/-- What the bodies record for a symbol that is unknown at the start is what the first access
through its address says. -/
theorem get?_extractBodies_symbol {s t : TypeStore} {bodies : PtrMap} {key : PtrKey}
    (hsymbol : ∀ id v, key ≠ .value id v)
    (hkey : ∀ id g, key = .global id → m.ctx.global id = .ok g → g.symbol = config.ctorTable)
    (h : (m.funcList.foldlM m.extractBody (m.seedGlobals config .empty)).exec s =
      .ok (.ok bodies, t)) : bodies.get? key = m.firstAccess key := by
  rw [get?_extractBodies (fun id f _ _ v heq => absurd heq (hsymbol id v)) h,
    get?_seedGlobals hkey, PtrMap.get?_empty, Option.none_or]
  rfl

/-- After a run that succeeds, the address of a function has the descriptor of its typed signature,
and that of a retyped global its content, unless an access through the address says otherwise. -/
theorem symbols_keep_first_access (h : (retypeEagerly config).exec m = .ok (.ok out, m')) :
    (∀ id f, m'.func id = .ok f → ∃ sig typed, m'.ctx.signature id = .ok sig ∧
      out.map.signature? id = some typed ∧
      out.map.get? (.func id) = (m'.firstAccess (.func id)).or
        (some (typed.funcDescriptor sig m'.ctx.types).1)) ∧
    ∀ g ty, out.map.content? g = some ty → ∃ global, m'.ctx.global g = .ok global ∧
      out.map.get? (.global g) = (m'.firstAccess (.global g)).or (some ⟨ty, global.space⟩) := by
  obtain ⟨_, _, _, wrapped, checked, types, -, -, hextract, rfl⟩ := retypeEagerly_eq_ok h
  obtain ⟨bodies, u, hbodies, -, hextracted⟩ := extract_classified hextract
  refine ⟨fun id f hf => ?_, fun g ty hty => ?_⟩
  · obtain ⟨sig, typed, hclassified⟩ := hextracted.functions id f hf
    refine ⟨sig, typed, hclassified.declared, hclassified.signature, ?_⟩
    rw [hclassified.address, get?_extractBodies_symbol (by simp) (by simp) hbodies]
    rfl
  · obtain ⟨global, hglobal, hsymbol, hget⟩ := hextracted.content g ty hty
    refine ⟨global, hglobal, ?_⟩
    rw [hget, get?_extractBodies_symbol (by simp) ?_ hbodies]
    · rfl
    · intro id g' heq hg'
      cases heq
      cases hglobal.symm.trans hg'
      exact hsymbol

/-- A function that reads its own code, beside one that is declared only. -/
def readsOwnCode : Except Fault Module :=
  ofItems ⟨.air64, .bitcode, .v7⟩ [] [⟨"f", .exported, [], .i32, none⟩,
    ⟨"g", .imported, [], .i32, none⟩]
    [.funcAddr ⟨0⟩, .inst (.load ⟨0⟩ .i32), .inst (.ret (some ⟨1⟩))]

theorem symbols_keep_first_access_readsOwnCode : ∃ m m' out sig typed,
    (retypeEagerly (.ofStrategy .eager)).exec m = .ok (.ok out, m') ∧
    m'.firstAccess (.func ⟨0⟩) = some ⟨.i32, .generic⟩ ∧ m'.firstAccess (.func ⟨1⟩) = none ∧
    out.map.get? (.func ⟨0⟩) = some ⟨.i32, .generic⟩ ∧ m'.ctx.signature ⟨1⟩ = .ok sig ∧
    out.map.signature? ⟨1⟩ = some typed ∧
    out.map.get? (.func ⟨1⟩) = some (typed.funcDescriptor sig m'.ctx.types).1 := by
  have hrun : succeeds readsOwnCode (fun m =>
      succeeds ((retypeEagerly (.ofStrategy .eager)).exec m) fun (r, m') => r.isOk &&
        m'.firstAccess (.func ⟨0⟩) = some ⟨.i32, .generic⟩ &&
        m'.firstAccess (.func ⟨1⟩) = none && m'.funcs.size = 2) = true := by
    decide +kernel
  obtain ⟨m, -, hrun⟩ := exists_of_succeeds hrun
  obtain ⟨⟨r, m'⟩, hexec, hrun⟩ := exists_of_succeeds hrun
  simp only [Bool.and_eq_true, decide_eq_true_eq] at hrun
  obtain ⟨⟨⟨hr, hfirst⟩, hnone⟩, hsize⟩ := hrun
  cases r with
  | error e => cases hr
  | ok out =>
      have hfunc : ∀ n, n < 2 → ∃ f, m'.func ⟨n⟩ = .ok f := fun n hn =>
        ⟨m'.funcs[n], func_eq_ok.2 (Array.getElem?_eq_getElem _)⟩
      have hsymbols := (symbols_keep_first_access hexec).1
      obtain ⟨f, hf⟩ := hfunc 0 (by decide)
      obtain ⟨g, hg⟩ := hfunc 1 (by decide)
      obtain ⟨_, _, -, -, hget⟩ := hsymbols ⟨0⟩ f hf
      obtain ⟨sig, typed, hsig, htyped, hget'⟩ := hsymbols ⟨1⟩ g hg
      rw [hfirst] at hget
      rw [hnone] at hget'
      exact ⟨m, m', out, sig, typed, hexec, hfirst, hnone, hget, hsig, htyped, hget'⟩

/-- The address of a function need not point to its function type: a function may read its own
code. -/
theorem not_forall_address_of_signature : ¬ ∀ (config : Config) (m m' : Module) (out : Retyped),
    m.Built → (retypeEagerly config).exec m = .ok (.ok out, m') →
    ∀ id sig typed, m'.ctx.signature id = .ok sig → out.map.signature? id = some typed →
      out.map.get? (.func id) = some (typed.funcDescriptor sig m'.ctx.types).1 := by
  intro hall
  have hrun : succeeds readsOwnCode (fun m =>
      succeeds ((retypeEagerly (.ofStrategy .eager)).exec m) fun (r, m') =>
        succeeds (m'.ctx.signature ⟨0⟩) fun sig =>
          match r with
          | .error _ => false
          | .ok out => (out.map.signature? ⟨0⟩).any fun typed =>
              out.map.get? (.func ⟨0⟩) ≠ some (typed.funcDescriptor sig m'.ctx.types).1) =
      true := by
    decide +kernel
  obtain ⟨m, hm, hrun⟩ := exists_of_succeeds hrun
  obtain ⟨⟨r, m'⟩, hexec, hrun⟩ := exists_of_succeeds hrun
  obtain ⟨sig, hsig, hrun⟩ := exists_of_succeeds hrun
  cases r with
  | error e => cases hrun
  | ok out =>
      obtain ⟨typed, htyped, hne⟩ := (Option.any_eq_true _ _).1 hrun
      have haddress := hall _ m m' out (built_of_ofItems hm) hexec ⟨0⟩ sig typed hsig htyped
      exact of_decide_eq_true hne haddress

end Pointee.Module
