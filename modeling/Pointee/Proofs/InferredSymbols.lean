import Pointee.Proofs.InferredBodies

/-!
# Symbols and signatures under inference

Inference records globals first, then values of bodies, then functions and the constructor table.
No body records a symbol, and annotated arguments are recorded before anything else in their
function, so each of these entries is the first for its pointer. `inferred_symbols_complete` says
what every symbol and every slot of a signature ends up with.
-/

namespace Pointee

open TypeStore

namespace Module

variable {m : Module} {config : Config} {id : FuncId} {f : Function} {map bodies : PtrMap}
  {s t types : TypeStore}

/-- The phases of inference. -/
theorem infer_phases (h : (m.infer config).exec s = .ok (.ok map, types)) :
    ∃ bodies u mid v, (m.inferBodies (m.seedGlobals config .empty)).run s = .ok (bodies, u) ∧
      (m.classifyFunctions config bodies).exec u = .ok (.ok mid, v) ∧
      (m.classifyTable config mid).exec v = .ok (.ok map, types) := by
  obtain ⟨_, _, hbodies, h⟩ := Pass.exec_bind_eq_ok.1 h
  obtain ⟨mid, v, hfunctions, htable⟩ := Pass.exec_bind_eq_ok.1 h
  rw [Pass.exec_liftState] at hbodies
  obtain ⟨⟨bodies, u⟩, hrun, hrest⟩ := bind_eq_ok_iff.1 hbodies
  cases hrest
  exact ⟨bodies, u, mid, v, hrun, hfunctions, htable⟩

/-- What inference records: what the bodies say of values, and then the symbols. -/
theorem infer_eq_ok (h : (m.infer config).exec s = .ok (.ok map, types)) :
    ∃ bodies u, (m.inferBodies (m.seedGlobals config .empty)).run s = .ok (bodies, u) ∧
      u ≤ types ∧ m.SymbolsTyped config types bodies map := by
  obtain ⟨bodies, u, mid, v, hrun, hfunctions, htable⟩ := infer_phases h
  exact ⟨bodies, u, hrun, classify_symbolsTyped hfunctions htable⟩

/-- The bodies record no symbol. -/
theorem get?_inferBodies_symbol {key : PtrKey} (hkey : ∀ id v, key ≠ .value id v)
    (h : (m.inferBodies map).run s = .ok (bodies, t)) : bodies.get? key = map.get? key :=
  (inferBodies_addsValues h).2.frame key fun id _ v => hkey id v

/-- Each function has its turn, and only then are its values recorded. -/
theorem inferBodies_split (hf : m.func id = .ok f)
    (h : (m.inferBodies map).run s = .ok (bodies, t)) :
    ∃ start u mid v, ((m.funcList.take id.index).foldlM m.inferBody map).run s = .ok (start, u) ∧
      (m.inferBody start (id, f)).run u = .ok (mid, v) ∧ v ≤ t ∧
      (∀ key d, mid.get? key = some d → bodies.get? key = some d) ∧
      ∀ w, bodies.get? (.value id w) = mid.get? (.value id w) := by
  have hsplit : m.funcList =
      m.funcList.take id.index ++ (id, f) :: m.funcList.drop (id.index + 1) := by
    obtain ⟨hlt, heq⟩ := List.getElem?_eq_some_iff.1 (getElem?_funcList.2 ⟨rfl, hf⟩)
    rw [← heq, List.getElem_cons_drop, List.take_append_drop]
  have hlater : id ∉ (m.funcList.drop (id.index + 1)).map (·.1) := by
    have hnodup := m.nodup_funcIds
    rw [← map_fst_funcList, hsplit, List.map_append, List.map_cons] at hnodup
    exact (List.nodup_cons.1 (List.nodup_append.1 hnodup).2.1).1
  unfold inferBodies at h
  rw [hsplit, List.foldlM_append] at h
  obtain ⟨start, u, hbefore, h⟩ := run_bind_eq_ok.1 h
  rw [List.foldlM_cons] at h
  obtain ⟨mid, v, hturn, hafter⟩ := run_bind_eq_ok.1 h
  obtain ⟨hle, hadds⟩ := inferBodies_addsValues hafter
  refine ⟨start, u, mid, v, hbefore, hturn, hle, hadds.kept, fun w => hadds.frame _ ?_⟩
  intro id' hid' w' heq
  cases heq
  exact hlater hid'

theorem inferBody_eq_ok (hbody : f.isDeclaration = false)
    (h : (m.inferBody map (id, f)).run s = .ok (bodies, t)) :
    (f.infer id m.ctx map).run s = .ok (bodies, t) := by
  rw [inferBody, if_neg (by simp [hbody])] at h
  exact h

/-- A body has its turn, and what it records stays. -/
theorem inferBodies_turn (hf : m.func id = .ok f) (hbody : f.isDeclaration = false)
    (h : (m.inferBodies (m.seedGlobals config .empty)).run s = .ok (bodies, t)) :
    ∃ start u seeded v, ((m.funcList.take id.index).foldlM m.inferBody
        (m.seedGlobals config .empty)).run s = .ok (start, u) ∧
      (f.seedAnnotated id m.ctx start).run u = .ok (seeded, v) ∧ v ≤ t ∧
      ∀ key d, seeded.get? key = some d → bodies.get? key = some d := by
  obtain ⟨start, u, mid, v, hbefore, hturn, hle, hkept, -⟩ := inferBodies_split hf h
  obtain ⟨seeded, flowed, hseeded, hforward, hbackward⟩ :=
    Function.infer_eq_ok (inferBody_eq_ok hbody hturn)
  have hrecords : f.Records id (f.FirstSite f.insts) flowed mid :=
    Function.backward_records hbackward
  refine ⟨start, u, seeded, v, hbefore, hseeded, hle, fun key d hd => ?_⟩
  exact hkept key d
    (hrecords.kept key d ((Function.forward_addsValues hforward).kept key d hd))

/-- An argument that is a pointer and has a sample is recorded with the type of the sample, whatever
its body does. -/
theorem get?_annotated (hm : m.Built) (hf : m.func id = .ok f) (hbody : f.isDeclaration = false)
    (h : (m.inferBodies (m.seedGlobals config .empty)).run s = .ok (bodies, t)) (hle : t ≤ types)
    {v : ValueId} {ty : Ty} {space : AddrSpace} (hannotated : f.AnnotatedAs id m.ctx types v ty)
    (hspace : f.graph.spaceOf v = .ok (some space)) :
    bodies.get? (.value id v) = some ⟨ty, space⟩ := by
  obtain ⟨start, u, seeded, u', hbefore, hseeded, hle', hkept⟩ := inferBodies_turn hf hbody h
  obtain ⟨hvalue, -⟩ := get?_of_bodies_before hbefore
  obtain ⟨sig, -, himplements⟩ := hm.implemented id f hf
  have hrecords := f.seedAnnotated_records himplements.nodup_args hseeded (le_trans hle' hle)
  exact hkept _ _ ((hrecords.new _ ⟨ty, space⟩ (hvalue v)).2 ⟨v, rfl, hannotated, hspace⟩)

section Symbols

variable (h : (m.infer config).exec s = .ok (.ok map, types))

include h

theorem get?_inferred_global {g : GlobalId} {global : Global}
    (hglobal : m.ctx.global g = .ok global) (hsymbol : global.symbol ≠ config.ctorTable) :
    map.get? (.global g) = some ⟨global.ty, global.space⟩ := by
  obtain ⟨bodies, u, hbodies, -, hsymbols⟩ := infer_eq_ok h
  apply hsymbols.kept
  rw [get?_inferBodies_symbol (fun _ _ heq => by cases heq) hbodies,
    get?_seedGlobals_global hglobal hsymbol]
  rfl

/-- The constructor table has no entry before the last phase, which gives it one if it has an
initialiser. -/
theorem get?_inferred_table (hm : m.Built) {g : GlobalId} {global : Global}
    (hglobal : m.ctx.global g = .ok global) (hsymbol : global.symbol = config.ctorTable) :
    (global.init = none → map.get? (.global g) = none) ∧
    (global.init ≠ none → ∃ ty, map.content? g = some ty ∧
      map.get? (.global g) = some ⟨ty, global.space⟩) := by
  obtain ⟨bodies, u, hbodies, -, hsymbols⟩ := infer_eq_ok h
  have hid : m.ctx.globalNamed? config.ctorTable = some g :=
    hsymbol ▸ Context.globalNamed?_of_symbol (Building.nodup_symbols hm) hglobal
  have hunknown : bodies.get? (.global g) = none := by
    rw [get?_inferBodies_symbol (fun _ _ heq => by cases heq) hbodies, get?_seedGlobals]
    · rfl
    · intro g' global' heq hglobal'
      cases heq
      cases hglobal.symm.trans hglobal'
      exact hsymbol
  cases hsymbols.table with
  | absent hinit _ hsame =>
      refine ⟨fun _ => ?_, fun hsome => absurd (hinit g global hid hglobal) hsome⟩
      rw [hsame, hunknown]
  | @present id table ty hid' htable hinit hcontents haddress _ =>
      cases hid.symm.trans hid'
      cases hglobal.symm.trans htable
      refine ⟨fun hnone => absurd hnone hinit, fun _ => ⟨ty, ?_, ?_⟩⟩
      · rw [PtrMap.content?, hcontents, List.lookup_cons_self]
      · rw [haddress, hunknown, Option.none_or]

/-- The signature of a function with what classification says about it. Its address is not known
before. -/
theorem infer_classified (hf : m.func id = .ok f) : ∃ bodies u sig typed,
    (m.inferBodies (m.seedGlobals config .empty)).run s = .ok (bodies, u) ∧ u ≤ types ∧
      m.SymbolsTyped config types bodies map ∧ m.Classified config types bodies map id sig typed ∧
      map.get? (.func id) = some (typed.funcDescriptor sig types).1 := by
  obtain ⟨bodies, u, hbodies, hle, hsymbols⟩ := infer_eq_ok h
  obtain ⟨sig, typed, hclassified⟩ := hsymbols.functions id f hf
  refine ⟨bodies, u, sig, typed, hbodies, hle, hsymbols, hclassified, ?_⟩
  have hunknown : bodies.get? (.func id) = none := by
    rw [get?_inferBodies_symbol (fun _ _ heq => by cases heq) hbodies,
      get?_seedGlobals fun _ _ heq => by cases heq]
    rfl
  rw [hclassified.address, hunknown, Option.none_or]

end Symbols

/-- With a fallback, the slots of a classified signature are those of the arguments that are
pointers. -/
theorem Classified.filled {sig : Signature} {typed : TypedSignature}
    (h : m.Classified config types bodies map id sig typed) :
    typed.args.length = sig.args.length ∧
      ∀ i ty, sig.args[i]? = some ty → (typed.arg? i).isSome = ty.isPointer := by
  obtain ⟨source, -, htyped⟩ := h.slots
  refine ⟨Signature.length_of_typed htyped, fun i ty hty => ?_⟩
  exact Signature.isSome_of_typeSlot (Signature.typed_arg htyped (TypeStore.le_refl types) hty)

/-- The value of a pointer argument and its slot agree: if there is a sample both have its type, and
otherwise the slot was read off the map. -/
theorem Classified.arg_eq_getD (hm : m.Built) (hf : m.func id = .ok f)
    (hbody : f.isDeclaration = false)
    (hbodies : (m.inferBodies (m.seedGlobals config .empty)).run s = .ok (bodies, t))
    (hle : t ≤ types) (hsymbols : m.SymbolsTyped config types bodies map) {sig : Signature}
    {typed : TypedSignature} (h : m.Classified config types bodies map id sig typed) {i : Nat}
    {space : AddrSpace} (hty : sig.args[i]? = some (.ptr space)) :
    ∃ v, f.args[i]? = some v ∧
      typed.arg? i = some (map.getD (.value id v) space config.fallback) := by
  obtain ⟨sig', hsig', himplements⟩ := hm.implemented id f hf
  cases hsig'.symm.trans h.declared
  have hv : f.args[i]? = some ⟨i⟩ := himplements.exists_arg hty
  obtain ⟨hplain, hsample⟩ := h.arg hf hv hty
  refine ⟨⟨i⟩, hv, ?_⟩
  rw [PtrMap.getD, hsymbols.value]
  cases hc : sig.sample? i with
  | none => exact hplain hc
  | some c =>
      obtain ⟨ty, hrun, hslot⟩ := hsample c hc
      have hspace : f.graph.spaceOf ⟨i⟩ = .ok (some space) := by
        rw [Graph.spaceOf, Graph.typeOf, himplements.value i _ hty]
        rfl
      rw [hslot, get?_annotated hm hf hbody hbodies hle
        ⟨sig, i, c, h.declared, hc, hv, hrun⟩ hspace, Option.getD_some]

/-- Where inference succeeds on a built module, every symbol and every signature is complete: a
global has its declared type, the constructor table the type of its content if it has an
initialiser, and a function a signature with a slot for each pointer argument, whose descriptor is
that of the function. The slot of an argument is what the map says of the argument's value, and a
sample decides it whatever the body does. -/
theorem inferred_symbols_complete (hm : m.Built)
    (h : (m.infer config).exec s = .ok (.ok map, types)) :
    (∀ g global, m.ctx.global g = .ok global →
      (global.symbol ≠ config.ctorTable →
        map.get? (.global g) = some ⟨global.ty, global.space⟩) ∧
      (global.symbol = config.ctorTable →
        (global.init = none → map.get? (.global g) = none) ∧
        (global.init ≠ none → ∃ ty, map.content? g = some ty ∧
          map.get? (.global g) = some ⟨ty, global.space⟩))) ∧
    ∀ id f, m.func id = .ok f → ∃ sig typed, m.ctx.signature id = .ok sig ∧
      map.signature? id = some typed ∧ typed.args.length = sig.args.length ∧
      (∀ i ty, sig.args[i]? = some ty → (typed.arg? i).isSome = ty.isPointer) ∧
      map.get? (.func id) = some (typed.funcDescriptor sig types).1 ∧
      (f.isDeclaration = false → ∀ i space, sig.args[i]? = some (.ptr space) →
        (∃ v, f.args[i]? = some v ∧
          typed.arg? i = some (map.getD (.value id v) space config.fallback)) ∧
        ∀ c, sig.sample? i = some c → ∃ ty, (c.typeOf m.ctx).run types = .ok (ty, types) ∧
          typed.arg? i = some ⟨ty, space⟩) := by
  refine ⟨fun g global hglobal => ⟨fun hsymbol => get?_inferred_global h hglobal hsymbol,
    fun hsymbol => get?_inferred_table h hm hglobal hsymbol⟩, fun id f hf => ?_⟩
  obtain ⟨bodies, u, sig, typed, hbodies, hle, hsymbols, hclassified, haddress⟩ :=
    infer_classified h hf
  obtain ⟨hlength, hfilled⟩ := hclassified.filled
  refine ⟨sig, typed, hclassified.declared, hclassified.signature, hlength, hfilled, haddress, ?_⟩
  intro hbody i space hty
  obtain ⟨v, hv, hslot⟩ := hclassified.arg_eq_getD hm hf hbody hbodies hle hsymbols hty
  exact ⟨⟨v, hv, hslot⟩, (hclassified.arg hf hv hty).2⟩

/-- The table registers a function that reads bytes through both of its arguments. The annotation of
the function has two samples for the first argument, and none for the second. -/
def registersReader : Except Fault Module :=
  ofItems ⟨.air64, .bitcode, .v7⟩ [⟨"data", .i64, ⟨1⟩, .exported, false, none⟩,
      .constant "llvm.global_ctors" .genericPtr .exported (.func ⟨0⟩)]
    [⟨"f", .exported, [.genericPtr, .genericPtr], .i8,
      some ⟨none, [(0, .zero .i32), (0, .zero .i64)]⟩⟩]
    [.inst (.load ⟨0⟩ .i8), .inst (.load ⟨1⟩ .i8), .inst (.ret (some ⟨2⟩))]

theorem inferred_symbols_complete_registersReader : ∃ m map types sig typed ty,
    registersReader = .ok m ∧
    (m.infer (.ofStrategy .analytical)).exec m.ctx.types = .ok (.ok map, types) ∧
    map.get? (.global ⟨0⟩) = some ⟨.i64, ⟨1⟩⟩ ∧ map.content? ⟨1⟩ = some ty ∧
    map.get? (.global ⟨1⟩) = some ⟨ty, .generic⟩ ∧ m.ctx.signature ⟨0⟩ = .ok sig ∧
    map.signature? ⟨0⟩ = some typed ∧ typed.args.length = 2 ∧
    map.get? (.func ⟨0⟩) = some (typed.funcDescriptor sig types).1 ∧
    typed.arg? 0 = some ⟨.i32, .generic⟩ ∧ typed.arg? 1 = some ⟨.i8, .generic⟩ := by
  have hrun : succeeds registersReader (fun m =>
      succeeds ((m.infer (.ofStrategy .analytical)).exec m.ctx.types) fun run =>
        succeeds (m.func ⟨0⟩) fun f => succeeds (m.ctx.signature ⟨0⟩) fun sig =>
        succeeds (m.ctx.global ⟨0⟩) fun data => succeeds (m.ctx.global ⟨1⟩) fun table =>
          match run.1 with
          | .error _ => false
          | .ok map => !f.isDeclaration && f.args = [⟨0⟩, ⟨1⟩] &&
              sig.args = [.genericPtr, .genericPtr] &&
              (sig.sample? 0).any (fun c => succeeds ((c.typeOf m.ctx).run run.2) (·.1 = .i32)) &&
              map.get? (.value ⟨0⟩ ⟨1⟩) = some ⟨.i8, .generic⟩ &&
              data.symbol ≠ "llvm.global_ctors" && data.ty = .i64 && data.space = ⟨1⟩ &&
              table.symbol = "llvm.global_ctors" && table.init.isSome &&
              table.space = .generic) = true := by
    decide +kernel
  obtain ⟨m, hm, hrun⟩ := exists_of_succeeds hrun
  obtain ⟨⟨r, types⟩, hexec, hrun⟩ := exists_of_succeeds hrun
  obtain ⟨f, hf, hrun⟩ := exists_of_succeeds hrun
  obtain ⟨sig, hsig, hrun⟩ := exists_of_succeeds hrun
  obtain ⟨data, hdata, hrun⟩ := exists_of_succeeds hrun
  obtain ⟨table, htable, hrun⟩ := exists_of_succeeds hrun
  cases r with
  | error e => cases hrun
  | ok map =>
      simp only [Bool.and_eq_true, decide_eq_true_eq, Bool.not_eq_true'] at hrun
      obtain ⟨⟨⟨⟨⟨⟨⟨⟨⟨⟨hbody, hargs⟩, htys⟩, hsome⟩, hvalue⟩, hplain⟩, hty⟩, hspace⟩, htabled⟩,
        hinit⟩, hgeneric⟩ := hrun
      obtain ⟨hglobals, hfuncs⟩ := inferred_symbols_complete (built_of_ofItems hm) hexec
      have hget := (hglobals ⟨0⟩ data hdata).1 hplain
      obtain ⟨ty, hcontent, hget'⟩ := ((hglobals ⟨1⟩ table htable).2 htabled).2
        (Option.isSome_iff_ne_none.1 hinit)
      rw [hty, hspace] at hget
      rw [hgeneric] at hget'
      obtain ⟨sig', typed, hsig', htyped, hlength, -, haddress, harguments⟩ := hfuncs ⟨0⟩ f hf
      cases hsig.symm.trans hsig'
      rw [htys] at hlength
      obtain ⟨-, hsample⟩ := harguments hbody 0 .generic (by rw [htys]; rfl)
      obtain ⟨⟨v, hv, hslot'⟩, -⟩ := harguments hbody 1 .generic (by rw [htys]; rfl)
      obtain ⟨c, hc, htypeOf⟩ := (Option.any_eq_true _ _).1 hsome
      obtain ⟨_, htypeOf, hword⟩ := exists_of_succeeds htypeOf
      obtain ⟨word, hrun, hslot⟩ := hsample c hc
      cases htypeOf.symm.trans hrun
      cases of_decide_eq_true hword
      rw [hargs] at hv
      cases hv
      rw [PtrMap.getD, hvalue] at hslot'
      exact ⟨m, map, types, sig, typed, ty, hm, hexec, hget, hcontent, hget', hsig, htyped,
        hlength, haddress, hslot, hslot'⟩

end Module

end Pointee
