import Pointee.Retyping
import Pointee.Proofs.Building
import Pointee.Proofs.ExtractionRecords

/-!
# Classifying symbols

Before the bodies are read, every global but the constructor table has its declared descriptor.
After them the functions are typed, one after another, and then the constructor table.
`Module.Classified` says how a function was typed and what was recorded for its address, and
`Module.SymbolsTyped` what both steps leave behind: descriptors of values come from the bodies
alone, and a symbol that the bodies have recorded keeps what they say. `Module.extract_classified`
is about the phases of extraction.
-/

namespace Pointee

open PtrMap TypeStore

namespace Context

variable {ctx : Context} {id : GlobalId} {g : Global}

theorem mem_globalList : (id, g) ∈ ctx.globalList ↔ ctx.global id = .ok g := by
  rw [global_eq_ok, globalList, List.mem_map]
  constructor
  · rintro ⟨⟨g', n⟩, hmem, heq⟩
    cases heq
    simpa using List.mem_zipIdx_iff_getElem?.1 hmem
  · intro hglobal
    exact ⟨(g, id.index), List.mem_zipIdx_iff_getElem?.2 (by simpa using hglobal), rfl⟩

/-- The global of a symbol has that symbol. -/
theorem symbol_of_globalNamed? {symbol : String} (h : ctx.globalNamed? symbol = some id)
    (hglobal : ctx.global id = .ok g) : g.symbol = symbol := by
  obtain ⟨n, hn, rfl⟩ := Option.map_eq_some_iff.1 h
  obtain ⟨hlt, hsymbol, -⟩ := List.findIdx?_eq_some_iff_getElem.1 hn
  have hget : ctx.globals.toList[n]? = some g := by
    simpa using global_eq_ok.1 hglobal
  obtain ⟨hlt', rfl⟩ := List.getElem?_eq_some_iff.1 hget
  simpa using hsymbol

/-- Among globals with different symbols, the global of a symbol is the one that has it. -/
theorem globalNamed?_of_symbol (hctx : (ctx.globals.toList.map (·.symbol)).Nodup)
    (hglobal : ctx.global id = .ok g) : ctx.globalNamed? g.symbol = some id := by
  have hget : ctx.globals.toList[id.index]? = some g := by
    simpa using global_eq_ok.1 hglobal
  obtain ⟨hlt, heq⟩ := List.getElem?_eq_some_iff.1 hget
  refine Option.map_eq_some_iff.2 ⟨id.index, ?_, rfl⟩
  rw [List.findIdx?_eq_some_iff_getElem]
  refine ⟨hlt, by simp [heq], fun n hn hsymbol => ?_⟩
  -- An earlier global with the same symbol would be the same global.
  have hsame : (ctx.globals.toList.map (·.symbol))[n]? =
      (ctx.globals.toList.map (·.symbol))[id.index]? := by
    rw [List.getElem?_map, List.getElem?_map, hget, List.getElem?_eq_getElem (hn.trans hlt)]
    simpa using hsymbol
  have hindex : n = id.index :=
    (List.getElem?_inj (by simpa using hn.trans hlt) hctx).1 hsame
  omega

end Context

namespace Module

variable {m : Module} {config : Config} {s t types : TypeStore} {map map' : PtrMap} {key : PtrKey}

/-! ## Globals -/

/-- The declared descriptors of the globals but the constructor table. -/
def globalRecords (m : Module) (config : Config) : List (PtrKey × Descriptor) :=
  (m.ctx.globalList.filter fun g => g.2.symbol ≠ config.ctorTable).map fun g =>
    (.global g.1, ⟨g.2.ty, g.2.space⟩)

theorem seedGlobals_eq (map : PtrMap) :
    m.seedGlobals config map = map.insertAll (m.globalRecords config) := by
  unfold seedGlobals globalRecords insertAll
  rw [List.foldl_map, List.foldl_filter]
  congr 1
  funext map g
  by_cases h : g.2.symbol = config.ctorTable <;> simp [h]

/-- Only globals other than the constructor table are known at the start. -/
theorem get?_seedGlobals
    (hkey : ∀ id g, key = .global id → m.ctx.global id = .ok g → g.symbol = config.ctorTable) :
    (m.seedGlobals config map).get? key = map.get? key := by
  have hnone : (m.globalRecords config).lookup key = none := by
    rw [List.lookup_eq_none_iff]
    intro r hr
    obtain ⟨⟨id, g⟩, hmem, rfl⟩ := List.mem_map.1 hr
    obtain ⟨hmem, hsymbol⟩ := List.mem_filter.1 hmem
    rw [bne_iff_ne]
    intro heq
    exact of_decide_eq_true hsymbol (hkey id g heq (Context.mem_globalList.1 hmem))
  rw [seedGlobals_eq, get?_insertAll, hnone, Option.or_none]

/-- A global other than the constructor table has its declared descriptor, unless another one is
recorded. -/
theorem get?_seedGlobals_global {id : GlobalId} {g : Global} (hglobal : m.ctx.global id = .ok g)
    (hsymbol : g.symbol ≠ config.ctorTable) : (m.seedGlobals config map).get? (.global id) =
      (map.get? (.global id)).or (some ⟨g.ty, g.space⟩) := by
  have hmem : (PtrKey.global id, (⟨g.ty, g.space⟩ : Descriptor)) ∈ m.globalRecords config := by
    refine List.mem_map.2 ⟨(id, g), List.mem_filter.2 ⟨Context.mem_globalList.2 hglobal, ?_⟩, rfl⟩
    exact decide_eq_true hsymbol
  have hlookup : (m.globalRecords config).lookup (.global id) = some ⟨g.ty, g.space⟩ := by
    cases hfound : (m.globalRecords config).lookup (.global id) with
    | none => simpa using List.lookup_eq_none_iff.1 hfound _ hmem
    | some d =>
        -- Whatever is found is the record of the same global.
        obtain ⟨front, back, hsplit, -⟩ := List.lookup_eq_some_iff.1 hfound
        have hrecord : (PtrKey.global id, d) ∈ m.globalRecords config := by simp [hsplit]
        obtain ⟨⟨id', g'⟩, hmem', heq⟩ := List.mem_map.1 hrecord
        cases heq
        cases hglobal.symm.trans (Context.mem_globalList.1 (List.mem_filter.1 hmem').1)
        rfl
  rw [seedGlobals_eq, get?_insertAll, hlookup]

/-! ## Functions -/

/-- Function `f` was typed as `typed`: by its annotation, by what `map` has for its arguments, and
by the fallback. In `map'` its address has the descriptor of `map`, if there is one, and else that
of its typed signature. -/
structure Classified (m : Module) (config : Config) (types : TypeStore) (map map' : PtrMap)
    (f : FuncId) (sig : Signature) (typed : TypedSignature) : Prop where
  declared : m.ctx.signature f = .ok sig
  slots : ∃ source : SlotSource, (∀ i, source.arg i = (SlotSource.ofMap m map f).arg i) ∧
    (sig.typed m.ctx (some config.fallback) source).exec types = .ok (.ok typed, types)
  signature : map'.signature? f = some typed
  address : map'.get? (.func f) =
    (map.get? (.func f)).or (some (typed.funcDescriptor sig types).1)

/-- Classifying a function leaves everything else as it is. -/
structure ClassifyFrame (ids : List FuncId) (map map' : PtrMap) : Prop where
  get? : ∀ key, (∀ f ∈ ids, key ≠ .func f) → map'.get? key = map.get? key
  signature? : ∀ f, f ∉ ids → map'.signature? f = map.signature? f
  contents : map'.contents = map.contents

theorem ClassifyFrame.refl (map : PtrMap) : ClassifyFrame [] map map :=
  ⟨fun _ _ => rfl, fun _ _ => rfl, rfl⟩

/-- A function is typed against the map, and its address and its signature are recorded. -/
theorem classifyFunction_run {f : FuncId}
    (h : (m.classifyFunction config map f).exec s = .ok (.ok map', t)) :
    ∃ sig typed d u, m.ctx.signature f = .ok sig ∧
      (sig.typed m.ctx (some config.fallback) (.ofMap m map f)).exec s = .ok (.ok typed, u) ∧
      typed.funcDescriptor sig u = (d, t) ∧
      map' = (map.insert (.func f) d).setSignature f typed := by
  unfold classifyFunction at h
  rw [Pass.exec_liftM_bind] at h
  obtain ⟨sig, hsig, h⟩ := bind_eq_ok_iff.1 h
  obtain ⟨typed, u, htyped, h⟩ := Pass.exec_bind_eq_ok.1 h
  obtain ⟨d, v, hd, h⟩ := Pass.exec_bind_eq_ok.1 h
  rw [Pass.exec_modifyGet] at hd
  have hd : typed.funcDescriptor sig u = (d, v) := by simpa [Prod.ext_iff] using hd
  cases h
  exact ⟨sig, typed, d, u, hsig, htyped, hd, rfl⟩

/-- The descriptor of the address is the same in every later store. -/
theorem classifyFunction_typed {f : FuncId}
    (h : (m.classifyFunction config map f).exec s = .ok (.ok map', t)) :
    ∃ sig typed d u, m.ctx.signature f = .ok sig ∧
      (sig.typed m.ctx (some config.fallback) (.ofMap m map f)).exec s = .ok (.ok typed, u) ∧
      u ≤ t ∧ (∀ w, t ≤ w → typed.funcDescriptor sig w = (d, w)) ∧
      map' = (map.insert (.func f) d).setSignature f typed := by
  obtain ⟨sig, typed, d, u, hsig, htyped, hd, hmap⟩ := classifyFunction_run h
  have hcanonical := canonical_funcDescriptor typed sig
  have hle := hcanonical.le u
  have hagain := hcanonical.again u
  rw [hd] at hle hagain
  exact ⟨sig, typed, d, u, hsig, htyped, hle, hagain, hmap⟩

theorem classifyFunction_eq_ok {f : FuncId}
    (h : (m.classifyFunction config map f).exec s = .ok (.ok map', t)) :
    s ≤ t ∧ (t ≤ types → ClassifyFrame [f] map map' ∧
      ∃ sig typed, m.Classified config types map map' f sig typed) := by
  obtain ⟨sig, typed, d, u, hsig, htyped, hle, hagain, rfl⟩ := classifyFunction_typed h
  refine ⟨le_trans ((sig.typed_bounded _ _ _).grows s _ u htyped) hle, fun htypes => ?_⟩
  refine ⟨⟨fun key hkey => ?_, fun g hg => ?_, (insert_frame ..).2⟩, sig, typed, hsig,
    ⟨.ofMap m map f, fun _ => rfl, ?_⟩, ?_, ?_⟩
  · show (map.insert _ _).get? key = _
    rw [get?_insert, if_neg (hkey f List.mem_cons_self)]
  · rw [signature?_setSignature, if_neg (List.ne_of_not_mem_cons hg)]
    show (map.insert _ _).signatures.lookup g = _
    rw [(insert_frame ..).1]
    rfl
  · exact Signature.typed_again htyped (le_trans hle htypes)
  · rw [signature?_setSignature, if_pos rfl]
  · show (map.insert _ _).get? _ = _
    rw [get?_insert, if_pos rfl, hagain types htypes]

/-- What a function was typed by and has recorded does not depend on how other functions were
classified. -/
theorem Classified.frame {f : FuncId} {ids ids' : List FuncId} {sig : Signature}
    {typed : TypedSignature} {start finish : PtrMap}
    (h : m.Classified config types map map' f sig typed) (hbefore : ClassifyFrame ids start map)
    (hafter : ClassifyFrame ids' map' finish) (hids : f ∉ ids) (hids' : f ∉ ids') :
    m.Classified config types start finish f sig typed := by
  have hfunc : ∀ {ids : List FuncId}, f ∉ ids → ∀ g ∈ ids, PtrKey.func f ≠ .func g := by
    rintro ids hf g hg heq
    cases heq
    exact hf hg
  obtain ⟨source, hsource, htyped⟩ := h.slots
  refine ⟨h.declared, ⟨source, fun i => ?_, htyped⟩, ?_, ?_⟩
  · rw [hsource]
    simp only [SlotSource.ofMap]
    congr 1
    funext func
    congr 2
    funext v
    exact hbefore.get? _ fun _ _ heq => by cases heq
  · rw [hafter.signature? f hids', h.signature]
  · rw [hafter.get? _ (hfunc hids'), h.address, hbefore.get? _ (hfunc hids)]

/-- Classifying functions, each once, types all of them. -/
theorem foldlM_classifyFunction {ids : List FuncId} (hids : ids.Nodup)
    (h : (ids.foldlM (m.classifyFunction config) map).exec s = .ok (.ok map', t)) :
    s ≤ t ∧ (t ≤ types → ClassifyFrame ids map map' ∧
      ∀ f ∈ ids, ∃ sig typed, m.Classified config types map map' f sig typed) := by
  induction ids generalizing map s with
  | nil =>
      cases h
      exact ⟨le_refl _, fun _ => ⟨.refl _, by simp⟩⟩
  | cons f ids ih =>
      obtain ⟨hf, hids⟩ := List.nodup_cons.1 hids
      rw [List.foldlM_cons] at h
      obtain ⟨mid, u, hfirst, hrest⟩ := Pass.exec_bind_eq_ok.1 h
      obtain ⟨hle, hfirst⟩ := classifyFunction_eq_ok hfirst
      obtain ⟨hle', hrest⟩ := ih hids hrest
      refine ⟨le_trans hle hle', fun htypes => ?_⟩
      obtain ⟨hframe, sig, typed, hclassified⟩ := hfirst (le_trans hle' htypes)
      obtain ⟨hframe', hrest⟩ := hrest htypes
      refine ⟨⟨fun key hkey => ?_, fun g hg => ?_, hframe'.contents.trans hframe.contents⟩, ?_⟩
      · rw [List.forall_mem_cons] at hkey
        rw [hframe'.get? key hkey.2, hframe.get? key (by simpa using hkey.1)]
      · rw [List.mem_cons, not_or] at hg
        rw [hframe'.signature? g hg.2, hframe.signature? g (by simpa using hg.1)]
      · intro g hg
        rcases List.mem_cons.1 hg with rfl | hmem
        · exact ⟨sig, typed, hclassified.frame (.refl map) hframe' List.not_mem_nil hf⟩
        · obtain ⟨sig', typed', hclassified'⟩ := hrest g hmem
          have hne : g ∉ [f] := by
            rw [List.mem_singleton]
            intro heq
            exact hf (heq ▸ hmem)
          exact ⟨sig', typed', hclassified'.frame hframe (.refl map') hne List.not_mem_nil⟩

/-- A pointer argument without a sample is typed by what the map has for it, or by the fallback. One
with a sample has the type of the sample. -/
theorem Classified.arg {f : FuncId} {func : Function} {sig : Signature} {typed : TypedSignature}
    (h : m.Classified config types map map' f sig typed) (hfunc : m.func f = .ok func) {i : Nat}
    {v : ValueId} {space : AddrSpace} (hv : func.args[i]? = some v)
    (hty : sig.args[i]? = some (.ptr space)) :
    (sig.annotation.bind (·.arg? i) = none →
      typed.arg? i = some (map.getD (.value f v) space config.fallback)) ∧
    ∀ c, sig.annotation.bind (·.arg? i) = some c → ∃ ty,
      (c.typeOf m.ctx).run types = .ok (ty, types) ∧ typed.arg? i = some ⟨ty, space⟩ := by
  obtain ⟨source, hsource, htyped⟩ := h.slots
  refine ⟨fun hnone => ?_, fun c hc => Signature.typed_sample htyped (le_refl types) hty hc⟩
  have hread : source.arg i = .ok (map.get? (.value f v)) := by
    rw [hsource]
    show (m.func f >>= fun func => .ok (func.args[i]?.bind fun v => map.get? (.value f v))) = _
    rw [hfunc]
    show Except.ok (func.args[i]?.bind _) = _
    rw [hv]
    rfl
  have hslot := Signature.typed_arg htyped (le_refl types) hty
  rw [hread, hnone] at hslot
  unfold getD
  cases hd : map.get? (.value f v) with
  | none =>
      rw [hd] at hslot
      exact (congrArg Prod.fst (Except.ok.inj hslot)).symm
  | some d =>
      rw [hd] at hslot
      exact (congrArg Prod.fst (Except.ok.inj hslot)).symm

/-! ## The constructor table -/

/-- The constructor table gets a content and a descriptor if it has an initialiser, and nothing else
changes. -/
theorem classifyTable_eq_ok (h : (m.classifyTable config map).exec s = .ok (.ok map', t)) :
    s ≤ t ∧ ((map' = map ∧ ∀ id global, m.ctx.globalNamed? config.ctorTable = some id →
        m.ctx.global id = .ok global → global.init = none) ∨
      ∃ id global ty, m.ctx.globalNamed? config.ctorTable = some id ∧
        m.ctx.global id = .ok global ∧ global.init ≠ none ∧
        map' = (map.setContent id ty).insert (.global id) ⟨ty, global.space⟩) := by
  unfold classifyTable at h
  split at h
  · next hnone =>
      cases h
      exact ⟨le_refl _, .inl ⟨rfl, fun id global hid => by cases hnone.symm.trans hid⟩⟩
  · next id hid =>
      rw [Pass.exec_liftM_bind] at h
      obtain ⟨global, hglobal, h⟩ := bind_eq_ok_iff.1 h
      split at h
      · next hinit =>
          cases h
          refine ⟨le_refl _, .inl ⟨rfl, fun id' global' hid' hglobal' => ?_⟩⟩
          cases hid.symm.trans hid'
          cases hglobal.symm.trans hglobal'
          exact hinit
      · next init hinit =>
          obtain ⟨ty, u, hty, h⟩ := Pass.exec_bind_eq_ok.1 h
          cases h
          refine ⟨(TableTyping.constantType_bounded _ init).grows s _ _ hty, .inr
            ⟨id, global, ty, hid, hglobal, ?_, rfl⟩⟩
          rw [hinit]
          exact Option.some_ne_none init

/-- What becomes of the globals: the constructor table, if there is one with an initialiser, gets a
content, and its address the descriptor of the content unless it has one. -/
inductive TableTyped (m : Module) (config : Config) (bodies map : PtrMap) : Prop
  | absent : (∀ id global, m.ctx.globalNamed? config.ctorTable = some id →
        m.ctx.global id = .ok global → global.init = none) →
      map.contents = bodies.contents →
      (∀ g, map.get? (.global g) = bodies.get? (.global g)) → TableTyped m config bodies map
  | present {id : GlobalId} {global : Global} (ty : Ty) :
      m.ctx.globalNamed? config.ctorTable = some id → m.ctx.global id = .ok global →
      global.init ≠ none → map.contents = (id, ty) :: bodies.contents →
      map.get? (.global id) = (bodies.get? (.global id)).or (some ⟨ty, global.space⟩) →
      (∀ g, g ≠ id → map.get? (.global g) = bodies.get? (.global g)) →
      TableTyped m config bodies map

/-- All functions and the constructor table are classified against `bodies`. -/
structure SymbolsTyped (m : Module) (config : Config) (types : TypeStore) (bodies map : PtrMap) :
    Prop where
  functions : ∀ id f, m.func id = .ok f →
    ∃ sig typed, m.Classified config types bodies map id sig typed
  table : m.TableTyped config bodies map
  value : ∀ f v, map.get? (.value f v) = bodies.get? (.value f v)
  kept : ∀ key d, bodies.get? key = some d → map.get? key = some d

theorem classify_symbolsTyped {bodies mid : PtrMap} {u : TypeStore}
    (hfunctions : (m.classifyFunctions config bodies).exec s = .ok (.ok mid, u))
    (htable : (m.classifyTable config mid).exec u = .ok (.ok map, t)) :
    s ≤ t ∧ m.SymbolsTyped config t bodies map := by
  obtain ⟨hle, hmid⟩ := foldlM_classifyFunction m.nodup_funcIds hfunctions
  obtain ⟨hle', htable⟩ := classifyTable_eq_ok htable
  obtain ⟨hframe, hfuncs⟩ := hmid hle'
  have hglobal : ∀ g, mid.get? (.global g) = bodies.get? (.global g) := fun g =>
    hframe.get? _ fun _ _ heq => by cases heq
  have hvalue : ∀ f v, mid.get? (.value f v) = bodies.get? (.value f v) := fun f v =>
    hframe.get? _ fun _ _ heq => by cases heq
  have hkept : ∀ key d, bodies.get? key = some d → mid.get? key = some d := by
    intro key d hd
    by_cases hkey : ∃ f ∈ m.funcIds, key = .func f
    · obtain ⟨f, hf, rfl⟩ := hkey
      obtain ⟨_, _, hfunc⟩ := hfuncs f hf
      rw [hfunc.address, hd, Option.some_or]
    · rw [hframe.get? key fun f hf heq => hkey ⟨f, hf, heq⟩, hd]
  refine ⟨le_trans hle hle', ?_⟩
  rcases htable with ⟨rfl, hinit⟩ | ⟨id, global, ty, hid, hdeclared, hinit, rfl⟩
  · exact ⟨fun id f hf => hfuncs id (mem_funcIds hf), .absent hinit hframe.contents hglobal, hvalue,
      hkept⟩
  · have hother : ∀ key, key ≠ .global id →
        ((mid.setContent id ty).insert (.global id) ⟨ty, global.space⟩).get? key =
          mid.get? key := by
      intro key hkey
      rw [get?_insert, if_neg hkey]
      rfl
    refine ⟨fun f func hf => ?_, .present ty hid hdeclared hinit ?_ ?_ fun g hg => ?_,
      fun f v => ?_, fun key d hd => ?_⟩
    · obtain ⟨sig, typed, hfunc⟩ := hfuncs f (mem_funcIds hf)
      refine ⟨sig, typed, hfunc.declared, hfunc.slots, ?_, ?_⟩
      · rw [signature?, (insert_frame ..).1]
        exact hfunc.signature
      · rw [hother _ (by simp), hfunc.address]
    · rw [(insert_frame ..).2, ← hframe.contents]
      rfl
    · rw [get?_insert, if_pos rfl, ← hglobal]
      rfl
    · rw [hother _ (by simpa using hg), hglobal]
    · rw [hother _ (by simp), hvalue]
    · by_cases hkey : key = .global id
      · subst hkey
        rw [get?_insert, if_pos rfl]
        show (mid.get? _).or _ = _
        rw [hkept _ d hd, Option.some_or]
      · rw [hother key hkey, hkept key d hd]

/-! ## Extraction -/

theorem contents_extractBodies {fs : List (FuncId × Function)}
    (h : (fs.foldlM m.extractBody map).exec s = .ok (.ok map', t)) :
    s ≤ t ∧ map'.contents = map.contents := by
  induction fs generalizing map s with
  | nil =>
      cases h
      exact ⟨le_refl _, rfl⟩
  | cons func fs ih =>
      rw [List.foldlM_cons] at h
      obtain ⟨mid, u, hbody, hrest⟩ := Pass.exec_bind_eq_ok.1 h
      have hmid : s ≤ u ∧ mid.contents = map.contents := by
        unfold extractBody at hbody
        split at hbody
        · cases hbody
          exact ⟨le_refl _, rfl⟩
        · obtain ⟨hle, hrecorded⟩ := Function.extract_recorded hbody
          obtain ⟨_, hfirst, hsecond⟩ := hrecorded (le_refl u)
          exact ⟨hle, hsecond.frame.2.trans hfirst.frame.2⟩
      obtain ⟨hle, hcontents⟩ := ih hrest
      exact ⟨le_trans hmid.1 hle, hcontents.trans hmid.2⟩

/-- What extraction leaves behind: `bodies` is what the bodies say, and all functions and the
constructor table are classified against it. -/
structure Extracted (m : Module) (config : Config) (types : TypeStore) (bodies map : PtrMap) :
    Prop where
  functions : ∀ id f, m.func id = .ok f →
    ∃ sig typed, m.Classified config types bodies map id sig typed
  value : ∀ f v, map.get? (.value f v) = bodies.get? (.value f v)
  content : ∀ g ty, map.content? g = some ty → ∃ global, m.ctx.global g = .ok global ∧
    global.symbol = config.ctorTable ∧
    map.get? (.global g) = (bodies.get? (.global g)).or (some ⟨ty, global.space⟩)
  kept : ∀ key d, bodies.get? key = some d → map.get? key = some d

theorem extract_classified (h : (m.extract config).exec s = .ok (.ok map, t)) :
    ∃ bodies u, (m.funcList.foldlM m.extractBody (m.seedGlobals config .empty)).exec s =
      .ok (.ok bodies, u) ∧ u ≤ t ∧ m.Extracted config t bodies map := by
  obtain ⟨bodies, u, hbodies, h⟩ := Pass.exec_bind_eq_ok.1 h
  obtain ⟨mid, v, hfunctions, htable⟩ := Pass.exec_bind_eq_ok.1 h
  obtain ⟨hle, hsymbols⟩ := classify_symbolsTyped hfunctions htable
  have hcontents : bodies.contents = [] := by
    rw [(contents_extractBodies hbodies).2, seedGlobals_eq, (insertAll_frame ..).2]
    rfl
  refine ⟨bodies, u, hbodies, hle, hsymbols.functions, hsymbols.value, fun g ty hty => ?_,
    hsymbols.kept⟩
  cases hsymbols.table with
  | absent _ hsame _ =>
      rw [content?, hsame, hcontents] at hty
      cases hty
  | @present id global ty' hid hglobal _ hadded haddress _ =>
      rw [content?, hadded, hcontents, List.lookup_cons] at hty
      split at hty
      · next heq =>
          obtain rfl : g = id := by simpa using heq
          cases hty
          exact ⟨global, hglobal, Context.symbol_of_globalNamed? hid hglobal, haddress⟩
      · cases hty

/-! ## The eager strategy -/

/-- A pass that only reads a module gives it another type store. -/
theorem exec_reading_eq_ok {α : Type} {m m' : Module} {pass : Module → Pass TypeStore α}
    {r : Except Refusal α} (h : (reading pass).exec m = .ok (r, m')) :
    ∃ types, (pass m).exec m.ctx.types = .ok (r, types) ∧ m' = m.setTypes types := by
  obtain ⟨⟨r', types⟩, hrun, hrest⟩ := bind_eq_ok_iff.1 h
  cases hrest
  exact ⟨types, hrun, rfl⟩

/-- The phases of a successful run. -/
theorem retypeEagerly_eq_ok {m m' : Module} {out : Retyped}
    (h : (retypeEagerly config).exec m = .ok (.ok out, m')) :
    ∃ demoted flat marked wrapped checked types, m.demote = .ok (demoted, flat) ∧
      mark.exec flat = .ok (.ok marked, wrapped) ∧
      ((wrapped.setTypes checked).extract config).exec checked = .ok (.ok out.map, types) ∧
      m' = wrapped.setTypes types := by
  obtain ⟨demoted, flat, hdemote, h⟩ := Pass.exec_bind_eq_ok.1 h
  obtain ⟨marked, wrapped, hmark, h⟩ := Pass.exec_bind_eq_ok.1 h
  have hdemote : m.demote = .ok (demoted, flat) := by
    obtain ⟨⟨b, m₀⟩, hm₀, hrest⟩ := bind_eq_ok_iff.1
      ((Pass.exec_liftM_bind m.demote _ m).symm.trans hdemote)
    cases hrest
    exact hm₀
  have hextract : ∀ checked, (do
        let map ← extractPass config
        return (⟨map, demoted || marked⟩ : Retyped)).exec (wrapped.setTypes checked) =
          .ok (.ok out, m') →
      ∃ types, ((wrapped.setTypes checked).extract config).exec checked =
        .ok (.ok out.map, types) ∧ m' = wrapped.setTypes types := by
    intro checked h
    obtain ⟨map, mid, hmap, hrest⟩ := Pass.exec_bind_eq_ok.1 h
    cases hrest
    obtain ⟨types, hrun, rfl⟩ := exec_reading_eq_ok hmap
    exact ⟨types, hrun, rfl⟩
  split at h
  · obtain ⟨_, mid, hcheck, h⟩ := Pass.exec_bind_eq_ok.1 h
    obtain ⟨⟨r, checked⟩, -, hrest⟩ := bind_eq_ok_iff.1 hcheck
    cases hrest
    obtain ⟨types, hrun, hm'⟩ := hextract checked h
    exact ⟨demoted, flat, marked, wrapped, checked, types, hdemote, hmark, hrun, hm'⟩
  · obtain ⟨types, hrun, hm'⟩ := hextract wrapped.ctx.types h
    exact ⟨demoted, flat, marked, wrapped, wrapped.ctx.types, types, hdemote, hmark, hrun, hm'⟩

end Module

end Pointee
