import Pointee.Proofs.Classification
import Pointee.Proofs.InferredBodies
import Pointee.Proofs.TextStability

/-!
# Reading a module does not change it

Inference, extraction and the coverage check read a module, but they share its type store, and build
types in it: typed pointers, function types, rebuilt aggregates and the types of samples. None of
these has a name, on no path and with no outcome, so by `Module.reading_is_pure` all that was there
is there still and looks the same, down to the text of the module.
-/

namespace Pointee

open TypeStore Pass

/-! ## What entering keeps -/

namespace TypeStore

variable {s t : TypeStore}

theorem structs_intern {c : Compound} (hc : c.structName? = none) :
    (s.intern c).2.structs = s.structs := by
  unfold intern
  split
  · rfl
  · simp [enter, hc]

theorem get_intern {c d : Compound} {id : TypeId} (h : (s.intern c).2.get id = .ok d) :
    s.get id = .ok d ∨ d = c := by
  unfold intern at h
  split at h
  · exact .inl h
  · rw [get_enter] at h
    split at h
    · cases h
      exact .inr rfl
    · exact .inl h

/-- No names are declared by entering types without them. -/
theorem Entered.structs_eq (h : s.Entered t) : t.structs = s.structs := by
  induction h with
  | refl => rfl
  | tail _ hlast ih =>
      obtain ⟨c, hc, rfl⟩ := hlast
      rw [structs_intern hc, ih]

theorem Entered.get_cases (h : s.Entered t) {id : TypeId} {c : Compound} (hc : t.get id = .ok c) :
    s.get id = .ok c ∨ c.structName? = none := by
  induction h with
  | refl => exact .inl hc
  | tail _ hlast ih =>
      obtain ⟨d, hd, rfl⟩ := hlast
      rcases get_intern hc with hold | rfl
      · exact ih hold
      · exact .inr hd

theorem Entered.namesHeld (h : s.Entered t) (hs : s.NamesHeld) : t.NamesHeld := by
  intro name id hmem
  rw [h.structs_eq] at hmem
  exact Nat.lt_of_lt_of_le (hs name id hmem) (size_le_of_le h.le)

/-- Declaring a struct enters it under its name. -/
theorem NamesHeld.declareStruct {name : String} {fields : List Ty} {packed : Bool} {ty : Ty}
    (hs : s.NamesHeld) (h : s.declareStruct name fields packed = .ok (ty, t)) : t.NamesHeld := by
  have hintern := hs.intern (.struct ⟨some name, fields, packed⟩)
  unfold TypeStore.declareStruct at h
  dsimp only at h
  split at h
  · rw [Except.ok.inj h] at hintern
    exact hintern
  · split at h
    · cases h
    · rw [Except.ok.inj h] at hintern
      exact hintern

end TypeStore

theorem Module.Building.namesHeld {m : Module} {d : Option Draft} (h : m.Building d) :
    m.ctx.types.NamesHeld := by
  induction h with
  | start target => exact fun name id hmem => nomatch hmem
  | type c _ ih => exact ih.intern c
  | struct _ hdeclare ih => exact ih.declareStruct hdeclare
  | global _ hadd ih =>
      obtain ⟨-, rfl⟩ := Context.addGlobal_eq_ok hadd
      exact ih
  | declare sig _ ih =>
      unfold Module.declare
      split
      · exact ih
      · exact ih
  | define _ _ ih => exact ih
  | write _ _ ih => exact ih
  | finish _ ih => exact ih
  | drop _ ih => exact ih

/-! ## Loops -/

theorem TypeStore.Grows.foldlM {α β : Type} {step : β → α → StateT TypeStore (Except Fault) β}
    (h : ∀ b a, Grows (step b a)) (as : List α) (b : β) : Grows (as.foldlM step b) := by
  induction as generalizing b with
  | nil => exact (Settles.pure b).grows
  | cons a as ih => exact (h b a).bind fun c => ih c

namespace Pass.Enters

variable {α β : Type}

theorem foldlM {step : β → α → Pass TypeStore β} (h : ∀ b a, Enters (step b a)) (as : List α)
    (b : β) : Enters (as.foldlM step b) := by
  induction as generalizing b with
  | nil => exact .pure b
  | cons a as ih =>
      rw [List.foldlM_cons]
      exact (h b a).bind fun c => ih c

theorem forM {step : α → Pass TypeStore PUnit} (h : ∀ a, Enters (step a)) (as : List α) :
    Enters (as.forM step) := by
  induction as with
  | nil => exact .pure _
  | cons a as ih => exact (h a).bind fun _ => ih

/-- A test that is followed by a refusal if it is met. -/
theorem guarded {x : Except Fault Bool} {refuse : Pass TypeStore Unit}
    {rest : Unit → Pass TypeStore β} (hrefuse : Enters refuse) (hrest : ∀ a, Enters (rest a)) :
    Enters (liftM x >>= fun met => if met = true then refuse >>= rest else rest ()) := by
  refine (Enters.lift x).bind fun met => ?_
  split
  · exact hrefuse.bind hrest
  · exact hrest ()

end Pass.Enters

/-! ## Symbols -/

theorem TypedSignature.annotated_enters (ctx : Context) (f : FuncId) :
    Enters (TypedSignature.annotated ctx f) :=
  (Enters.lift _).bind fun sig => (sig.typed_bounded ctx none .none).enters

namespace Module

variable (m : Module) (config : Config)

theorem classifyFunctions_enters (map : PtrMap) : Enters (m.classifyFunctions config map) := by
  refine .foldlM (fun map f => (Enters.lift _).bind fun sig => ?_) _ map
  refine (sig.typed_bounded m.ctx _ _).enters.bind fun typed => ?_
  exact (Enters.modifyGet (canonical_funcDescriptor typed sig)).bind fun d => .pure _

theorem classifyTable_enters (map : PtrMap) : Enters (m.classifyTable config map) := by
  unfold classifyTable
  split
  · exact .pure map
  · refine (Enters.lift _).bind fun g => ?_
    split
    · exact .pure map
    · next init _ =>
        exact (TableTyping.constantType_bounded _ init).enters.bind fun ty => .pure _

end Module

/-! ## Inference -/

namespace Function

variable (f : Function) (id : FuncId)

theorem seedAnnotated_grows (ctx : Context) (map : PtrMap) :
    Grows (f.seedAnnotated id ctx map) :=
  ((Settles.lift _).grows).bind fun sig => (sig.samplePointees_settles ctx).grows.bind
    fun _ => (Settles.lift _).grows

theorem infer_grows (ctx : Context) (map : PtrMap) : Grows (f.infer id ctx map) :=
  (f.seedAnnotated_grows id ctx map).bind fun _ =>
    ((Settles.lift _).grows).bind fun _ => (Settles.lift _).grows

end Function

namespace Module

variable (m : Module) (config : Config)

theorem inferBodies_grows (map : PtrMap) : Grows (m.inferBodies map) := by
  refine .foldlM (fun map func => ?_) _ map
  unfold inferBody
  split
  · exact (Settles.pure map).grows
  · exact func.2.infer_grows func.1 m.ctx map

theorem infer_enters : Enters (m.infer config) :=
  (Enters.liftState (m.inferBodies_grows _)).bind fun bodies =>
    (m.classifyFunctions_enters config bodies).bind fun map => m.classifyTable_enters config map

end Module

/-! ## Extraction -/

namespace Function

variable (ctx : Context) (f : Function) (id : FuncId)

theorem refuse_enters {α : Type} (i : InstId) (reason : String → String → Refusal) :
    Enters (f.refuse ctx id i reason : Pass TypeStore α) :=
  (Enters.lift _).bind fun _ => (Enters.lift _).bind fun _ => .throw _

theorem refuseType_enters {α : Type} (i : InstId) (v : ValueId) :
    Enters (f.refuseType ctx id i v : Pass TypeStore α) :=
  (Enters.lift _).bind fun _ => (Enters.lift _).bind fun _ => (Enters.lift _).bind fun _ =>
    (Enters.lift _).bind fun _ => .throw _

theorem extractBinding_enters (map : PtrMap) (i : InstId) (site : Site) :
    Enters (f.extractBinding ctx id map i site) := by
  refine (Enters.lift _).bind fun binding => ?_
  cases binding with
  | none => exact .pure map
  | some access =>
      refine (Enters.lift _).bind fun space => ?_
      cases space with
      | none => exact f.refuseType_enters ctx id i _
      | some space =>
          refine (Enters.lift _).bind fun wrapped => ?_
          cases wrapped with
          | none => exact f.refuse_enters ctx id i _
          | some wrapped => exact (Enters.lift _).bind fun key => .pure _

theorem extractResult_enters (map : PtrMap) (i : InstId) (site : Site) :
    Enters (f.extractResult ctx id map i site) := by
  unfold extractResult
  split
  · refine (Enters.lift _).bind fun space => ?_
    cases space with
    | none => exact f.refuseType_enters ctx id i _
    | some space =>
        refine (Enters.lift _).bind fun marker => ?_
        cases marker with
        | none => exact f.refuse_enters ctx id i _
        | some marker => exact .pure _
  · exact .pure map

theorem extractCall_enters (map : PtrMap) (i : InstId) (site : Site) :
    Enters (f.extractCall ctx id map i site) := by
  unfold extractCall
  split
  · next callee args =>
      refine (TypedSignature.annotated_enters ctx callee).bind fun typed => ?_
      refine .foldlM (fun map arg => ?_) _ map
      unfold extractArgument
      split
      · exact .pure map
      · refine (Enters.lift _).bind fun marked => ?_
        cases marked with
        | none => exact f.refuse_enters ctx id i _
        | some _ => exact .pure _
  · exact .pure map

theorem extractInst_enters (map : PtrMap) (i : InstId) : Enters (f.extractInst ctx id map i) := by
  refine (Enters.lift _).bind fun isMarker => ?_
  split
  · exact .pure map
  · refine (Enters.lift _).bind fun site => (f.extractBinding_enters ctx id map i site).bind
      fun map => (f.extractResult_enters ctx id map i site).bind fun map => ?_
    exact f.extractCall_enters ctx id map i site

end Function

theorem Module.extract_enters (m : Module) (config : Config) : Enters (m.extract config) := by
  refine (Enters.foldlM (fun map func => ?_) _ _).bind fun bodies =>
    (m.classifyFunctions_enters config bodies).bind fun map => m.classifyTable_enters config map
  unfold extractBody
  split
  · exact .pure map
  · exact (Enters.foldlM (func.2.extractInst_enters m.ctx func.1) _ map).bind fun map => .lift _

/-! ## The coverage check -/

theorem Function.checkInst_enters (ctx : Context) (f : Function) (id : FuncId) (i : InstId) :
    Enters (f.checkInst ctx id i) := by
  have hrefuse : ∀ reason, Enters (f.refuse ctx id i reason : Pass TypeStore Unit) := fun reason =>
    f.refuse_enters ctx id i reason
  have hresult : Enters (liftM (f.resultUnmarked i) >>= fun unmarked =>
      if unmarked = true then f.refuse ctx id i .unmarkedResult else pure ()) := by
    refine (Enters.lift _).bind fun unmarked => ?_
    split
    · exact hrefuse _
    · exact .pure ()
  refine (Enters.lift _).bind fun isMarker => ?_
  split
  · exact .pure ()
  · refine .guarded (hrefuse _) fun _ => .guarded (hrefuse _) fun _ => (Enters.lift _).bind
      fun site => ?_
    cases site with
    | call callee args =>
        refine (TypedSignature.annotated_enters ctx callee).bind fun typed => ?_
        exact .guarded (hrefuse _) fun _ => hresult
    | _ => exact hresult

theorem Module.checkCoverage_enters (m : Module) : Enters m.checkCoverage :=
  .forM (fun p => .forM (p.2.checkInst_enters m.ctx p.1) _) _

/-! ## Passes that read -/

namespace Module

variable {m m' : Module}

/-- A pass that reads `m` leaves `m'`, whatever its outcome: inference, extraction or the coverage
check. -/
inductive Reads (m : Module) : Module → Prop
  | infer {config : Config} {outcome : Except Refusal PtrMap} {m' : Module} :
      (inferPass config).exec m = .ok (outcome, m') → Reads m m'
  | extract {config : Config} {outcome : Except Refusal PtrMap} {m' : Module} :
      (extractPass config).exec m = .ok (outcome, m') → Reads m m'
  | check {outcome : Except Refusal Unit} {m' : Module} :
      checkPass.exec m = .ok (outcome, m') → Reads m m'

theorem Reads.entered (h : m.Reads m') :
    ∃ types, m' = m.setTypes types ∧ m.ctx.types.Entered types := by
  cases h with
  | infer hrun =>
      obtain ⟨types, hrun, hm'⟩ := exec_reading_eq_ok hrun
      exact ⟨types, hm', m.infer_enters _ _ _ _ hrun⟩
  | extract hrun =>
      obtain ⟨types, hrun, hm'⟩ := exec_reading_eq_ok hrun
      exact ⟨types, hm', m.extract_enters _ _ _ _ hrun⟩
  | check hrun =>
      obtain ⟨types, hrun, hm'⟩ := exec_reading_eq_ok hrun
      exact ⟨types, hm', m.checkCoverage_enters _ _ _ hrun⟩

/-- Inference, extraction and the coverage check change nothing that shows, whether they succeed or
refuse. Functions, globals and signatures stay, handles unfold to the types they unfolded to, and no
struct is declared under a name. So the text of the module stays the same. -/
theorem reading_is_pure (h : m.Reads m') :
    m'.funcs = m.funcs ∧ m'.ctx.globals = m.ctx.globals ∧
      m'.ctx.signatures = m.ctx.signatures ∧ m'.ctx.target = m.ctx.target ∧
      (∀ ty tree, m.ctx.types.unfolded ty = .ok tree → m'.ctx.types.unfolded ty = .ok tree) ∧
      m'.ctx.types.structs = m.ctx.types.structs ∧
      (∀ id c, m'.ctx.types.get id = .ok c → m.ctx.types.get id = .ok c ∨ c.structName? = none) ∧
      (m.ctx.types.NamesHeld → m'.ctx.types.NamesHeld ∧
        ∀ text, m.text = .ok text → m'.text = .ok text) := by
  obtain ⟨types, rfl, hentered⟩ := h.entered
  refine ⟨rfl, rfl, rfl, rfl, fun ty tree => unfolded_of_le hentered.le, hentered.structs_eq,
    fun id c => hentered.get_cases, fun hnames => ⟨hentered.namesHeld hnames, ?_⟩⟩
  exact m.text_stays hnames hentered.le hentered.structs_eq

/-- A constructor is registered in a table whose entries are structs with a name. Inference rebuilds
the type of the table, with a struct that has none. -/
def registersNamedEntry : Except Fault Module := do
  let m := Module.empty ⟨.air64, .bitcode, .v7⟩
  let (entry, types) ← m.ctx.types.declareStruct "entry" [.i32, .genericPtr, .genericPtr] false
  let m := m.setTypes types
  let (_, ctx) ← m.ctx.addGlobal (.constant "llvm.global_ctors" entry .exported
    (.struct entry [.zero .i32, .func ⟨0⟩, .null .generic]))
  let m := (Module.declare { m with ctx } ⟨"f", .exported, [], .unit, none⟩).2
  m.writeBody ⟨0⟩ [.inst (.ret none)]

theorem built_of_registersNamedEntry (h : registersNamedEntry = .ok m) : m.Built := by
  obtain ⟨⟨entry, types⟩, hstruct, h⟩ := bind_eq_ok_iff.1 h
  obtain ⟨⟨g, ctx⟩, hglobal, h⟩ := bind_eq_ok_iff.1 h
  refine Built.writeBody ?_ h
  exact .declare _ (.global (.struct (.start _) hstruct) hglobal)

theorem reading_is_pure_registersNamedEntry : ∃ m m' outcome text,
    registersNamedEntry = .ok m ∧
    (inferPass (.ofStrategy .analytical)).exec m = .ok (outcome, m') ∧
    m.ctx.types.NamesHeld ∧ m.ctx.types.size = 1 ∧ 1 < m'.ctx.types.size ∧
    m'.ctx.types.namedStructs = m.ctx.types.namedStructs ∧
    m.text = .ok text ∧ m'.text = .ok text := by
  have hrun : succeeds registersNamedEntry (fun m =>
      succeeds ((inferPass (.ofStrategy .analytical)).exec m) fun run => succeeds m.text fun _ =>
        m.ctx.types.size = 1 && 1 < run.2.ctx.types.size &&
          run.2.ctx.types.namedStructs = m.ctx.types.namedStructs) = true := by
    decide +kernel
  obtain ⟨m, hm, hrun⟩ := exists_of_succeeds hrun
  obtain ⟨⟨outcome, m'⟩, hinfer, hrun⟩ := exists_of_succeeds hrun
  obtain ⟨text, htext, hrun⟩ := exists_of_succeeds hrun
  simp only [Bool.and_eq_true, decide_eq_true_eq] at hrun
  obtain ⟨⟨hsize, hgrown⟩, hstructs⟩ := hrun
  have hnames := (built_of_registersNamedEntry hm).namesHeld
  obtain ⟨-, -, -, -, -, -, -, hpure⟩ := reading_is_pure (.infer hinfer)
  exact ⟨m, m', outcome, text, hm, hinfer, hnames, hsize, hgrown, hstructs, htext,
    (hpure hnames).2 text htext⟩

end Module

end Pointee
