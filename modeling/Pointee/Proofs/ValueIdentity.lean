import Pointee.Proofs.Histories

/-!
# Identities of values

Values are made on many routes: arguments with a function, constants on request, constant
expressions, and results with the instructions that define them. `Graph.Growth` lists what any of
them does to the tables of a graph. `Graph.Identified` is kept on every route: the table of results
and the index of constants are inverse to the table of values, and an argument stands at its
position. `Function.values_have_one_identity` follows for any history of writing and passes: two
values with the same content are constant expressions, and a constant that is made again is found
again.
-/

namespace Pointee

namespace Graph

variable {g g' : Graph} {v w : ValueId} {val : Value}

/-! ## What is done to the tables -/

/-- What an operation does to the values, to the results, to the index of constants and to the
number of instructions: nothing, or it makes a constant unless it exists, a constant expression, an
instruction alone, or an instruction with what it defines. -/
inductive Growth (g : Graph) : Graph → Prop
  | same {g' : Graph} : g'.values = g.values → g'.results = g.results →
      g'.constants = g.constants → g'.insts.size = g.insts.size → Growth g g'
  | constant {val : Value} : val.isShared = true → Growth g (g.intern val).2
  | expr (e : ConstExpr) (ty : Ty) : Growth g (g.addValue (.expr e ty)).2
  | inst (inst : Inst) : Growth g (g.addInst inst).2
  | result {inst : Inst} {r : Option ValueId} {g' : Graph} :
      (g.addInst inst).2.addResult g.nextInst = .ok (r, g') → Growth g g'

theorem Growth.refl (g : Graph) : g.Growth g := .same rfl rfl rfl rfl

/-- No operation changes a value that exists. -/
theorem Growth.keeps (h : g.Growth g') : g.Keeps g' := by
  cases h with
  | same hvalues => exact keeps_of_values hvalues
  | constant => exact keeps_intern g _
  | expr e ty => exact keeps_addValue g _
  | inst inst => exact keeps_of_values (g.values_addInst inst)
  | result hresult => exact (keeps_of_values (g.values_addInst _)).trans (keeps_addResult hresult)

/-- `g'` is what operations have made of `g`. -/
def Grown : Graph → Graph → Prop := Relation.ReflTransGen Growth

theorem Grown.keeps (h : g.Grown g') : g.Keeps g' := by
  induction h with
  | refl => exact .refl g
  | tail _ hlast ih => exact ih.trans hlast.keeps

/-! ## The index of constants -/

theorem value_addValue_eq_ok {val' : Value} : (g.addValue val).2.value v = .ok val' ↔
    (v = g.nextValue ∧ val' = val) ∨ g.value v = .ok val' := by
  rw [value_addValue]
  split
  · next hnew =>
      subst hnew
      constructor
      · intro hv
        exact .inl ⟨rfl, (Except.ok.inj hv).symm⟩
      · rintro (⟨-, rfl⟩ | hv)
        · rfl
        · exact absurd (has_of_value hv) (Nat.lt_irrefl _)
  · next hold => simp [hold]

/-- A constant that is not in the index becomes the next value, which enters the index. -/
theorem intern_of_new (hnew : g.constants.lookup val = none) :
    g.intern val = (g.nextValue, { (g.addValue val).2 with
      constants := (val, g.nextValue) :: g.constants }) := by
  rw [intern, hnew]
  rfl

theorem constants_addUses (g : Graph) (i : InstId) (vs : List ValueId) :
    (g.addUses i vs).constants = g.constants := by
  induction vs generalizing g with
  | nil => rfl
  | cons v vs ih => exact ih (g.addUser v i)

theorem constants_removeUses (g : Graph) (i : InstId) (vs : List ValueId) :
    (g.removeUses i vs).constants = g.constants := by
  induction vs generalizing g with
  | nil => rfl
  | cons v vs ih => exact ih (g.removeUser v i)

theorem constants_setOperand {i : InstId} {slot : Nat} (h : g.setOperand i slot v = .ok g') :
    g'.constants = g.constants := by
  obtain ⟨inst, old, -, -, ⟨-, rfl⟩ | ⟨-, g₁, rfl, rfl⟩⟩ := setOperand_eq_ok h
  · rfl
  · split <;> rfl

theorem constants_replaceInst {i : InstId} {inst : Inst} (h : g.replaceInst i inst = .ok g') :
    g'.constants = g.constants := by
  obtain ⟨g₁, huntrack, h⟩ := bind_eq_ok_iff.1 h
  obtain ⟨old, -, huntrack⟩ := bind_eq_ok_iff.1 huntrack
  cases pure_eq_ok_iff.1 huntrack
  cases pure_eq_ok_iff.1 h
  rw [constants_addUses]
  exact g.constants_removeUses i old.operands

/-- The index and the table of values are inverse to each other on the constants that are shared. -/
def Indexed (g : Graph) : Prop :=
  ∀ val v, g.constants.lookup val = some v ↔ val.isShared = true ∧ g.value v = .ok val

namespace Indexed

theorem congr (hg : g.Indexed) (hvalues : g'.values = g.values)
    (hconstants : g'.constants = g.constants) : g'.Indexed := by
  intro val v
  rw [hconstants, hg, value, value, hvalues]

/-- A value of another kind may be added beside the index. -/
theorem addValue (hg : g.Indexed) (hval : val.isShared = false) : (g.addValue val).2.Indexed := by
  intro val' v
  show g.constants.lookup val' = some v ↔ _
  rw [hg, value_addValue_eq_ok]
  constructor
  · rintro ⟨hshared, hv⟩
    exact ⟨hshared, .inr hv⟩
  · rintro ⟨hshared, ⟨-, rfl⟩ | hv⟩
    · rw [hval] at hshared
      cases hshared
    · exact ⟨hshared, hv⟩

/-- A constant that exists is found, and nothing is made. -/
theorem intern_eq (hg : g.Indexed) (hval : val.isShared = true) (hv : g.value v = .ok val) :
    g.intern val = (v, g) := by
  rw [Graph.intern, (hg val v).2 ⟨hval, hv⟩]

theorem intern (hg : g.Indexed) (hval : val.isShared = true) : (g.intern val).2.Indexed := by
  cases hfound : g.constants.lookup val with
  | some v => rwa [hg.intern_eq hval ((hg val v).1 hfound).2]
  | none =>
      rw [intern_of_new hfound]
      intro val' v
      show List.lookup val' ((val, g.nextValue) :: g.constants) = some v ↔
        val'.isShared = true ∧ (g.addValue val).2.value v = .ok val'
      rw [value_addValue_eq_ok]
      by_cases heq : val' = val
      · subst heq
        rw [List.lookup_cons_self, Option.some.injEq]
        constructor
        · rintro rfl
          exact ⟨hval, .inl ⟨rfl, rfl⟩⟩
        · rintro ⟨-, ⟨rfl, -⟩ | hv⟩
          · rfl
          · -- The index would have had the constant.
            rw [(hg val' v).2 ⟨hval, hv⟩] at hfound
            cases hfound
      · have hne : (val' == val) = false := by simpa using heq
        rw [List.lookup_cons, hne]
        show g.constants.lookup val' = some v ↔ _
        rw [hg]
        simp only [heq, and_false, false_or]

/-- What is found or made has the content that was asked for. -/
theorem value_intern (hg : g.Indexed) (val : Value) :
    (g.intern val).2.value (g.intern val).1 = .ok val := by
  cases hfound : g.constants.lookup val with
  | some v =>
      obtain ⟨hval, hv⟩ := (hg val v).1 hfound
      rwa [hg.intern_eq hval hv]
  | none =>
      rw [intern_of_new hfound]
      exact value_nextValue g val

end Indexed

/-! ## Identities -/

/-- Each kind of value is told apart in its own way: results by the instructions that define them,
shared constants by the index, and arguments by their positions. -/
structure Identified (g : Graph) : Prop where
  attached : g.Attached
  indexed : g.Indexed
  args : ∀ v ty n, g.value v = .ok (.arg ty n) → v.index = n

namespace Identified

/-- Two values with the same content are one, or constant expressions. -/
theorem distinct (hg : g.Identified) (hv : g.value v = .ok val) (hw : g.value w = .ok val) :
    v = w ∨ ∃ e ty, val = .expr e ty := by
  cases val with
  | inst i ty =>
      have hresult := (hg.attached.result_iff i v).2 ⟨ty, hv⟩
      rw [(hg.attached.result_iff i w).2 ⟨ty, hw⟩] at hresult
      exact .inl (Option.some.inj hresult).symm
  | arg ty n => exact .inl (ValueId.ext ((hg.args v ty n hv).trans (hg.args w ty n hw).symm))
  | expr e ty => exact .inr ⟨e, ty, rfl⟩
  | imm _ | global _ _ | func _ | null _ | undef _ =>
      have hfound := (hg.indexed _ v).2 ⟨rfl, hv⟩
      rw [(hg.indexed _ w).2 ⟨rfl, hw⟩] at hfound
      exact .inl (Option.some.inj hfound).symm

theorem congr (hg : g.Identified) (hvalues : g'.values = g.values)
    (hresults : g'.results = g.results) (hconstants : g'.constants = g.constants)
    (hsize : g'.insts.size = g.insts.size) : g'.Identified where
  attached := hg.attached.congr hvalues hresults hsize
  indexed := hg.indexed.congr hvalues hconstants
  args v ty n hv := by
    rw [value, hvalues] at hv
    exact hg.args v ty n hv

/-- No value is an argument but those that a function starts with. -/
theorem args_addValue (hg : g.Identified) (hval : ∀ ty n, val ≠ .arg ty n) (v : ValueId) (ty : Ty)
    (n : Nat) (hv : (g.addValue val).2.value v = .ok (.arg ty n)) : v.index = n := by
  rcases value_addValue_eq_ok.1 hv with ⟨-, heq⟩ | hv
  · exact absurd heq.symm (hval ty n)
  · exact hg.args v ty n hv

theorem intern (hg : g.Identified) (hval : val.isShared = true) : (g.intern val).2.Identified := by
  have hindexed := hg.indexed.intern hval
  cases hfound : g.constants.lookup val with
  | some v => rwa [hg.indexed.intern_eq hval ((hg.indexed val v).1 hfound).2]
  | none =>
      have hinst := Value.inst?_of_isShared hval
      have harg : ∀ ty n, val ≠ .arg ty n := by
        rintro ty n rfl
        cases hval
      rw [intern_of_new hfound] at hindexed ⊢
      exact ⟨(hg.attached.addValue hinst).congr rfl rfl rfl, hindexed, hg.args_addValue harg⟩

theorem addInst (hg : g.Identified) (inst : Inst) : (g.addInst inst).2.Identified where
  attached := hg.attached.addInst inst
  indexed := hg.indexed.congr (g.values_addInst inst) (constants_addUses ..)
  args v ty n hv := by
    rw [value, g.values_addInst inst] at hv
    exact hg.args v ty n hv

/-- A result is attached when it is made. -/
theorem result (hg : g.Identified) {inst : Inst} {r : Option ValueId}
    (h : (g.addInst inst).2.addResult g.nextInst = .ok (r, g')) : g'.Identified := by
  have hinst := hg.addInst inst
  have hnone : (g.addInst inst).2.result? g.nextInst = none := by
    show (g.addInst inst).2.results.get _ = none
    rw [Graph.addInst, (addUses_frame ..).2.2]
    exact hg.attached.result?_eq_none (Nat.le_refl _)
  have hattached := hinst.attached.addResult hnone h
  obtain ⟨_, _, -, -, ⟨-, -, rfl⟩ | ⟨ty, -, -, rfl⟩⟩ := addResult_eq_ok h
  · exact hinst
  · have hindexed : ((g.addInst inst).2.addValue (.inst g.nextInst ty)).2.Indexed :=
      hinst.indexed.addValue rfl
    exact ⟨hattached, hindexed.congr rfl rfl, hinst.args_addValue (by simp)⟩

theorem growth (hg : g.Identified) (h : g.Growth g') : g'.Identified := by
  cases h with
  | same hvalues hresults hconstants hsize => exact hg.congr hvalues hresults hconstants hsize
  | constant hval => exact hg.intern hval
  | expr e ty =>
      exact ⟨hg.attached.addValue rfl, hg.indexed.addValue rfl, hg.args_addValue (by simp)⟩
  | inst inst => exact hg.addInst inst
  | result hresult => exact hg.result hresult

theorem grown (hg : g.Identified) (h : g.Grown g') : g'.Identified := by
  induction h with
  | refl => exact hg
  | tail _ hlast ih => exact ih.growth hlast

end Identified

/-- A function starts with its arguments in order, and with an empty index. -/
theorem identified_ofSignature (sig : Signature) : (Function.ofSignature sig).graph.Identified := by
  refine ⟨(Function.Written.ofSignature sig).graph.attached, fun val v => ?_, fun v ty n hv => ?_⟩
  · constructor
    · intro hfound
      cases hfound
    · rintro ⟨hshared, hv⟩
      obtain ⟨ty, -, rfl⟩ := Function.value_ofSignature.1 hv
      cases hshared
  · obtain ⟨_, -, heq⟩ := Function.value_ofSignature.1 hv
    exact (Value.arg.inj heq).2.symm

end Graph

open Pointee.Graph

/-! ## Operations grow the graph -/

namespace Function

variable {f f' : Function}

theorem insert_growth {loc : Location} {inst : Inst} {ins : Insertion}
    (h : f.insert loc inst = .ok (ins, f')) : f.graph.Growth f'.graph := by
  obtain ⟨_, _, -, hresult, -, rfl⟩ := insert_eq_ok h
  exact .result hresult

theorem Edit.growth (h : f.Edit f') : f.graph.Growth f'.graph := by
  cases h with
  | insert hins => exact insert_growth hins
  | setOperand hset =>
      obtain ⟨hvalues, hresults, inst, -, -, hinsts⟩ := setOperand_frame hset
      exact .same hvalues hresults (constants_setOperand hset)
        (by rw [hinsts, Array.size_setIfInBounds])
  | replaceInst hreplace =>
      obtain ⟨-, hvalues, hresults, hinsts⟩ := replaceInst_frame hreplace
      exact .same hvalues hresults (constants_replaceInst hreplace)
        (by rw [hinsts, Array.size_setIfInBounds])
  | appendIncoming happend =>
      obtain ⟨ty, incoming, -, rfl⟩ := appendIncoming_eq_ok happend
      exact .same rfl rfl rfl Array.size_setIfInBounds
  | track htrack =>
      obtain ⟨inst, -, hrest⟩ := bind_eq_ok_iff.1 htrack
      cases pure_eq_ok_iff.1 hrest
      obtain ⟨hvalues, hinsts, hresults⟩ := f.graph.addUses_frame _ inst.operands
      exact .same hvalues hresults (constants_addUses ..) (congrArg Array.size hinsts)
  | untrack huntrack =>
      obtain ⟨inst, -, hrest⟩ := bind_eq_ok_iff.1 huntrack
      cases pure_eq_ok_iff.1 hrest
      obtain ⟨hvalues, hinsts, hresults⟩ := f.graph.removeUses_frame _ inst.operands
      exact .same hvalues hresults (constants_removeUses ..) (congrArg Array.size hinsts)
  | removeUser v i => exact .same rfl rfl rfl rfl

/-- What writing does to the graph. -/
theorem Writing.growth {ctx : Context} (h : f.Writing ctx f') : f.graph.Growth f'.graph := by
  cases h with
  | same => exact .refl _
  | addBlock | appendBlock => exact .same rfl rfl rfl rfl
  | constant hval => exact .constant hval
  | @expr e v graph hexpr =>
      obtain ⟨ty, -, hadd⟩ := addExpr_eq_ok hexpr
      obtain rfl : (f.graph.addValue (.expr e ty)).2 = graph := by rw [hadd]
      exact .expr e ty
  | insert hins => exact insert_growth hins
  | place hplace =>
      obtain ⟨layout, -, hrest⟩ := bind_eq_ok_iff.1 hplace
      cases pure_eq_ok_iff.1 hrest
      exact .inst _
  | replaceInst hreplace => exact (Edit.replaceInst hreplace).growth
  | appendIncoming happend => exact (Edit.appendIncoming happend).growth

end Function

/-! ## Histories of a function -/

namespace Function

variable {f f' f'' : Function}

/-- One step in the history of a function: it is written further, in any context and at any
location, or a pass over any module rewrites it. -/
inductive Change : Function → Function → Prop
  | write {ctx : Context} {d d' : Draft} : d.Step ctx d' → Change d.func d'.func
  | rewrite {m m' : Module} {id : FuncId} {f f' : Function} :
      m.Rewrite m' → m.func id = .ok f → m'.func id = .ok f' → Change f f'

/-- `f'` is what writing and passes have made of `f`. -/
def Becomes : Function → Function → Prop := Relation.ReflTransGen Change

theorem Edited.grown (h : f.Edited f') : f.graph.Grown f'.graph := by
  induction h with
  | refl => exact .refl
  | tail _ hlast ih => exact ih.tail hlast.growth

theorem Becomes.grown (h : f.Becomes f') : f.graph.Grown f'.graph := by
  induction h with
  | refl => exact .refl
  | tail _ hlast ih =>
      cases hlast with
      | write hstep => exact ih.tail hstep.writing.2.growth
      | rewrite hrewrite hf hf' =>
          obtain ⟨g, hg, hedited⟩ := hrewrite.edited.2 _ _ hf'
          cases hf.symm.trans hg
          exact ih.trans hedited.grown

end Function

/-- In a module under construction, every function is reached from its declaration. -/
theorem Module.Built.becomes {m : Module} (hm : m.Built) {id : FuncId} {f : Function}
    (hf : m.func id = .ok f) : ∃ sig, (Function.ofSignature sig).Becomes f := by
  refine (Module.Building.invariant (P := fun _ _ f => ∃ sig, (Function.ofSignature sig).Becomes f)
    hm (fun _ _ _ _ _ h => h) (fun _ _ sig _ => ⟨sig, .refl⟩) ?_).1 id f hf
  rintro ctx d d' hstep ⟨sig, hbecomes⟩
  exact ⟨sig, hbecomes.tail (.write hstep)⟩

/-! ## Constants on request -/

/-- A constant that is shared: all but constant expressions. -/
inductive SharedConstant where
  | imm (value : Immediate)
  | undef (ty : Ty)
  | null (space : AddrSpace)
  | funcAddr (f : FuncId)
  | globalAddr (g : GlobalId)

namespace SharedConstant

/-- The value that the constant is. -/
def value (ctx : Context) : SharedConstant → Except Fault Value
  | imm value => .ok (.imm value)
  | undef ty => .ok (.undef ty)
  | null space => .ok (.null space)
  | funcAddr f => .ok (.func f)
  | globalAddr g => do return .global g (.ptr (← ctx.global g).space)

theorem isShared_of_value {ctx : Context} {c : SharedConstant} {val : Value}
    (h : c.value ctx = .ok val) : val.isShared = true := by
  cases c with
  | globalAddr g =>
      obtain ⟨global, -, hval⟩ := bind_eq_ok_iff.1 h
      cases hval
      rfl
  | _ =>
      cases h
      rfl

theorem value_of_globals {ctx ctx' : Context} {c : SharedConstant} {val : Value}
    (hctx : ∀ id global, ctx.global id = .ok global → ctx'.global id = .ok global)
    (h : c.value ctx = .ok val) : c.value ctx' = .ok val := by
  cases c with
  | globalAddr g =>
      obtain ⟨global, hglobal, hval⟩ := bind_eq_ok_iff.1 h
      exact bind_eq_ok_iff.2 ⟨global, hctx g global hglobal, hval⟩
  | _ => exact h

end SharedConstant

namespace Draft

/-- Makes a shared constant. -/
def share (ctx : Context) (d : Draft) : SharedConstant → Except Fault (ValueId × Draft)
  | .imm value => .ok (d.imm value)
  | .undef ty => .ok (d.undef ty)
  | .null space => .ok (d.null space)
  | .funcAddr f => .ok (d.funcAddr f)
  | .globalAddr g => d.globalAddr ctx g

theorem share_eq (ctx : Context) (d : Draft) (c : SharedConstant) :
    d.share ctx c = do return d.withGraph (·.intern (← c.value ctx)) := by
  cases c with
  | globalAddr g =>
      show d.globalAddr ctx g = _
      unfold globalAddr SharedConstant.value
      rw [bind_assoc]
      rfl
  | _ => rfl

/-- What is shared has the value of the constant. -/
theorem value_of_share {ctx : Context} {d d' : Draft} {c : SharedConstant} {v : ValueId}
    (hd : d.func.graph.Identified) (h : d.share ctx c = .ok (v, d')) :
    ∃ val, c.value ctx = .ok val ∧ d'.func.graph.value v = .ok val := by
  rw [share_eq] at h
  obtain ⟨val, hval, hrest⟩ := bind_eq_ok_iff.1 h
  cases pure_eq_ok_iff.1 hrest
  exact ⟨val, hval, hd.indexed.value_intern val⟩

theorem share_step {ctx : Context} {d d' : Draft} {c : SharedConstant} {v : ValueId}
    (h : d.share ctx c = .ok (v, d')) : d.Step ctx d' := by
  cases c with
  | imm value => cases h; exact .imm value
  | undef ty => cases h; exact .undef ty
  | null space => cases h; exact .null space
  | funcAddr f => cases h; exact .funcAddr f
  | globalAddr g => exact .globalAddr h

/-- A constant that exists is shared without a change. -/
theorem share_of_value {ctx : Context} {d : Draft} {c : SharedConstant} {v : ValueId} {val : Value}
    (hd : d.func.graph.Identified) (hval : c.value ctx = .ok val)
    (hv : d.func.graph.value v = .ok val) : d.share ctx c = .ok (v, d) := by
  rw [share_eq, hval]
  have hintern := hd.indexed.intern_eq (SharedConstant.isShared_of_value hval) hv
  show Except.ok ((d.func.graph.intern val).1,
    { d with func := { d.func with graph := (d.func.graph.intern val).2 } }) = _
  rw [hintern]

end Draft

/-- Values have one identity in every function that writing and passes, in any order, make of a
declaration. An instruction defines a value exactly if the value is its result. Different values
with the same content are constant expressions. An immediate, null, undefined value or address that
is made once is found whenever it is made again, and nothing is added then. -/
theorem Function.values_have_one_identity {sig : Signature} {f : Function}
    (h : (Function.ofSignature sig).Becomes f) :
    (∀ i v, f.graph.result? i = some v ↔ ∃ ty, f.graph.value v = .ok (.inst i ty)) ∧
    (∀ v w val, v ≠ w → f.graph.value v = .ok val → f.graph.value w = .ok val →
      ∃ e ty, val = .expr e ty) ∧
    ∀ (ctx ctx' : Context) (d d' later : Draft) (c : SharedConstant) (v : ValueId),
      d.func = f → d.share ctx c = .ok (v, d') → d'.func.Becomes later.func →
      (∀ id global, ctx.global id = .ok global → ctx'.global id = .ok global) →
      later.share ctx' c = .ok (v, later) := by
  have hidentified := (identified_ofSignature sig).grown h.grown
  refine ⟨hidentified.attached.result_iff, fun v w val hne hv hw => ?_, ?_⟩
  · exact (hidentified.distinct hv hw).resolve_left hne
  · rintro ctx ctx' d d' later c v rfl hshare hlater hctx
    obtain ⟨val, hval, hv⟩ := Draft.value_of_share hidentified hshare
    refine Draft.share_of_value ?_ (SharedConstant.value_of_globals hctx hval) ?_
    · exact (hidentified.growth (Draft.share_step hshare).writing.2.growth).grown hlater.grown
    · exact hlater.grown.keeps v val hv

/-- A function that reads through its argument, and a global that it does not use. -/
def Module.readsBesideGlobal : Except Fault Module :=
  ofItems ⟨.air64, .bitcode, .v7⟩ [.constant "x" .i32 .hidden (.zero .i32)]
    [⟨"f", .exported, [.genericPtr], .unit, none⟩] [.inst (.load ⟨0⟩ .i32), .inst (.ret none)]

theorem Function.values_have_one_identity_readsBesideGlobal :
    ∃ (m m' : Module) (sig : Signature) (f f' : Function) (v : ValueId) (d : Draft),
      Module.readsBesideGlobal = .ok m ∧ m.func ⟨0⟩ = .ok f ∧
      (Function.ofSignature sig).Becomes f ∧
      Draft.share m.ctx ⟨⟨0⟩, f, .nowhere⟩ (.globalAddr ⟨0⟩) = .ok (v, d) ∧
      (d.finish m).Rewrite m' ∧ m'.func ⟨0⟩ = .ok f' ∧
      f.graph.values.size = 2 ∧ f'.graph.values.size = 4 ∧
      Draft.share m'.ctx ⟨⟨0⟩, f', .nowhere⟩ (.globalAddr ⟨0⟩) =
        .ok (v, ⟨⟨0⟩, f', .nowhere⟩) := by
  have hrun : succeeds Module.readsBesideGlobal (fun m => succeeds (m.func ⟨0⟩) fun f =>
      succeeds (Draft.share m.ctx ⟨⟨0⟩, f, .nowhere⟩ (.globalAddr ⟨0⟩)) fun shared =>
        succeeds (Module.mark.exec (shared.2.finish m)) fun marked =>
          succeeds (marked.2.func ⟨0⟩) fun f' =>
            f.graph.values.size = 2 && f'.graph.values.size = 4) = true := by
    decide +kernel
  obtain ⟨m, hm, hrun⟩ := exists_of_succeeds hrun
  obtain ⟨f, hf, hrun⟩ := exists_of_succeeds hrun
  obtain ⟨⟨v, d⟩, hshare, hrun⟩ := exists_of_succeeds hrun
  obtain ⟨⟨outcome, m'⟩, hmark, hrun⟩ := exists_of_succeeds hrun
  obtain ⟨f', hf', hrun⟩ := exists_of_succeeds hrun
  simp only [Bool.and_eq_true, decide_eq_true_eq] at hrun
  obtain ⟨sig, hbecomes⟩ := (Module.built_of_ofItems hm).becomes hf
  obtain ⟨-, -, hagain⟩ := values_have_one_identity hbecomes
  have hself : d.self = ⟨0⟩ := by
    obtain ⟨global, -, hrest⟩ := bind_eq_ok_iff.1 hshare
    cases pure_eq_ok_iff.1 hrest
    rfl
  have hd : (d.finish m).func ⟨0⟩ = .ok d.func := by
    have hlt := (Array.getElem?_eq_some_iff.1 (Module.func_eq_ok.1 hf)).1
    rw [Draft.finish, hself, Module.func_setFunc hlt]
    exact if_pos rfl
  obtain ⟨types, hctx⟩ := Module.mark_ctx hmark
  have hlater : d.func.Becomes f' := .single (.rewrite (.mark hmark) hd hf')
  refine ⟨m, m', sig, f, f', v, d, hm, hf, hbecomes, hshare, .mark hmark, hf', hrun.1, hrun.2, ?_⟩
  refine hagain m.ctx m'.ctx _ d ⟨⟨0⟩, f', .nowhere⟩ _ v rfl hshare hlater ?_
  intro id global hglobal
  rw [hctx]
  exact hglobal

end Pointee
