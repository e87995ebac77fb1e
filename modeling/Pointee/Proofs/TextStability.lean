import Pointee.Module
import Pointee.Proofs.TypeHandles

/-!
# Texts in later stores

A type that was written out in a store is written out in the same way in every later one, and so is
everything that is written with types in it. `Module.text_stays` says this of modules: nothing in a
text depends on rows that the store did not have, unless a name was declared.
-/

namespace Pointee

/-- Where `x` ends well, `y` ends with the same. -/
def Stays {α : Type} (x y : Except Fault α) : Prop := ∀ a, x = .ok a → y = .ok a

namespace Stays

variable {α β : Type} {x y : Except Fault α}

theorem refl (x : Except Fault α) : Stays x x := fun _ h => h

theorem bind {k l : α → Except Fault β} (h : Stays x y) (hk : ∀ a, Stays (k a) (l a)) :
    Stays (x >>= k) (y >>= l) := by
  intro b hb
  obtain ⟨a, ha, hb⟩ := bind_eq_ok_iff.1 hb
  exact bind_eq_ok_iff.2 ⟨a, h a ha, hk a b hb⟩

theorem map (h : Stays x y) (f : α → β) : Stays (f <$> x) (f <$> y) := by
  intro b hb
  obtain ⟨a, ha, hb⟩ := map_eq_ok_iff.1 hb
  exact map_eq_ok_iff.2 ⟨a, h a ha, hb⟩

theorem mapM {F G : α → Except Fault β} (h : ∀ a, Stays (F a) (G a)) (as : List α) :
    Stays (as.mapM F) (as.mapM G) := by
  intro bs hbs
  rw [mapM_eq_ok_iff] at hbs ⊢
  exact hbs.imp fun a b => h a b

end Stays

/-! ## Types -/

namespace TypeStore

variable {s t : TypeStore}

theorem textWithin_stays (hle : s ≤ t) {n k : Nat} (hdepth : n ≤ k) (ty : Ty) :
    Stays (s.textWithin n ty) (t.textWithin k ty) := by
  induction n generalizing k ty with
  | zero =>
      cases ty with
      | compound id => exact fun _ h => nomatch h
      | _ => cases k <;> exact .refl _
  | succ n ih =>
      obtain ⟨k, rfl⟩ : ∃ m, k = m + 1 := ⟨k - 1, by omega⟩
      have hpart := fun ty => ih (Nat.le_of_succ_le_succ hdepth) ty
      cases ty with
      | compound id =>
          refine Stays.bind (fun c hc => get_of_le hle hc) fun c => ?_
          cases c with
          | array elem len => exact (hpart elem).bind fun _ => .refl _
          | vector elem len => exact (hpart elem).bind fun _ => .refl _
          | struct d =>
              obtain ⟨name, fields, packed⟩ := d
              cases name with
              | some name => exact .refl _
              | none => exact (Stays.mapM hpart fields).bind fun _ => .refl _
          | func args ret =>
              exact (Stays.mapM hpart args).bind fun _ => (hpart ret).bind fun _ => .refl _
          | typedPtr pointee space => exact (hpart pointee).bind fun _ => .refl _
      | _ => exact .refl _

theorem text_stays (hle : s ≤ t) (ty : Ty) : Stays (s.text ty) (t.text ty) :=
  textWithin_stays hle (size_le_of_le hle) ty

theorem structLine_stays (hle : s ≤ t) (d : StructDef) : Stays (s.structLine d) (t.structLine d) :=
  (Stays.mapM (text_stays hle) d.fields).bind fun _ => .refl _

/-- The structs that have names are in the store. -/
def NamesHeld (s : TypeStore) : Prop := ∀ name id, (name, id) ∈ s.structs → id.index < s.size

theorem NamesHeld.intern (h : s.NamesHeld) (c : Compound) : (s.intern c).2.NamesHeld := by
  unfold TypeStore.intern
  split
  · exact h
  · intro name id hmem
    have hsize : (s.enter c).size = s.size + 1 := by simp [enter, size]
    rw [hsize]
    rcases List.mem_append.1 hmem with hold | hnew
    · exact Nat.lt_succ_of_lt (h name id hold)
    · rw [Option.mem_toList, Option.map_eq_some_iff] at hnew
      obtain ⟨_, -, heq⟩ := hnew
      cases heq
      exact Nat.lt_succ_self _

theorem namedStructs_eq (hnames : s.NamesHeld) (hle : s ≤ t) (hstructs : t.structs = s.structs) :
    t.namedStructs = s.namedStructs := by
  rw [namedStructs, namedStructs, hstructs]
  refine List.filterMap_congr fun p hp => ?_
  obtain ⟨c, hc⟩ := exists_get (hnames p.1 p.2 hp)
  have hc' := get_of_le hle hc
  unfold get at hc hc'
  rw [require_eq_ok_iff] at hc hc'
  simp only [structAt?, hc, hc']

end TypeStore

/-! ## Constants and declarations -/

theorem Context.typeText_stays (ctx : Context) {t : TypeStore} (hle : ctx.types ≤ t) (ty : Ty) :
    Stays (ctx.typeText ty) (Context.typeText { ctx with types := t } ty) :=
  TypeStore.text_stays hle ty

mutual

theorem Constant.text_stays (ctx : Context) {t : TypeStore} (hle : ctx.types ≤ t) (c : Constant) :
    Stays (c.text ctx) (c.text { ctx with types := t }) := by
  have hty := ctx.typeText_stays hle
  cases c with
  | imm value => exact (hty value.ty).bind fun _ => .refl _
  | null space => exact (hty (.ptr space)).bind fun _ => .refl _
  | undef ty => exact (hty ty).bind fun _ => .refl _
  | zero ty => exact (hty ty).bind fun _ => .refl _
  | global id => exact .refl _
  | func id => exact .refl _
  | array elemTy elems => exact (Constant.texts_stays ctx hle elems).bind fun _ => .refl _
  | vector elemTy elems => exact (Constant.texts_stays ctx hle elems).bind fun _ => .refl _
  | struct ty fields => exact (Constant.texts_stays ctx hle fields).bind fun _ => .refl _

theorem Constant.texts_stays (ctx : Context) {t : TypeStore} (hle : ctx.types ≤ t)
    (cs : List Constant) :
    Stays (Constant.texts ctx cs) (Constant.texts { ctx with types := t } cs) := by
  cases cs with
  | nil => exact .refl _
  | cons c cs =>
      exact (Constant.text_stays ctx hle c).bind fun _ =>
        (Constant.texts_stays ctx hle cs).bind fun _ => .refl _

end

section Declarations

variable (ctx : Context) {t : TypeStore} (hle : ctx.types ≤ t)
include hle

theorem Global.text_stays (g : Global) : Stays (g.text ctx) (g.text { ctx with types := t }) := by
  refine (ctx.typeText_stays hle g.ty).bind fun _ => ?_
  cases g.init with
  | none => exact .refl _
  | some c => exact ((c.text_stays ctx hle).map _).bind fun _ => .refl _

theorem Annotation.text_stays (a : Annotation) :
    Stays (a.text ctx) (a.text { ctx with types := t }) := by
  have hargs := Stays.mapM (fun p : Nat × Constant =>
    (p.2.text_stays ctx hle).bind fun text => .refl (pure (toString p.1 ++ " " ++ text))) a.args
  unfold Annotation.text
  cases a.ret with
  | none => exact hargs.bind fun _ => .refl _
  | some c => exact ((c.text_stays ctx hle).map _).bind fun _ => hargs.bind fun _ => .refl _

theorem Signature.tailText_stays (sig : Signature) :
    Stays (sig.tailText ctx) (sig.tailText { ctx with types := t }) := by
  have hret := (ctx.typeText_stays hle sig.ret).map (" -> " ++ ·)
  unfold Signature.tailText
  cases sig.annotation with
  | none =>
      dsimp only
      split
      · exact .refl _
      · exact hret.bind fun _ => .refl _
  | some a =>
      have hannotation := (a.text_stays ctx hle).map (" " ++ ·)
      dsimp only
      split
      · exact hannotation.bind fun _ => .refl _
      · exact hret.bind fun _ => hannotation.bind fun _ => .refl _

theorem Signature.textWith_stays (sig : Signature) (args : List String) :
    Stays (sig.textWith ctx args) (sig.textWith { ctx with types := t } args) :=
  (sig.tailText_stays ctx hle).bind fun _ => .refl _

theorem Signature.text_stays (sig : Signature) :
    Stays (sig.text ctx) (sig.text { ctx with types := t }) :=
  (Stays.mapM (ctx.typeText_stays hle) sig.args).bind fun args =>
    sig.textWith_stays ctx hle args

/-! ## Functions -/

namespace Function

theorem valueTextWithin_stays (g : Graph) (depth : Nat) (v : ValueId) :
    Stays (valueTextWithin ctx g depth v)
      (valueTextWithin { ctx with types := t } g depth v) := by
  have hty := ctx.typeText_stays hle
  induction depth using Nat.strongRecOn generalizing v with
  | ind depth ih =>
      unfold valueTextWithin
      refine Stays.bind (.refl _) fun val => ?_
      cases val with
      | imm value => exact (hty value.ty).bind fun _ => .refl _
      | null space => exact (hty (.ptr space)).bind fun _ => .refl _
      | undef ty => exact (hty ty).bind fun _ => .refl _
      | expr e ty =>
          cases depth with
          | zero => exact .refl _
          | succ depth =>
              have hpart := ih depth (Nat.lt_succ_self depth)
              cases e with
              | gep source result args =>
                  exact (hty source).bind fun _ => (Stays.mapM hpart args).bind fun _ => .refl _
              | cast op arg ty => exact (hpart arg).bind fun _ => (hty ty).bind fun _ => .refl _
      | _ => exact .refl _

variable (f : Function)

theorem valueText_stays (v : ValueId) :
    Stays (f.valueText ctx v) (f.valueText { ctx with types := t } v) :=
  valueTextWithin_stays ctx hle f.graph f.graph.values.size v

theorem operandsText_stays (vs : List ValueId) :
    Stays (f.operandsText ctx vs) (f.operandsText { ctx with types := t } vs) :=
  (Stays.mapM (f.valueText_stays ctx hle) vs).map _

theorem operationText_stays (inst : Inst) :
    Stays (f.operationText ctx inst) (f.operationText { ctx with types := t } inst) := by
  have hty := ctx.typeText_stays hle
  have hvalue := f.valueText_stays ctx hle
  have hoperands := f.operandsText_stays ctx hle
  cases inst with
  | unary op arg => exact (hvalue arg).bind fun _ => .refl _
  | binary op lhs rhs => exact (hoperands _).bind fun _ => .refl _
  | cast op arg ty => exact (hvalue arg).bind fun _ => .refl _
  | load ptr ty => exact (hvalue ptr).bind fun _ => .refl _
  | store value ptr => exact (hoperands _).bind fun _ => .refl _
  | rmw op ptr value => exact (hoperands _).bind fun _ => .refl _
  | cmpxchg ptr expected replacement => exact (hoperands _).bind fun _ => .refl _
  | gep source result args => exact (hty source).bind fun _ => (hoperands _).bind fun _ => .refl _
  | alloca ty space => exact (hty ty).bind fun _ => .refl _
  | call callee args retTy =>
      exact Stays.bind (.refl _) fun _ => (Stays.mapM hvalue args).bind fun _ => .refl _
  | select cond onTrue onFalse => exact (hoperands _).bind fun _ => .refl _
  | phi ty incoming =>
      refine (Stays.mapM (fun p => ?_) incoming).bind fun _ => .refl _
      exact (hvalue p.1).bind fun _ => .refl _
  | jump dest => exact .refl _
  | branch cond onTrue onFalse => exact (hvalue cond).bind fun _ => .refl _
  | ret value =>
      cases value with
      | none => exact .refl _
      | some v => exact (hvalue v).bind fun _ => .refl _

theorem instText_stays (i : InstId) :
    Stays (f.instText ctx i) (f.instText { ctx with types := t } i) := by
  have hty : ∀ v, Stays (f.graph.typeOf v >>= ctx.typeText)
      (f.graph.typeOf v >>= Context.typeText { ctx with types := t }) := fun v =>
    Stays.bind (.refl _) (ctx.typeText_stays hle)
  unfold instText
  cases f.graph.result? i with
  | none =>
      exact Stays.bind (.refl _) fun _ => Stays.bind (.refl _) fun inst =>
        (f.operationText_stays ctx hle inst).bind fun _ => .refl _
  | some v =>
      exact ((hty v).map _).bind fun _ => Stays.bind (.refl _) fun inst =>
        (f.operationText_stays ctx hle inst).bind fun _ => .refl _

theorem text_stays (id : FuncId) : Stays (f.text ctx id) (f.text { ctx with types := t } id) := by
  refine Stays.bind (.refl _) fun sig => ?_
  split
  · exact (sig.text_stays ctx hle).bind fun _ => .refl _
  · have harg : ∀ v, Stays (f.argText ctx v) (f.argText { ctx with types := t } v) := fun v =>
      (f.valueText_stays ctx hle v).bind fun _ => Stays.bind (.refl _) fun ty =>
        (ctx.typeText_stays hle ty).bind fun _ => .refl _
    have hblock : ∀ b, Stays (f.blockText ctx b) (f.blockText { ctx with types := t } b) := fun b =>
      (Stays.mapM (fun i => (f.instText_stays ctx hle i).bind fun _ => .refl _) _).bind
        fun _ => .refl _
    refine (Stays.mapM harg f.args).bind fun args => (sig.textWith_stays ctx hle args).bind
      fun _ => (Stays.mapM hblock _).bind fun _ => .refl _

end Function

end Declarations

/-! ## Modules -/

/-- In a later store in which no name was declared a module has the same text. -/
theorem Module.text_stays (m : Module) {t : TypeStore} (hnames : m.ctx.types.NamesHeld)
    (hle : m.ctx.types ≤ t) (hstructs : t.structs = m.ctx.types.structs) :
    Stays m.text (m.setTypes t).text := by
  have hnamed : t.namedStructs = m.ctx.types.namedStructs :=
    TypeStore.namedStructs_eq hnames hle hstructs
  have hlines : Stays (m.ctx.types.namedStructs.mapM m.ctx.types.structLine)
      (t.namedStructs.mapM t.structLine) := by
    rw [hnamed]
    exact Stays.mapM (TypeStore.structLine_stays hle) _
  refine hlines.bind fun _ => ?_
  refine (Stays.mapM (fun g => ?_) _).bind fun _ => ?_
  · exact (Global.text_stays m.ctx hle g).bind fun _ => .refl _
  · refine (Stays.mapM (fun p => ?_) _).bind fun _ => .refl _
    exact (p.2.text_stays m.ctx hle p.1).bind fun _ => .refl _

end Pointee
