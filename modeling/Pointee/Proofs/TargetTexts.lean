import Pointee.Target

/-!
# Reading targets

Reading a target inverts writing it: a text is read as `t` exactly if it is the text of `t`. For the
other texts `Target.FirstFault` says which complaint wins. It looks at the parts of the text, not at
the order in which the reader asks for them: the leftmost of the three parts that is missing or
unknown decides, and only a text with three known parts is refused for having more of them.
-/

namespace Pointee

/-! ## Readers of one part -/

namespace Target

/-- `parse` reads the written forms and complains of every other text in the same way. -/
structure ReadsBack {α : Type} (text : α → String) (parse : String → Except TargetError α)
    (complaint : TargetError) : Prop where
  parse_text : ∀ a, parse (text a) = .ok a
  parse_other : ∀ p, (¬ ∃ a, p = text a) → parse p = .error complaint

/-- Reads a part of `s` that must be there. -/
def readPart {α : Type} (s : String) (parse : String → Except TargetError α)
    (part : Option String) : Except TargetError α :=
  part.elim (.error (.malformed s)) parse

theorem ReadsBack.readPart_text {α : Type} {text : α → String}
    {parse : String → Except TargetError α} {complaint : TargetError}
    (h : ReadsBack text parse complaint) {part : Option String} {a : α}
    (hpart : part = some (text a)) (s : String) : readPart s parse part = .ok a := by
  rw [hpart]
  exact h.parse_text a

end Target

theorem Arch.readsBack : Target.ReadsBack Arch.text Arch.parse .unknownArch where
  parse_text a := by cases a <;> rfl
  parse_other p hp := by
    have h32 : p ≠ "air32" := fun h => hp ⟨.air32, h⟩
    have h64 : p ≠ "air64" := fun h => hp ⟨.air64, h⟩
    rw [Arch.parse, if_neg h32, if_neg h64]

theorem Format.readsBack : Target.ReadsBack Format.text Format.parse .unknownFormat where
  parse_text f := by cases f; rfl
  parse_other p hp := by
    have h : p ≠ "bitcode" := fun h => hp ⟨.bitcode, h⟩
    rw [Format.parse, if_neg h]

theorem Version.readsBack : Target.ReadsBack Version.text Version.parse .unknownVersion where
  parse_text v := by cases v <;> rfl
  parse_other p hp := by
    have h5 : p ≠ "5.0" := fun h => hp ⟨.v5, h⟩
    have h7 : p ≠ "7.0" := fun h => hp ⟨.v7, h⟩
    rw [Version.parse, if_neg h5, if_neg h7]

namespace Target

/-! ## Parts of a text -/

/-- What a text has before, between and behind its dashes. -/
structure Parts (s : String) (parts : List String) : Prop where
  joined : s = "-".intercalate parts
  dashless : ∀ p ∈ parts, '-' ∉ p.toList
  nonempty : parts ≠ []

theorem splitDashes_eq_splitOn (cs : List Char) : splitDashes cs = cs.splitOn '-' := by
  induction cs with
  | nil => rfl
  | cons c cs ih =>
      rw [splitDashes, List.splitOn_eq_splitOnP, List.splitOnP_cons_eq_if_modifyHead,
        ← List.splitOn_eq_splitOnP, ← ih]
      by_cases hc : c = '-'
      · simp [hc]
      · have hne : splitDashes cs ≠ [] := by
          rw [ih]
          exact List.splitOn_ne_nil _ _
        obtain ⟨p, ps, hparts⟩ := List.exists_cons_of_ne_nil hne
        simp [hc, hparts]

theorem dashless_splitDashes (cs : List Char) : ∀ p ∈ splitDashes cs, '-' ∉ p := by
  fun_induction splitDashes cs with
  | case1 => simp
  | case2 cs ih => simpa using ih
  | case3 c cs hc hparts ih => simpa using Ne.symm hc
  | case4 c cs hc p ps hparts ih =>
      rw [hparts] at ih
      simpa [Ne.symm hc] using ih

/-- A text has one list of parts, the one that the reader splits it into. -/
theorem parts_iff {s : String} {parts : List String} :
    Parts s parts ↔ parts = (splitDashes s.toList).map String.ofList := by
  rw [splitDashes_eq_splitOn]
  constructor
  · rintro ⟨rfl, hdashless, hne⟩
    have hsplit : ("-".intercalate parts).toList.splitOn '-' = parts.map String.toList := by
      rw [String.toList_intercalate]
      refine List.splitOn_intercalate '-' ?_ (by simp [hne])
      simpa using hdashless
    rw [hsplit, List.map_map]
    simp [Function.comp_def]
  · rintro rfl
    refine ⟨?_, ?_, by simp [List.splitOn_ne_nil]⟩
    · rw [← String.toList_inj, String.toList_intercalate, List.map_map]
      simp [Function.comp_def, List.intercalate_splitOn]
    · simpa [← splitDashes_eq_splitOn] using dashless_splitDashes s.toList

/-! ## Complaints -/

/-- The three parts of a target's text. -/
inductive Field where
  | arch
  | format
  | version
deriving DecidableEq

namespace Field

/-- Where the part stands. -/
def position : Field → Nat
  | arch => 0
  | format => 1
  | version => 2

/-- The texts that are supported there. -/
def Supports : Field → String → Prop
  | arch, p => ∃ a : Arch, p = a.text
  | format, p => ∃ f : Format, p = f.text
  | version, p => ∃ v : Version, p = v.text

/-- The complaint of a text that is not supported there. -/
def complaint : Field → TargetError
  | arch => .unknownArch
  | format => .unknownFormat
  | version => .unknownVersion

/-- The part is there, and it is supported. -/
def Holds (field : Field) (parts : List String) : Prop :=
  ∃ p, parts[field.position]? = some p ∧ field.Supports p

/-- What is wrong with a part that is missing or not supported. -/
inductive Fails (field : Field) (s : String) (parts : List String) : TargetError → Prop
  | missing : parts[field.position]? = none → Fails field s parts (.malformed s)
  | unsupported {p : String} :
      parts[field.position]? = some p → ¬ field.Supports p → Fails field s parts field.complaint

theorem fails_of_not_holds {field : Field} {parts : List String} (h : ¬ field.Holds parts)
    (s : String) : ∃ e, field.Fails s parts e := by
  cases hp : parts[field.position]? with
  | none => exact ⟨_, .missing hp⟩
  | some p => exact ⟨_, .unsupported hp fun hsupports => h ⟨p, hp, hsupports⟩⟩

/-- What is wrong with a part is what its reader complains of. -/
theorem Fails.readPart_eq {field : Field} {s : String} {parts : List String} {e : TargetError}
    (h : field.Fails s parts e) {α : Type} {text : α → String}
    {parse : String → Except TargetError α} (hreads : ReadsBack text parse field.complaint)
    (hsupports : ∀ a, field.Supports (text a)) :
    readPart s parse parts[field.position]? = .error e := by
  cases h with
  | missing hpart =>
      rw [hpart]
      rfl
  | unsupported hpart hp =>
      rw [hpart]
      refine hreads.parse_other _ ?_
      rintro ⟨a, rfl⟩
      exact hp (hsupports a)

/-- If not all parts have a property, there is a leftmost one without it. -/
theorem exists_leftmost {P : Field → Prop} (h : ¬ ∀ field, P field) :
    ∃ field, ¬ P field ∧ ∀ earlier : Field, earlier.position < field.position → P earlier := by
  obtain ⟨field, hfield⟩ := Classical.not_forall.1 h
  induction hn : field.position using Nat.strongRecOn generalizing field with
  | ind n ih =>
      by_cases hearlier : ∀ earlier : Field, earlier.position < field.position → P earlier
      · exact ⟨field, hfield, hearlier⟩
      · obtain ⟨earlier, hearlier⟩ := Classical.not_forall.1 hearlier
        obtain ⟨hlt, hfails⟩ := Classical.not_imp.1 hearlier
        exact ih _ (hn ▸ hlt) earlier hfails rfl

end Field

/-- The complaint about a text with the given parts: the one about the leftmost of the three parts
that is missing or not supported, or that there are more than three. -/
inductive FirstFault (s : String) (parts : List String) : TargetError → Prop
  | field (field : Field) {e : TargetError} :
      (∀ earlier : Field, earlier.position < field.position → earlier.Holds parts) →
      field.Fails s parts e → FirstFault s parts e
  | surplus : (∀ field : Field, field.Holds parts) → 3 < parts.length →
      FirstFault s parts (.malformed s)

/-- The parts of a target's text. -/
def texts (t : Target) : List String := [t.arch.text, t.format.text, t.version.text]

theorem parts_text (t : Target) : Parts t.text t.texts where
  joined := by simp [text, texts, String.append_assoc]
  dashless := by
    obtain ⟨arch, format, version⟩ := t
    cases arch <;> cases format <;> cases version <;> decide
  nonempty := by simp [texts]

/-- Three supported parts and nothing else are the parts of a target. -/
theorem eq_texts_of_holds {parts : List String} (h : ∀ field : Field, field.Holds parts)
    (hlen : parts.length ≤ 3) : ∃ t : Target, parts = t.texts := by
  obtain ⟨_, hp, arch, rfl⟩ := h .arch
  obtain ⟨_, hq, format, rfl⟩ := h .format
  obtain ⟨_, hr, version, rfl⟩ := h .version
  refine ⟨⟨arch, format, version⟩, ?_⟩
  match parts, hp, hq, hr, hlen with
  | [_, _, _], hp, hq, hr, _ =>
      cases hp
      cases hq
      cases hr
      rfl

/-- Parts that are not those of a target give rise to a complaint. -/
theorem texts_or_fault (s : String) (parts : List String) :
    (∃ t : Target, parts = t.texts) ∨ ∃ e, FirstFault s parts e := by
  by_cases hall : ∀ field : Field, field.Holds parts
  · by_cases hlen : 3 < parts.length
    · exact .inr ⟨_, .surplus hall hlen⟩
    · exact .inl (eq_texts_of_holds hall (Nat.le_of_not_lt hlen))
  · obtain ⟨field, hfield, hearlier⟩ := Field.exists_leftmost hall
    obtain ⟨e, he⟩ := Field.fails_of_not_holds hfield s
    exact .inr ⟨e, .field field hearlier he⟩

/-! ## Reading -/

/-- The reader looks at one part after the other, and at their number last. -/
theorem parse_eq {s : String} {parts : List String} (h : Parts s parts) :
    parse s =
      (readPart s Arch.parse parts[Field.arch.position]? >>= fun arch =>
        readPart s Format.parse parts[Field.format.position]? >>= fun format =>
          readPart s Version.parse parts[Field.version.position]? >>= fun version =>
            if parts.length = 3 then .ok ⟨arch, format, version⟩ else .error (.malformed s)) := by
  have hpart : ∀ i : Nat, parts[i]? = (splitDashes s.toList)[i]?.map String.ofList := by
    intro i
    rw [parts_iff.1 h, List.getElem?_map]
  have hlen : parts.length = (splitDashes s.toList).length := by
    rw [parts_iff.1 h, List.length_map]
  unfold parse
  simp only [hpart, hlen, Field.position]
  -- Whether a part is there decides between the same two continuations on both sides.
  cases (splitDashes s.toList)[0]? <;> cases (splitDashes s.toList)[1]? <;>
    cases (splitDashes s.toList)[2]? <;> rfl

/-- If all three parts are supported, their number decides. -/
theorem parse_of_texts {s : String} {parts : List String} (h : Parts s parts) {t : Target}
    (harch : parts[Field.arch.position]? = some t.arch.text)
    (hformat : parts[Field.format.position]? = some t.format.text)
    (hversion : parts[Field.version.position]? = some t.version.text) :
    parse s = if parts.length = 3 then .ok t else .error (.malformed s) := by
  rw [parse_eq h, Arch.readsBack.readPart_text harch, Format.readsBack.readPart_text hformat,
    Version.readsBack.readPart_text hversion]
  rfl

/-- A text that gives rise to a complaint is refused with it. -/
theorem parse_of_fault {s : String} {parts : List String} {e : TargetError} (h : Parts s parts)
    (hfault : FirstFault s parts e) : parse s = .error e := by
  cases hfault with
  | field field hearlier hfails =>
      -- The parts before the one that fails are read, and the reader stops there.
      rw [parse_eq h]
      cases field with
      | arch =>
          rw [hfails.readPart_eq Arch.readsBack fun a => ⟨a, rfl⟩]
          rfl
      | format =>
          obtain ⟨_, harch, arch, rfl⟩ := hearlier .arch (by decide)
          rw [Arch.readsBack.readPart_text harch,
            hfails.readPart_eq Format.readsBack fun f => ⟨f, rfl⟩]
          rfl
      | version =>
          obtain ⟨_, harch, arch, rfl⟩ := hearlier .arch (by decide)
          obtain ⟨_, hformat, format, rfl⟩ := hearlier .format (by decide)
          rw [Arch.readsBack.readPart_text harch, Format.readsBack.readPart_text hformat,
            hfails.readPart_eq Version.readsBack fun v => ⟨v, rfl⟩]
          rfl
  | surplus hall hlen =>
      obtain ⟨_, harch, arch, rfl⟩ := hall .arch
      obtain ⟨_, hformat, format, rfl⟩ := hall .format
      obtain ⟨_, hversion, version, rfl⟩ := hall .version
      rw [parse_of_texts h (t := ⟨arch, format, version⟩) harch hformat hversion,
        if_neg (Nat.ne_of_gt hlen)]

theorem parse_text (t : Target) : parse t.text = .ok t :=
  (parse_of_texts t.parts_text rfl rfl rfl).trans (if_pos rfl)

/-- A text is read as a target exactly if it is the text of that target. Every other text is refused
for the leftmost of its first three parts that is missing or not supported, or, if all of them are
supported, for having more than three. -/
theorem parse_inverts_text (s : String) :
    (∀ t, parse s = .ok t ↔ s = t.text) ∧
    ∃ parts, Parts s parts ∧ (∀ others, Parts s others → others = parts) ∧
      ∀ e, parse s = .error e ↔ FirstFault s parts e := by
  obtain ⟨parts, hparts⟩ : ∃ parts, Parts s parts := ⟨_, parts_iff.2 rfl⟩
  -- Each text is of one kind or the other, so what the reader does on each kind settles both
  -- equivalences.
  have hcases : (∃ t : Target, s = t.text) ∨ ∃ e, FirstFault s parts e := by
    refine (texts_or_fault s parts).imp_left fun ⟨t, ht⟩ => ⟨t, ?_⟩
    rw [hparts.joined, ht, t.parts_text.joined]
  refine ⟨fun t => ⟨fun h => ?_, ?_⟩, parts, hparts, fun others hothers => ?_,
    fun e => ⟨fun h => ?_, parse_of_fault hparts⟩⟩
  · obtain ⟨t', rfl⟩ | ⟨e, he⟩ := hcases
    · cases (parse_text t').symm.trans h
      rfl
    · cases (parse_of_fault hparts he).symm.trans h
  · rintro rfl
    exact parse_text t
  · rw [parts_iff.1 hothers, parts_iff.1 hparts]
  · obtain ⟨t, rfl⟩ | ⟨e', he⟩ := hcases
    · cases (parse_text t).symm.trans h
    · cases (parse_of_fault hparts he).symm.trans h
      exact he

end Target

end Pointee
