import Pointee.Proofs.TextStability

/-!
# Types are told apart by their texts

The texts of types form a grammar in which types overlap: a vector of structs starts like a packed
struct, a pointer to a function like a pointer into an address space, and `i1` like `i16`. No two
types have the same text all the same. `Legible` is what the texts of the parts have to satisfy for
one more layer of the grammar to be read in one way, whatever follows. `Spells.unique` is the case
split over that layer, and the rest is an induction over the depth of a type.
-/

namespace Pointee

/-! ## Words, numbers and marks -/

/-- A word over an alphabet ends where a character of no such word follows. -/
theorem append_inj_of_alphabet {p : Char → Bool} {a b r r' : List Char}
    (ha : ∀ c ∈ a, p c = true) (hb : ∀ c ∈ b, p c = true) (hr : ∀ c ∈ r.head?, p c = false)
    (hr' : ∀ c ∈ r'.head?, p c = false) (h : a ++ r = b ++ r') : a = b ∧ r = r' := by
  induction a generalizing b with
  | nil =>
      cases b with
      | nil => exact ⟨rfl, h⟩
      | cons c b =>
          have hc : p c = false := hr c (congrArg List.head? h)
          cases hc.symm.trans (hb c List.mem_cons_self)
  | cons c a ih =>
      cases b with
      | nil =>
          have hc : p c = false := hr' c (congrArg List.head? h.symm)
          cases hc.symm.trans (ha c List.mem_cons_self)
      | cons d b =>
          rw [List.forall_mem_cons] at ha hb
          obtain ⟨hhead, htail⟩ := List.cons.inj h
          obtain ⟨rfl, hrest⟩ := ih ha.2 hb.2 htail
          exact ⟨by rw [hhead], hrest⟩

theorem isDigit_of_mem_toDigits {n : Nat} {c : Char} (h : c ∈ Nat.toDigits 10 n) :
    c.isDigit = true :=
  Nat.isDigit_of_mem_toDigits (by omega) (by omega) h

/-- A number ends where the next character is no digit. -/
theorem toDigits_append_inj {n k : Nat} {c : Char} {r r' : List Char} (hc : c.isDigit = false)
    (h : Nat.toDigits 10 n ++ c :: r = Nat.toDigits 10 k ++ c :: r') : n = k ∧ r = r' := by
  obtain ⟨hdigits, hrest⟩ := append_inj_of_alphabet (p := Char.isDigit)
    (fun _ => isDigit_of_mem_toDigits) (fun _ => isDigit_of_mem_toDigits) (by simpa using hc)
    (by simpa using hc) h
  have hvalue := congrArg (fun digits => Nat.ofDigitChars 10 digits 0) hdigits
  simp only [Nat.ofDigitChars_ten_toDigits] at hvalue
  exact ⟨hvalue, (List.cons.inj hrest).2⟩

/-- What follows is no number in parentheses. -/
def Unmarked (r : List Char) : Prop := ∀ c rest, r = '(' :: c :: rest → c.isDigit = false

namespace AddrSpace

theorem toList_mark (s : AddrSpace) :
    s.mark.toList = if s = generic then [] else '(' :: (Nat.toDigits 10 s.number ++ [')']) := by
  unfold mark
  split
  · rfl
  · simp

/-- The mark of an address space ends where no other mark begins. -/
theorem mark_append_inj {a b : AddrSpace} {r r' : List Char} (hr : Unmarked r) (hr' : Unmarked r')
    (h : a.mark.toList ++ r = b.mark.toList ++ r') : a = b ∧ r = r' := by
  -- Where one space is marked and the other one is not, the mark would have to follow the other.
  have hmarked : ∀ {s : AddrSpace} {x y : List Char}, Unmarked x →
      x ≠ '(' :: (Nat.toDigits 10 s.number ++ [')']) ++ y := by
    rintro s x y hx rfl
    obtain ⟨c, rest, hdigits⟩ := List.exists_cons_of_ne_nil (Nat.toDigits_ne_nil (n := s.number))
    have hc : c.isDigit = true := isDigit_of_mem_toDigits (hdigits ▸ List.mem_cons_self)
    rw [hdigits] at hx
    cases hc.symm.trans (hx c _ rfl)
  rw [toList_mark, toList_mark] at h
  split at h
  · next ha =>
      split at h
      · next hb => exact ⟨ha.trans hb.symm, h⟩
      · exact absurd h (hmarked hr)
  · split at h
    · exact absurd h.symm (hmarked hr')
    · simp only [List.cons_append, List.append_assoc, List.nil_append, List.cons.injEq,
        true_and] at h
      obtain ⟨hnumber, hrest⟩ := toDigits_append_inj rfl h
      cases a
      cases b
      cases hnumber
      exact ⟨rfl, hrest⟩

end AddrSpace

/-- The characters that may follow a type: those before a length or before another type of a list,
and the end of a list. -/
def stops : List Char := [';', ',', '\x7d', ')']

/-- The characters that a type may start with. -/
def openers : List Char := ['i', 'f', 'u', 'p', '[', '<', '@', '\x7b', '(', '*']

/-- The characters that the text of a compound type may start with. -/
def compoundHeads : List Char := ['[', '<', '@', '\x7b', '(', '*']

/-- What follows a type: nothing, or one of the characters that may follow it. -/
def Stops (r : List Char) : Prop := ∀ c ∈ r.head?, c ∈ stops

namespace Stops

variable {r : List Char}

theorem nil : Stops [] := fun _ h => nomatch h

theorem cons {c : Char} (h : c ∈ stops) : Stops (c :: r) := by
  rintro _ ⟨⟩
  exact h

theorem head_not {p : Char → Bool} (h : Stops r) (hp : stops.all fun c => !p c) :
    ∀ c ∈ r.head?, p c = false := by
  intro c hc
  simpa using List.all_eq_true.1 hp c (h c hc)

theorem unmarked (h : Stops r) : Unmarked r := by
  rintro c rest rfl
  exact absurd (h '(' rfl) (by decide)

end Stops

theorem Unmarked.append {cs r : List Char} (h : Unmarked cs) (hr : Stops r) :
    Unmarked (cs ++ r) := by
  intro c rest heq
  cases cs with
  | nil => exact hr.unmarked c rest heq
  | cons d cs =>
      obtain ⟨rfl, htail⟩ := List.cons.inj heq
      cases cs with
      | nil =>
          have hhead : r.head? = some c := congrArg List.head? htail
          exact hr.head_not (p := Char.isDigit) (by decide) c hhead
      | cons e cs =>
          obtain ⟨rfl, -⟩ := List.cons.inj htail
          exact h e cs rfl

/-! ## One layer of the grammar

A relation `w` says how the parts of a type are spelled. -/

section Layer

variable {w w' : Ty → List Char → Prop}

/-- The text between the delimiters of a list of types. -/
inductive SpellsAll (w : Ty → List Char → Prop) : List Ty → List Char → Prop where
  | nil : SpellsAll w [] []
  | one {t cs} (head : w t cs) : SpellsAll w [t] cs
  | more {t u ts cs cs'} (head : w t cs) (tail : SpellsAll w (u :: ts) cs') :
      SpellsAll w (t :: u :: ts) (cs ++ ',' :: ' ' :: cs')

/-- The text of a compound type. -/
inductive Spells (w : Ty → List Char → Prop) : Compound → List Char → Prop where
  | array {elem len cs} (h : w elem cs) :
      Spells w (.array elem len) ('[' :: (cs ++ ';' :: ' ' :: (Nat.toDigits 10 len ++ [']'])))
  | vector {elem len cs} (h : w elem cs) :
      Spells w (.vector elem len) ('<' :: (cs ++ ';' :: ' ' :: (Nat.toDigits 10 len ++ ['>'])))
  | named {name : String} {fields} :
      Spells w (.struct ⟨some name, fields, false⟩) ('@' :: name.toList)
  | namedPacked {name : String} {fields} :
      Spells w (.struct ⟨some name, fields, true⟩) ('@' :: '<' :: (name.toList ++ ['>']))
  | literal {fields cs} (h : SpellsAll w fields cs) :
      Spells w (.struct ⟨none, fields, false⟩) ('\x7b' :: (cs ++ ['\x7d']))
  | literalPacked {fields cs} (h : SpellsAll w fields cs) :
      Spells w (.struct ⟨none, fields, true⟩) ('<' :: '\x7b' :: (cs ++ ['\x7d', '>']))
  | func {args ret cs cs'} (h : SpellsAll w args cs) (hret : w ret cs') :
      Spells w (.func args ret) ('(' :: (cs ++ ')' :: ' ' :: '-' :: '>' :: ' ' :: cs'))
  | typedPtr {pointee cs} {space : AddrSpace} (h : w pointee cs) :
      Spells w (.typedPtr pointee space) ('*' :: (space.mark.toList ++ cs))

/-- The texts of types can be read in one way. What follows a type does not matter as long as it
may follow one; the other fields are what a reader sees before it knows the type. -/
structure Legible (w : Ty → List Char → Prop) : Prop where
  opens : ∀ {t cs}, w t cs → ∃ c rest, cs = c :: rest ∧ c ∈ openers
  /-- No type starts like the mark of an address space. -/
  unmarked : ∀ {t cs}, w t cs → Unmarked cs
  /-- What starts with a brace is a list of types in braces and no more. -/
  braced : ∀ {t cs}, w t ('\x7b' :: cs) → ∃ fields cs', cs = cs' ++ ['\x7d'] ∧
    SpellsAll w fields cs'
  unique : ∀ {t u cs cs' r r'}, w t cs → w u cs' → Stops r → Stops r' → cs ++ r = cs' ++ r' →
    t = u ∧ r = r'

namespace SpellsAll

variable {ts us : List Ty} {t : Ty} {cs cs' : List Char}

theorem mono (hle : ∀ t cs, w t cs → w' t cs) (h : SpellsAll w ts cs) : SpellsAll w' ts cs := by
  induction h with
  | nil => exact .nil
  | one head => exact .one (hle _ _ head)
  | more head _ ih => exact .more (hle _ _ head) ih

theorem opens (hw : Legible w) (h : SpellsAll w (t :: ts) cs) :
    ∃ c rest, cs = c :: rest ∧ c ∈ openers := by
  cases h with
  | one head => exact hw.opens head
  | more head =>
      obtain ⟨c, rest, rfl, hc⟩ := hw.opens head
      exact ⟨c, _, rfl, hc⟩

/-- A list of types ends where the delimiter closes. -/
theorem unique (hw : Legible w) {c : Char} {r r' : List Char} (hc : c ∈ ['\x7d', ')'])
    (h : SpellsAll w ts cs) (h' : SpellsAll w us cs') (heq : cs ++ c :: r = cs' ++ c :: r') :
    ts = us ∧ r = r' := by
  have hcloser : ∀ c ∈ ['\x7d', ')'], c ∈ stops ∧ c ∉ openers ∧ c ≠ ',' := by
    simp [stops, openers]
  obtain ⟨hstop, hopener, hcomma⟩ := hcloser c hc
  -- Where one list is empty and the other one is not, a type would have to start with the closer.
  have hempty : ∀ {t : Ty} {ts : List Ty} {cs x y : List Char},
      SpellsAll w (t :: ts) cs → c :: x ≠ cs ++ y := by
    intro t ts cs x y h heq
    obtain ⟨d, rest, rfl, hd⟩ := h.opens hw
    obtain ⟨rfl, -⟩ := List.cons.inj heq
    exact hopener hd
  induction h generalizing us cs' with
  | nil =>
      cases h' with
      | nil => exact ⟨rfl, (List.cons.inj heq).2⟩
      | one head => exact absurd heq (hempty (.one head))
      | more head tail => exact absurd heq (hempty (.more head tail))
  | one head =>
      cases h' with
      | nil => exact absurd heq.symm (hempty (.one head))
      | one head' =>
          obtain ⟨rfl, hrest⟩ := hw.unique head head' (.cons hstop) (.cons hstop) heq
          exact ⟨rfl, (List.cons.inj hrest).2⟩
      | more head' tail' =>
          rw [List.append_assoc] at heq
          obtain ⟨-, hrest⟩ := hw.unique head head' (.cons hstop) (.cons (by decide)) heq
          exact absurd (List.cons.inj hrest).1 hcomma
  | more head tail ih =>
      rw [List.append_assoc] at heq
      cases h' with
      | nil => exact absurd heq.symm (hempty (.one head))
      | one head' =>
          obtain ⟨-, hrest⟩ := hw.unique head head' (.cons (by decide)) (.cons hstop) heq
          exact absurd (List.cons.inj hrest).1.symm hcomma
      | more head' tail' =>
          rw [List.append_assoc] at heq
          obtain ⟨rfl, hrest⟩ := hw.unique head head' (.cons (by decide)) (.cons (by decide)) heq
          obtain ⟨htypes, hrest⟩ := ih tail' (by simpa using hrest)
          exact ⟨congrArg _ htypes, hrest⟩

end SpellsAll

/-- The characters that the name of a struct may have: letters of any script, digits, underscores
and dots. -/
def isNameChar (c : Char) : Bool := c.isAlphanum || c = '_' || c = '.' || 127 < c.toNat

/-- The name of a struct, if the compound type is a named one, is made of such characters. -/
def Compound.PlainName (c : Compound) : Prop :=
  ∀ name, c.structName? = some name → ∀ x ∈ name.toList, isNameChar x = true

namespace Spells

variable {c c' : Compound} {cs cs' r r' : List Char}

theorem head (h : Spells w c cs) : ∃ x rest, cs = x :: rest ∧ x ∈ compoundHeads := by
  cases h <;> exact ⟨_, _, rfl, by decide⟩

theorem cons_ne {x : Char} {y : List Char} (h : Spells w c cs) (hx : x ∉ compoundHeads) :
    x :: y ≠ cs ++ r := by
  intro heq
  obtain ⟨z, rest, rfl, hz⟩ := h.head
  exact hx ((List.cons.inj heq).1 ▸ hz)

/-- An element type and a length end where the bracket closes. -/
theorem counted_unique (hw : Legible w) {elem elem' : Ty} {n k : Nat} {x : Char}
    (hx : x.isDigit = false) (h : w elem cs) (h' : w elem' cs')
    (heq : cs ++ ';' :: ' ' :: (Nat.toDigits 10 n ++ x :: r) =
      cs' ++ ';' :: ' ' :: (Nat.toDigits 10 k ++ x :: r')) : elem = elem' ∧ n = k ∧ r = r' := by
  obtain ⟨helem, hrest⟩ := hw.unique h h' (.cons (by decide)) (.cons (by decide)) heq
  exact ⟨helem, toDigits_append_inj hx (List.cons.inj (List.cons.inj hrest).2).2⟩

/-- A vector is told from a packed struct by what follows the brace. -/
theorem counted_ne_packed (hw : Legible w) {elem : Ty} {fields : List Ty} {x y : List Char}
    (h : w elem cs) (h' : SpellsAll w fields cs') :
    cs ++ ';' :: x ≠ '\x7b' :: (cs' ++ '\x7d' :: '>' :: y) := by
  intro heq
  obtain ⟨first, rest, rfl, -⟩ := hw.opens h
  obtain ⟨rfl, hrest⟩ := List.cons.inj heq
  obtain ⟨inner, texts, rfl, hinner⟩ := hw.braced h
  have hrest : texts ++ '\x7d' :: ';' :: x = cs' ++ '\x7d' :: '>' :: y := by simpa using hrest
  obtain ⟨-, hend⟩ := hinner.unique hw (by decide) h' hrest
  simp at hend

/-- A name is told from a packed struct's name by the bracket. -/
theorem name_ne_packed {name : String} {x : List Char}
    (hname : ∀ c ∈ name.toList, isNameChar c = true) (hr : Stops r) :
    name.toList ++ r ≠ '<' :: x := by
  intro heq
  obtain ⟨-, rfl⟩ := append_inj_of_alphabet (b := []) hname nofun
    (hr.head_not (by decide)) (by rintro _ ⟨⟩; rfl) heq
  exact absurd (hr '<' rfl) (by decide)

/-- Compound types with the same text have the same name, and are equal if they have none. -/
theorem unique (hw : Legible w) (hc : c.PlainName) (hc' : c'.PlainName) (hr : Stops r)
    (hr' : Stops r') (h : Spells w c cs) (h' : Spells w c' cs') (heq : cs ++ r = cs' ++ r') :
    (c.structName? = c'.structName? ∧ (c.structName? = none → c = c')) ∧ r = r' := by
  -- Pairs that start with the same character are cases of their own, the others differ at once.
  cases h with
  | array h =>
      cases h' with
      | array h' =>
          obtain ⟨rfl, rfl, hrest⟩ := counted_unique hw (x := ']') rfl h h'
            (by simpa using heq)
          exact ⟨⟨rfl, fun _ => rfl⟩, hrest⟩
      | _ => simp at heq
  | vector h =>
      cases h' with
      | vector h' =>
          obtain ⟨rfl, rfl, hrest⟩ := counted_unique hw (x := '>') rfl h h'
            (by simpa using heq)
          exact ⟨⟨rfl, fun _ => rfl⟩, hrest⟩
      | literalPacked h' => exact absurd (by simpa using heq) (counted_ne_packed hw h h')
      | _ => simp at heq
  | named =>
      cases h' with
      | named =>
          obtain ⟨hname, hrest⟩ := append_inj_of_alphabet (hc _ rfl) (hc' _ rfl)
            (hr.head_not (by decide)) (hr'.head_not (by decide)) (List.cons.inj heq).2
          exact ⟨⟨congrArg some (String.toList_injective hname), nofun⟩, hrest⟩
      | namedPacked => exact absurd (List.cons.inj heq).2 (name_ne_packed (hc _ rfl) hr)
      | _ => simp at heq
  | namedPacked =>
      cases h' with
      | named => exact absurd (List.cons.inj heq).2.symm (name_ne_packed (hc' _ rfl) hr')
      | namedPacked =>
          have hclosed : ∀ r, ∀ c ∈ ('>' :: r : List Char).head?, isNameChar c = false := by
            rintro r _ ⟨⟩
            rfl
          obtain ⟨hname, hrest⟩ := append_inj_of_alphabet (hc _ rfl) (hc' _ rfl) (hclosed r)
            (hclosed r') (by simpa using heq)
          exact ⟨⟨congrArg some (String.toList_injective hname), nofun⟩, (List.cons.inj hrest).2⟩
      | _ => simp at heq
  | literal h =>
      cases h' with
      | literal h' =>
          obtain ⟨rfl, hrest⟩ := h.unique hw (c := '\x7d') (by decide) h' (by simpa using heq)
          exact ⟨⟨rfl, fun _ => rfl⟩, hrest⟩
      | _ => simp at heq
  | literalPacked h =>
      cases h' with
      | vector h' => exact absurd (by simpa using heq.symm) (counted_ne_packed hw h' h)
      | literalPacked h' =>
          obtain ⟨rfl, hrest⟩ := h.unique hw (c := '\x7d') (by decide) h' (by simpa using heq)
          exact ⟨⟨rfl, fun _ => rfl⟩, (List.cons.inj hrest).2⟩
      | _ => simp at heq
  | func h hret =>
      cases h' with
      | func h' hret' =>
          obtain ⟨rfl, hrest⟩ := h.unique hw (c := ')') (by decide) h' (by simpa using heq)
          obtain ⟨rfl, hrest⟩ := hw.unique hret hret' hr hr' (by simpa using hrest)
          exact ⟨⟨rfl, fun _ => rfl⟩, hrest⟩
      | _ => simp at heq
  | typedPtr h =>
      cases h' with
      | typedPtr h' =>
          obtain ⟨rfl, hrest⟩ := AddrSpace.mark_append_inj ((hw.unmarked h).append hr)
            ((hw.unmarked h').append hr') (by simpa using heq)
          obtain ⟨rfl, hrest⟩ := hw.unique h h' hr hr' hrest
          exact ⟨⟨rfl, fun _ => rfl⟩, hrest⟩
      | _ => simp at heq

theorem mono (hle : ∀ t cs, w t cs → w' t cs) (h : Spells w c cs) : Spells w' c cs := by
  cases h with
  | array h => exact .array (hle _ _ h)
  | vector h => exact .vector (hle _ _ h)
  | named => exact .named
  | namedPacked => exact .namedPacked
  | literal h => exact .literal (h.mono hle)
  | literalPacked h => exact .literalPacked (h.mono hle)
  | func h hret => exact .func (h.mono hle) (hle _ _ hret)
  | typedPtr h => exact .typedPtr (hle _ _ h)

/-- Only a function type starts with a parenthesis, and what follows is a type or closes it. -/
theorem unmarked (hw : Legible w) (h : Spells w c cs) : Unmarked cs := by
  intro x rest heq
  have hdigit : ∀ c ∈ openers, c.isDigit = false := by simp [openers, Char.isDigit]
  cases h with
  | @func args ret _ _ hargs =>
      obtain ⟨-, htail⟩ := List.cons.inj heq
      cases args with
      | nil =>
          cases hargs
          obtain ⟨rfl, -⟩ := List.cons.inj htail
          rfl
      | cons arg args =>
          obtain ⟨first, others, rfl, hfirst⟩ := hargs.opens hw
          obtain ⟨rfl, -⟩ := List.cons.inj htail
          exact hdigit first hfirst
  | _ => simp at heq

theorem braced (h : Spells w c ('\x7b' :: cs)) :
    ∃ fields cs', cs = cs' ++ ['\x7d'] ∧ SpellsAll w fields cs' := by
  generalize heq : '\x7b' :: cs = text at h
  cases h with
  | literal h => exact ⟨_, _, (List.cons.inj heq).2, h⟩
  | _ => simp at heq

end Spells

end Layer

/-! ## Scalars, opaque pointers and handles -/

namespace Ty

variable {t u : Ty} {a : String}

/-- The scalar types and their names. -/
def scalars : List (Ty × String) :=
  [(i1, "i1"), (i8, "i8"), (i16, "i16"), (i32, "i32"), (i64, "i64"), (i128, "i128"),
    (f32, "f32"), (f64, "f64"), (unit, "unit")]

/-- Scalars start like no other type. -/
theorem scalars_head (h : (t, a) ∈ scalars) :
    ∃ x rest, a.toList = x :: rest ∧ x ∈ openers ∧ x ≠ 'p' ∧ x ∉ compoundHeads := by
  have hall : ∀ p ∈ scalars, ∃ x, p.2.toList = x :: p.2.toList.tail ∧ x ∈ openers ∧ x ≠ 'p' ∧
      x ∉ compoundHeads := by simp [scalars, openers, compoundHeads]
  obtain ⟨x, heq, hne⟩ := hall _ h
  exact ⟨x, _, heq, hne⟩

/-- The name of a scalar ends where no letter or digit follows. -/
theorem scalars_append_inj {b : String} {r r' : List Char} (h : (t, a) ∈ scalars)
    (h' : (u, b) ∈ scalars) (hr : Stops r) (hr' : Stops r') (heq : a.toList ++ r = b.toList ++ r') :
    t = u ∧ r = r' := by
  have halphanum : ∀ p ∈ scalars, p.2.toList.all Char.isAlphanum := by decide
  have hinj : ∀ p ∈ scalars, ∀ q ∈ scalars, p.2 = q.2 → p.1 = q.1 := by decide
  obtain ⟨hname, hrest⟩ := append_inj_of_alphabet (List.all_eq_true.1 (halphanum _ h))
    (List.all_eq_true.1 (halphanum _ h')) (hr.head_not (by decide)) (hr'.head_not (by decide)) heq
  exact ⟨hinj _ h _ h' (String.toList_injective hname), hrest⟩

end Ty

/-- The text of a type over the rows of a store. -/
inductive SpellsType (s : TypeStore) (w : Ty → List Char → Prop) : Ty → List Char → Prop where
  | scalar {t} {a : String} (h : (t, a) ∈ Ty.scalars) : SpellsType s w t a.toList
  | ptr {space : AddrSpace} : SpellsType s w (.ptr space) ('p' :: 't' :: 'r' :: space.mark.toList)
  | compound {id c cs} (row : s.get id = .ok c) (h : Spells w c cs) :
      SpellsType s w (.compound id) cs

/-- Rows of the same name are the same row, and so are rows with the same compound type. -/
theorem TypeStore.Consistent.row_unique {s : TypeStore} (hs : s.Consistent) {id id' : TypeId}
    {c c' : Compound} (row : s.get id = .ok c) (row' : s.get id' = .ok c')
    (hname : c.structName? = c'.structName?) (hsame : c.structName? = none → c = c') :
    id = id' := by
  cases hc : c.structName? with
  | none =>
      cases hsame hc
      exact Option.some.inj (((hs.handle id c).2 row).symm.trans ((hs.handle id' c).2 row'))
  | some name =>
      have hid := hs.lookup_eq_some.2 ((hs.name name id).2 ⟨c, row, hc⟩)
      have hid' := hs.lookup_eq_some.2 ((hs.name name id').2 ⟨c', row', hname ▸ hc⟩)
      exact Option.some.inj (hid.symm.trans hid')

namespace SpellsType

variable {s : TypeStore} {w w' : Ty → List Char → Prop} {t u : Ty} {cs cs' r r' : List Char}

theorem mono (hle : ∀ t cs, w t cs → w' t cs) (h : SpellsType s w t cs) : SpellsType s w' t cs := by
  cases h with
  | scalar h => exact .scalar h
  | ptr => exact .ptr
  | compound row h => exact .compound row (h.mono hle)

/-- Types with the same text are equal: a name stands for one row, and so does a compound type. -/
theorem unique (hs : s.Consistent) (hnames : ∀ id c, s.get id = .ok c → c.PlainName)
    (hw : Legible w) (h : SpellsType s w t cs) (h' : SpellsType s w u cs') (hr : Stops r)
    (hr' : Stops r') (heq : cs ++ r = cs' ++ r') : t = u ∧ r = r' := by
  cases h with
  | scalar h =>
      obtain ⟨x, rest, hx, -, hptr, hcompound⟩ := Ty.scalars_head h
      cases h' with
      | scalar h' => exact Ty.scalars_append_inj h h' hr hr' heq
      | ptr =>
          rw [hx] at heq
          exact absurd (List.cons.inj heq).1 hptr
      | compound _ h' =>
          rw [hx] at heq
          exact absurd heq (h'.cons_ne hcompound)
  | ptr =>
      cases h' with
      | scalar h' =>
          obtain ⟨x, rest, hx, -, hptr, -⟩ := Ty.scalars_head h'
          rw [hx] at heq
          exact absurd (List.cons.inj heq).1.symm hptr
      | ptr =>
          obtain ⟨rfl, hrest⟩ := AddrSpace.mark_append_inj hr.unmarked hr'.unmarked
            (by simpa using heq)
          exact ⟨rfl, hrest⟩
      | compound _ h' => exact absurd heq (h'.cons_ne (by decide))
  | compound row h =>
      cases h' with
      | scalar h' =>
          obtain ⟨x, rest, hx, -, -, hcompound⟩ := Ty.scalars_head h'
          rw [hx] at heq
          exact absurd heq.symm (h.cons_ne hcompound)
      | ptr => exact absurd heq.symm (h.cons_ne (by decide))
      | compound row' h' =>
          obtain ⟨⟨hname, hsame⟩, hrest⟩ :=
            h.unique hw (hnames _ _ row) (hnames _ _ row') hr hr' h' heq
          exact ⟨congrArg Ty.compound (hs.row_unique row row' hname hsame), hrest⟩

theorem legible (hs : s.Consistent) (hnames : ∀ id c, s.get id = .ok c → c.PlainName)
    (hw : Legible w) (hle : ∀ t cs, w t cs → SpellsType s w t cs) : Legible (SpellsType s w) where
  opens h := by
    have hsub : ∀ x ∈ compoundHeads, x ∈ openers := by simp [compoundHeads, openers]
    cases h with
    | scalar h =>
        obtain ⟨x, rest, hx, hopener, -⟩ := Ty.scalars_head h
        exact ⟨x, rest, hx, hopener⟩
    | ptr => exact ⟨_, _, rfl, by decide⟩
    | compound _ h =>
        obtain ⟨x, rest, rfl, hx⟩ := h.head
        exact ⟨x, rest, rfl, hsub x hx⟩
  unmarked h := by
    cases h with
    | scalar h =>
        obtain ⟨x, rest, hx, -, -, hcompound⟩ := Ty.scalars_head h
        rintro c rest' heq
        rw [hx] at heq
        cases heq
        exact absurd (by decide) hcompound
    | ptr => exact fun c rest heq => nomatch heq
    | compound _ h => exact h.unmarked hw
  braced {t cs} h := by
    generalize heq : '\x7b' :: cs = text at h
    cases h with
    | scalar h =>
        obtain ⟨x, rest, hx, -, -, hcompound⟩ := Ty.scalars_head h
        rw [hx] at heq
        cases heq
        exact absurd (by decide) hcompound
    | ptr => simp at heq
    | compound _ h =>
        subst heq
        obtain ⟨fields, cs', hcs, hfields⟩ := h.braced
        exact ⟨fields, cs', hcs, hfields.mono hle⟩
  unique h h' hr hr' heq := h.unique hs hnames hw h' hr hr' heq

end SpellsType

/-! ## Texts of types -/

namespace TypeStore

variable {s : TypeStore} {t u : Ty} {a : String}

/-- The text of a type whose handles are nested less than `depth` deep, as a grammar. -/
def Spelled (s : TypeStore) : Nat → Ty → List Char → Prop
  | 0 => fun _ _ => False
  | depth + 1 => SpellsType s (s.Spelled depth)

theorem spelled_succ {depth : Nat} {cs : List Char} (h : s.Spelled depth t cs) :
    s.Spelled (depth + 1) t cs := by
  induction depth generalizing t cs with
  | zero => cases h
  | succ depth ih => exact SpellsType.mono (fun _ _ => ih) h

/-- Each layer is read in one way because the layer below is. -/
theorem legible_spelled (hs : s.Consistent) (hnames : ∀ id c, s.get id = .ok c → c.PlainName)
    (depth : Nat) : Legible (s.Spelled depth) := by
  induction depth with
  | zero => exact ⟨nofun, nofun, nofun, nofun⟩
  | succ depth ih => exact SpellsType.legible hs hnames ih fun _ _ => spelled_succ

/-- The texts of some types, separated by commas, are the text of their list. -/
theorem spellsAll_intercalate {w : Ty → List Char → Prop} {types : List Ty} {texts : List String}
    (h : List.Forall₂ (fun t a => w t a.toList) types texts) :
    SpellsAll w types (", ".intercalate texts).toList := by
  induction h with
  | nil => exact .nil
  | @cons t a types texts head tail ih =>
      cases tail with
      | nil =>
          rw [String.intercalate_singleton]
          exact .one head
      | cons =>
          rw [String.intercalate_cons_cons, String.toList_append, String.toList_append,
            List.append_assoc]
          exact .more head ih

theorem spellsType_leaf {w : Ty → List Char → Prop} {depth : Nat} (ht : t.isCompound = false)
    (h : s.textWithin depth t = .ok a) : SpellsType s w t a.toList := by
  cases t with
  | compound id => cases ht
  | ptr space =>
      obtain rfl : "ptr" ++ space.mark = a := by cases depth <;> exact Except.ok.inj h
      rw [String.toList_append]
      exact .ptr
  | int width =>
      obtain rfl : width.text = a := by cases depth <;> exact Except.ok.inj h
      exact .scalar (by cases width <;> decide)
  | _ => cases depth <;> cases h <;> exact .scalar (by decide)

/-- Texts are written by the grammar. -/
theorem spelled_textWithin {depth : Nat} (h : s.textWithin depth t = .ok a) :
    s.Spelled (depth + 1) t a.toList := by
  induction depth generalizing t a with
  | zero =>
      cases t with
      | compound id => cases h
      | _ => exact spellsType_leaf rfl h
  | succ depth ih =>
      cases t with
      | compound id =>
          obtain ⟨c, row, h⟩ := bind_eq_ok_iff.1 h
          refine .compound row ?_
          have hlist : ∀ {types : List Ty} {texts : List String},
              types.mapM (s.textWithin depth) = .ok texts →
                SpellsAll (s.Spelled (depth + 1)) types (", ".intercalate texts).toList := by
            intro types texts htexts
            rw [mapM_eq_ok_iff] at htexts
            exact spellsAll_intercalate (htexts.imp fun _ _ => ih)
          cases c with
          | array elem len =>
              obtain ⟨text, htext, h⟩ := bind_eq_ok_iff.1 h
              cases h
              simpa using Spells.array (ih htext)
          | vector elem len =>
              obtain ⟨text, htext, h⟩ := bind_eq_ok_iff.1 h
              cases h
              simpa using Spells.vector (ih htext)
          | struct d =>
              obtain ⟨name, fields, packed⟩ := d
              cases name with
              | some name =>
                  cases packed with
                  | false =>
                      cases h
                      simpa using Spells.named
                  | true =>
                      cases h
                      simpa using Spells.namedPacked
              | none =>
                  obtain ⟨texts, htexts, h⟩ := bind_eq_ok_iff.1 h
                  cases packed with
                  | false =>
                      cases h
                      simpa [fieldsText] using Spells.literal (hlist htexts)
                  | true =>
                      cases h
                      simpa [fieldsText] using Spells.literalPacked (hlist htexts)
          | func args ret =>
              obtain ⟨texts, htexts, h⟩ := bind_eq_ok_iff.1 h
              obtain ⟨text, htext, h⟩ := bind_eq_ok_iff.1 h
              cases h
              simpa using Spells.func (hlist htexts) (ih htext)
          | typedPtr pointee space =>
              obtain ⟨text, htext, h⟩ := bind_eq_ok_iff.1 h
              cases h
              simpa using Spells.typedPtr (ih htext)
      | _ => exact spellsType_leaf rfl h

/-- Types with the same text are equal. -/
theorem Consistent.text_inj (hs : s.Consistent) (hnames : ∀ id c, s.get id = .ok c → c.PlainName)
    (h : s.text t = .ok a) (h' : s.text u = .ok a) : t = u := by
  have hlegible := legible_spelled hs hnames (s.size + 1)
  exact (hlegible.unique (spelled_textWithin h) (spelled_textWithin h') .nil .nil rfl).1

theorem Consistent.plainName (hs : s.Consistent)
    (hnames : ∀ entry ∈ s.structs, entry.1.toList.all isNameChar) {id : TypeId} {c : Compound}
    (row : s.get id = .ok c) : c.PlainName := by
  intro name hname
  exact List.all_eq_true.1 (hnames (name, id) ((hs.name name id).2 ⟨c, row, hname⟩))

end TypeStore

/-! ## Texts of descriptors -/

namespace Descriptor

variable {s : TypeStore} {d d' : Descriptor} {a : String}

/-- A descriptor of a type of the store can be written, and a later store writes the same. -/
theorem text_total (hs : s.Consistent) (hd : d.pointee.Below s.size) :
    ∃ a, d.text s = .ok a ∧ ∀ t, s ≤ t → d.text t = .ok a := by
  obtain ⟨a, ha⟩ := hs.textWithin_total hd hd
  exact ⟨_, bind_eq_ok_iff.2 ⟨a, ha, rfl⟩, fun t hle =>
    bind_eq_ok_iff.2 ⟨a, TypeStore.text_stays hle _ a ha, rfl⟩⟩

/-- Descriptors with the same text are equal. -/
theorem text_inj (hs : s.Consistent) (hnames : ∀ id c, s.get id = .ok c → c.PlainName)
    (h : d.text s = .ok a) (h' : d'.text s = .ok a) : d = d' := by
  have hspells : ∀ {d : Descriptor}, d.text s = .ok a →
      Spells (s.Spelled (s.size + 1)) (.typedPtr d.pointee d.space) a.toList := by
    intro d h
    obtain ⟨b, hb, h⟩ := bind_eq_ok_iff.1 h
    cases h
    simpa using Spells.typedPtr (TypeStore.spelled_textWithin hb)
  have hunnamed : ∀ d : Descriptor, (Compound.typedPtr d.pointee d.space).PlainName :=
    fun _ _ hname => nomatch hname
  obtain ⟨⟨-, hsame⟩, -⟩ := (hspells h).unique (TypeStore.legible_spelled hs hnames _)
    (hunnamed d) (hunnamed d') .nil .nil (hspells h') rfl
  obtain ⟨hpointee, hspace⟩ := Compound.typedPtr.inj (hsame rfl)
  exact congrArg₂ Descriptor.mk hpointee hspace

/-- A typed pointer is written like its descriptor. -/
theorem text_row (hs : s.Consistent) {id : TypeId}
    (row : s.get id = .ok (.typedPtr d.pointee d.space)) : s.text (.compound id) = d.text s := by
  obtain ⟨n, hsize⟩ := TypeStore.exists_size_eq_succ row
  -- The pointee comes before the pointer, so it needs one step less.
  obtain ⟨hdepth, hbelow⟩ := hs.part_below row (hsize ▸ TypeStore.get_lt_size row)
    (List.mem_singleton_self d.pointee)
  obtain ⟨a, ha⟩ := hs.textWithin_total hdepth hbelow
  have htext : d.text s = .ok ("*" ++ d.space.mark ++ a) :=
    bind_eq_ok_iff.2 ⟨a, TypeStore.textWithin_stays (TypeStore.le_refl s) (by omega) _ a ha, rfl⟩
  rw [htext, TypeStore.text, hsize]
  exact bind_eq_ok_iff.2 ⟨_, row, bind_eq_ok_iff.2 ⟨a, ha, rfl⟩⟩

theorem text_typedPtr (hs : s.Consistent) (hd : d.pointee.Below s.size) :
    (d.typedPtr s).2.text (d.typedPtr s).1 = d.text s := by
  obtain ⟨hconsistent, id, hid, row⟩ := hs.intern (c := .typedPtr d.pointee d.space)
    (by simpa [Compound.parts] using hd) nofun
  obtain ⟨a, ha, hlater⟩ := text_total hs hd
  have hrow := text_row hconsistent row
  rw [← hid, hlater _ (TypeStore.le_intern s _)] at hrow
  exact hrow.trans ha.symm

end Descriptor

namespace TypeHistory

variable {h : TypeHistory}

/-- In every store that comes about by calls with known parts, and whose structs have plain names,
the text of a type says which type it is. All types and descriptors over the store have a text;
two of them with the same text are equal; and a descriptor is written like its typed pointer
type, also once that type has entered the store. -/
theorem texts_identify_types (hreach : Reaches start h)
    (hnames : ∀ entry ∈ h.store.structs, entry.1.toList.all isNameChar) :
    (∀ t, t.Below h.store.size → (∃ a, h.store.text t = .ok a) ∧
      ∀ u, u.Below h.store.size → h.store.text t = h.store.text u → t = u) ∧
    ∀ d : Descriptor, d.pointee.Below h.store.size → (∃ a, d.text h.store = .ok a) ∧
      (∀ d' : Descriptor, d'.pointee.Below h.store.size →
        d.text h.store = d'.text h.store → d = d') ∧
      (d.typedPtr h.store).2.text (d.typedPtr h.store).1 = d.text h.store ∧
      d.text (d.typedPtr h.store).2 = d.text h.store := by
  have hs := (hreach.sound sound_start).consistent
  have hplain : ∀ id c, h.store.get id = .ok c → c.PlainName := fun _ _ => hs.plainName hnames
  constructor
  · intro t ht
    obtain ⟨a, ha⟩ := hs.textWithin_total ht ht
    exact ⟨⟨a, ha⟩, fun u _ heq => hs.text_inj hplain ha (heq.symm.trans ha)⟩
  · intro d hd
    obtain ⟨a, ha, hlater⟩ := Descriptor.text_total hs hd
    refine ⟨⟨a, ha⟩, fun d' _ heq => Descriptor.text_inj hs hplain ha (heq.symm.trans ha), ?_, ?_⟩
    · exact Descriptor.text_typedPtr hs hd
    · exact (hlater _ (TypeStore.le_intern _ _)).trans ha.symm

/-- A struct, the same struct packed, a vector of the former, a function, and a struct named with a
dot that holds the vector. -/
def overlapping : TypeHistory where
  store := ((((TypeStore.empty.enter (.struct ⟨none, [.i8], false⟩)).enter
    (.struct ⟨none, [.i8], true⟩)).enter (.vector (.compound ⟨0⟩) 2)).enter (.func [] .unit)).enter
    (.struct ⟨some "lane.pair_2", [.compound ⟨2⟩], false⟩)
  given := [.compound ⟨4⟩, .compound ⟨3⟩, .compound ⟨2⟩, .compound ⟨1⟩, .compound ⟨0⟩]

theorem reaches_overlapping : Reaches start overlapping := by
  let literal : TypeHistory := ⟨start.store.enter (.struct ⟨none, [.i8], false⟩), [.compound ⟨0⟩]⟩
  let packed : TypeHistory :=
    ⟨literal.store.enter (.struct ⟨none, [.i8], true⟩), .compound ⟨1⟩ :: literal.given⟩
  let vector : TypeHistory :=
    ⟨packed.store.enter (.vector (.compound ⟨0⟩) 2), .compound ⟨2⟩ :: packed.given⟩
  let func : TypeHistory := ⟨vector.store.enter (.func [] .unit), .compound ⟨3⟩ :: vector.given⟩
  have hliteral : Step start literal := .call (.literalStruct [.i8] false) (by decide) rfl
  have hpacked : Step literal packed := .call (.literalStruct [.i8] true) (by decide) rfl
  have hvector : Step packed vector := .call (.vector (.compound ⟨0⟩) 2) (by decide) rfl
  have hfunc : Step vector func := .call (.func [] .unit) (by decide) rfl
  have hnamed : Step func overlapping :=
    .call (.declareStruct "lane.pair_2" [.compound ⟨2⟩] false) (by decide) rfl
  exact .tail (.tail (.tail (.tail (.tail .refl hliteral) hpacked) hvector) hfunc) hnamed

/-- Only the vector is written `<{i8}; 2>`, and only the generic pointer to the function
`*() -> unit`, which is also the text of its typed pointer type. -/
theorem texts_identify_types_overlapping :
    (∀ u, u.Below overlapping.store.size →
      overlapping.store.text u = .ok "<\x7bi8\x7d; 2>" → u = .compound ⟨2⟩) ∧
    ∀ d : Descriptor, d.pointee.Below overlapping.store.size →
      d.text overlapping.store = .ok "*() -> unit" → d = ⟨.compound ⟨3⟩, .generic⟩ ∧
        (d.typedPtr overlapping.store).2.text (d.typedPtr overlapping.store).1 =
          .ok "*() -> unit" := by
  obtain ⟨htypes, hdescriptors⟩ := texts_identify_types reaches_overlapping (by decide)
  have hbelow : ∀ id : TypeId, id.index < 5 → (Ty.compound id).Below overlapping.store.size :=
    fun _ hid => hid
  have hvector : overlapping.store.text (.compound ⟨2⟩) = .ok "<\x7bi8\x7d; 2>" := rfl
  have hfunc : Descriptor.text overlapping.store ⟨.compound ⟨3⟩, .generic⟩ = .ok "*() -> unit" :=
    rfl
  constructor
  · intro u hu htext
    exact ((htypes _ (hbelow ⟨2⟩ (by decide))).2 u hu (hvector.trans htext.symm)).symm
  · intro d hd htext
    obtain ⟨-, hinj, htyped, -⟩ := hdescriptors d hd
    exact ⟨hinj _ (hbelow ⟨3⟩ (by decide)) (htext.trans hfunc.symm), htyped.trans htext⟩

end TypeHistory

end Pointee
