import Mathlib.Data.List.Forall2
import Pointee.Pass

/-!
# Outcomes of computations

How a computation that ended well was put together: each part of it ended well. For a loop there is
one induction for what every round keeps, `foldlM_invariant`, and one for a loop whose every round
ends well, `foldlM_total`. `Pass.Preserves` says the same of passes, where a refusal keeps the state
too. `Pass.RefusesOnly` bounds the reasons for which a pass refuses.
-/

namespace Pointee

variable {α β σ : Type}

theorem bind_eq_ok_iff {x : Except Fault α} {k : α → Except Fault β} {b : β} :
    (x >>= k) = .ok b ↔ ∃ a, x = .ok a ∧ k a = .ok b := by
  cases x <;> simp [bind, Except.bind]

theorem map_eq_ok_iff {x : Except Fault α} {f : α → β} {b : β} :
    (f <$> x) = .ok b ↔ ∃ a, x = .ok a ∧ f a = b := by
  cases x <;> simp [Functor.map, Except.map]

theorem pure_eq_ok_iff {a b : α} : (pure a : Except Fault α) = .ok b ↔ a = b := by
  simp [pure, Except.pure]

/-- Whether a computation ends well with a result that passes the test. -/
def succeeds (x : Except Fault α) (test : α → Bool) : Bool :=
  match x with
  | .ok a => test a
  | .error _ => false

theorem exists_of_succeeds {x : Except Fault α} {test : α → Bool} (h : succeeds x test = true) :
    ∃ a, x = .ok a ∧ test a = true := by
  cases x with
  | error fault => cases h
  | ok a => exact ⟨a, rfl, h⟩

/-- What every round of a loop keeps holds at its end. -/
theorem foldlM_invariant {P : σ → Prop} {step : σ → α → Except Fault σ} {xs : List α}
    (hstep : ∀ s t a, a ∈ xs → P s → step s a = .ok t → P t) {s t : σ} (hs : P s)
    (h : xs.foldlM step s = .ok t) : P t := by
  induction xs generalizing s with
  | nil =>
      rw [List.foldlM_nil, pure_eq_ok_iff] at h
      exact h ▸ hs
  | cons a rest ih =>
      rw [List.foldlM_cons, bind_eq_ok_iff] at h
      obtain ⟨r, hr, h⟩ := h
      refine ih (fun s t b hb => hstep s t b (List.mem_cons_of_mem a hb)) ?_ h
      exact hstep s r a List.mem_cons_self hs hr

/-- A loop ends where it starts if no member changes the state. -/
theorem foldlM_idle {step : σ → α → Except Fault σ} {xs : List α} {s : σ}
    (h : ∀ a ∈ xs, step s a = .ok s) : xs.foldlM step s = .ok s := by
  induction xs with
  | nil => rfl
  | cons a rest ih =>
      rw [List.forall_mem_cons] at h
      rw [List.foldlM_cons, bind_eq_ok_iff]
      exact ⟨s, h.1, ih h.2⟩

/-- A loop over a list ends well with what it gives for each member. -/
theorem mapM_eq_ok_iff {F : α → Except Fault β} {xs : List α} {ys : List β} :
    xs.mapM F = .ok ys ↔ List.Forall₂ (fun x y => F x = .ok y) xs ys := by
  induction xs generalizing ys with
  | nil =>
      rw [List.mapM_nil, pure_eq_ok_iff, List.forall₂_nil_left_iff, eq_comm]
  | cons x xs ih =>
      rw [List.mapM_cons, bind_eq_ok_iff, List.forall₂_cons_left_iff]
      constructor
      · rintro ⟨y, hy, h⟩
        obtain ⟨rest, hrest, h⟩ := bind_eq_ok_iff.1 h
        exact ⟨y, rest, hy, ih.1 hrest, (pure_eq_ok_iff.1 h).symm⟩
      · rintro ⟨y, rest, hy, hrest, rfl⟩
        exact ⟨y, hy, bind_eq_ok_iff.2 ⟨rest, ih.2 hrest, rfl⟩⟩

/-- A test that fails for a list fails for each member. -/
theorem anyM_false {α : Type} {p : α → Except Fault Bool} {xs : List α}
    (h : xs.anyM p = .ok false) : ∀ x ∈ xs, p x = .ok false := by
  induction xs with
  | nil => simp
  | cons x xs ih =>
      rw [List.anyM, bind_eq_ok_iff] at h
      obtain ⟨b, hb, hrest⟩ := h
      cases b with
      | true => cases hrest
      | false => exact List.forall_mem_cons.2 ⟨hb, ih hrest⟩

/-- A loop that ended well keeps a property of its state and of the members that had their turn. -/
theorem foldlM_rounds {P : List α → σ → Prop} {step : σ → α → Except Fault σ} {xs : List α}
    (hstep : ∀ done a rest s t, xs = done ++ a :: rest → P done s → step s a = .ok t →
      P (done ++ [a]) t)
    {s t : σ} (hs : P [] s) (h : xs.foldlM step s = .ok t) : P xs t := by
  suffices hrest : ∀ done rest s, xs = done ++ rest → P done s → rest.foldlM step s = .ok t →
      P xs t from hrest [] xs s rfl hs h
  intro done rest
  induction rest generalizing done with
  | nil =>
      intro s hxs hP hrun
      cases pure_eq_ok_iff.1 hrun
      obtain rfl : xs = done := by simpa using hxs
      exact hP
  | cons a rest ih =>
      intro s hxs hP hrun
      rw [List.foldlM_cons] at hrun
      obtain ⟨mid, hmid, hrun⟩ := bind_eq_ok_iff.1 hrun
      exact ih (done ++ [a]) mid (by simp [hxs]) (hstep done a rest s mid hxs hP hmid) hrun

/-- A loop ends well if every round does, from a state that satisfies what rounds keep. `P` is told
which elements are done. -/
theorem foldlM_total {P : List α → σ → Prop} {step : σ → α → Except Fault σ} {xs : List α}
    (hstep : ∀ done a rest s, xs = done ++ a :: rest → P done s →
      ∃ t, step s a = .ok t ∧ P (done ++ [a]) t)
    {s : σ} (hs : P [] s) : ∃ t, xs.foldlM step s = .ok t ∧ P xs t := by
  suffices h : ∀ done rest s, xs = done ++ rest → P done s →
      ∃ t, rest.foldlM step s = .ok t ∧ P xs t from h [] xs s rfl hs
  intro done rest
  induction rest generalizing done with
  | nil =>
      intro s hxs hP
      obtain rfl : xs = done := by simpa using hxs
      exact ⟨s, rfl, hP⟩
  | cons a rest ih =>
      intro s hxs hP
      obtain ⟨r, hr, hP'⟩ := hstep done a rest s hxs hP
      obtain ⟨t, ht, hPt⟩ := ih (done ++ [a]) r (by simpa using hxs) hP'
      exact ⟨t, by rw [List.foldlM_cons, hr]; exact ht, hPt⟩

/-- A loop over a list ends well if it does so for each member. -/
theorem mapM_total {F : α → Except Fault β} {Q : β → Prop} {xs : List α}
    (h : ∀ x ∈ xs, ∃ y, F x = .ok y ∧ Q y) : ∃ ys, xs.mapM F = .ok ys ∧ ∀ y ∈ ys, Q y := by
  induction xs with
  | nil => exact ⟨[], rfl, by simp⟩
  | cons x xs ih =>
      obtain ⟨y, hy, hQ⟩ := h x List.mem_cons_self
      obtain ⟨ys, hys, hQs⟩ := ih fun x hx => h x (List.mem_cons_of_mem _ hx)
      refine ⟨y :: ys, ?_, List.forall_mem_cons.2 ⟨hQ, hQs⟩⟩
      rw [List.mapM_cons]
      exact bind_eq_ok_iff.2 ⟨y, hy, bind_eq_ok_iff.2 ⟨ys, hys, rfl⟩⟩

/-- A test that fails for every member of a list fails for the list. -/
theorem anyM_eq_false {p : α → Except Fault Bool} {xs : List α} (h : ∀ x ∈ xs, p x = .ok false) :
    xs.anyM p = .ok false := by
  induction xs with
  | nil => rfl
  | cons x xs ih =>
      rw [List.anyM, h x List.mem_cons_self]
      exact ih fun y hy => h y (List.mem_cons_of_mem x hy)

namespace Pass

theorem exec_bind_of_ok {p : Pass σ α} {k : α → Pass σ β} {s t : σ} {a : α}
    (h : p.exec s = .ok (.ok a, t)) : (p >>= k).exec s = (k a).exec t := by
  rw [exec_bind, h]

/-- A pass refused at once, or went on from where the one before it succeeded. -/
theorem exec_bind_cases {p : Pass σ α} {k : α → Pass σ β} {s u : σ} {r : Except Refusal β}
    (h : (p >>= k).exec s = .ok (r, u)) :
    (∃ e, r = .error e ∧ p.exec s = .ok (.error e, u)) ∨
      ∃ a t, p.exec s = .ok (.ok a, t) ∧ (k a).exec t = .ok (r, u) := by
  rw [exec_bind] at h
  cases hrun : p.exec s with
  | error fault => rw [hrun] at h; cases h
  | ok result =>
      obtain ⟨outcome, t⟩ := result
      rw [hrun] at h
      cases outcome with
      | error e =>
          cases h
          exact .inl ⟨e, rfl, rfl⟩
      | ok a => exact .inr ⟨a, t, rfl, h⟩

/-- A pass that succeeded went on from where the one before it succeeded. -/
theorem exec_bind_eq_ok {p : Pass σ α} {k : α → Pass σ β} {s u : σ} {b : β} :
    (p >>= k).exec s = .ok (.ok b, u) ↔
      ∃ a t, p.exec s = .ok (.ok a, t) ∧ (k a).exec t = .ok (.ok b, u) := by
  constructor
  · intro h
    rcases exec_bind_cases h with ⟨e, hr, -⟩ | hnext
    · cases hr
    · exact hnext
  · rintro ⟨a, t, ha, hb⟩
    rw [exec_bind_of_ok ha, hb]

/-- A computation without a state leaves the state as it is. -/
theorem exec_liftM_bind (x : Except Fault α) (k : α → Pass σ β) (s : σ) :
    (liftM x >>= k).exec s = x >>= fun a => (k a).exec s := by
  cases x <;> rfl

theorem exec_liftM_of_ok {x : Except Fault α} {a : α} (h : x = .ok a) (k : α → Pass σ β) (s : σ) :
    (liftM x >>= k).exec s = (k a).exec s := by
  rw [exec_liftM_bind, h]
  rfl

/-- A test that fails leads to the other branch. -/
theorem exec_if_of_false {x : Except Fault Bool} (h : x = .ok false) (p q : Pass σ α) (s : σ) :
    (do if ← x then p else q : Pass σ α).exec s = q.exec s :=
  exec_liftM_of_ok h _ s

/-- A loop of passes succeeds if every round does, from a state that satisfies what rounds keep. `P`
is told which elements are done. -/
theorem foldlM_total {P : List α → β → σ → Prop} {step : β → α → Pass σ β} {xs : List α}
    (hstep : ∀ done a rest b s, xs = done ++ a :: rest → P done b s →
      ∃ c t, (step b a).exec s = .ok (.ok c, t) ∧ P (done ++ [a]) c t)
    {b : β} {s : σ} (hs : P [] b s) :
    ∃ c t, (xs.foldlM step b).exec s = .ok (.ok c, t) ∧ P xs c t := by
  suffices h : ∀ done rest b s, xs = done ++ rest → P done b s →
      ∃ c t, (rest.foldlM step b).exec s = .ok (.ok c, t) ∧ P xs c t from h [] xs b s rfl hs
  intro done rest
  induction rest generalizing done with
  | nil =>
      intro b s hxs hP
      obtain rfl : xs = done := by simpa using hxs
      exact ⟨b, s, rfl, hP⟩
  | cons a rest ih =>
      intro b s hxs hP
      obtain ⟨c, t, hok, hP'⟩ := hstep done a rest b s hxs hP
      obtain ⟨d, u, hrest, hPu⟩ := ih (done ++ [a]) c t (by simpa using hxs) hP'
      exact ⟨d, u, by rw [List.foldlM_cons, exec_bind_of_ok hok]; exact hrest, hPu⟩

/-- What every round of a loop keeps holds at its end, if the loop succeeds. `P` is told which
elements are done. -/
theorem foldlM_invariant {P : List α → β → σ → Prop} {step : β → α → Pass σ β} {xs : List α}
    (hstep : ∀ done a rest b s c t, xs = done ++ a :: rest → P done b s →
      (step b a).exec s = .ok (.ok c, t) → P (done ++ [a]) c t)
    {b c : β} {s t : σ} (hs : P [] b s) (h : (xs.foldlM step b).exec s = .ok (.ok c, t)) :
    P xs c t := by
  suffices hrest : ∀ done rest b s, xs = done ++ rest → P done b s →
      (rest.foldlM step b).exec s = .ok (.ok c, t) → P xs c t from hrest [] xs b s rfl hs h
  intro done rest
  induction rest generalizing done with
  | nil =>
      intro b s hxs hP hrun
      cases hrun
      obtain rfl : xs = done := by simpa using hxs
      exact hP
  | cons a rest ih =>
      intro b s hxs hP hrun
      rw [List.foldlM_cons] at hrun
      obtain ⟨b', s', ha, hrun⟩ := exec_bind_eq_ok.1 hrun
      exact ih (done ++ [a]) b' s' (by simpa using hxs) (hstep done a rest b s b' s' hxs hP ha) hrun

/-- A loop succeeds from every state if each of its rounds does. -/
theorem foldlM_of_rounds {step : β → α → Pass σ β} {xs : List α}
    (h : ∀ x ∈ xs, ∀ b s, ∃ c t, (step b x).exec s = .ok (.ok c, t)) (b : β) (s : σ) :
    ∃ c t, (xs.foldlM step b).exec s = .ok (.ok c, t) := by
  have hstep : ∀ done x rest b s, xs = done ++ x :: rest → True →
      ∃ c t, (step b x).exec s = .ok (.ok c, t) ∧ True := by
    intro done x rest b s hxs _
    obtain ⟨c, t, hround⟩ := h x (by simp [hxs]) b s
    exact ⟨c, t, hround, trivial⟩
  obtain ⟨c, t, hrun, -⟩ := foldlM_total (P := fun _ _ _ => True) hstep trivial
  exact ⟨c, t, hrun⟩

theorem forM_total {step : α → Pass σ PUnit} {xs : List α}
    (h : ∀ x ∈ xs, ∀ s, ∃ t, (step x).exec s = .ok (.ok ⟨⟩, t)) (s : σ) :
    ∃ t, (xs.forM step).exec s = .ok (.ok ⟨⟩, t) := by
  induction xs generalizing s with
  | nil => exact ⟨s, rfl⟩
  | cons x xs ih =>
      obtain ⟨t, hx⟩ := h x List.mem_cons_self s
      obtain ⟨u, hxs⟩ := ih (fun y hy => h y (List.mem_cons_of_mem x hy)) t
      refine ⟨u, ?_⟩
      show (step x >>= fun _ => xs.forM step).exec s = _
      rw [exec_bind_of_ok hx, hxs]

/-- Whatever the outcome of the pass, the state it leaves satisfies `P` if it started so. -/
def Preserves (P : σ → Prop) (p : Pass σ α) : Prop :=
  ∀ s r t, P s → p.exec s = .ok (r, t) → P t

namespace Preserves

variable {P : σ → Prop} {p : Pass σ α} {k : α → Pass σ β}

theorem pure (a : α) : Preserves P (Pure.pure a : Pass σ α) := by
  intro s r t hs h
  rw [exec_pure] at h
  cases h
  exact hs

theorem bind (hp : Preserves P p) (hk : ∀ a, Preserves P (k a)) : Preserves P (p >>= k) := by
  intro s r t hs h
  rcases exec_bind_cases h with ⟨e, -, hrefused⟩ | ⟨a, mid, hmid, hrest⟩
  · exact hp s _ t hs hrefused
  · exact hk a mid r t (hp s _ mid hs hmid) hrest

/-- After reading the state, the state read is the one to go on from. -/
theorem get_bind {k : σ → Pass σ β} (hk : ∀ s r t, P s → (k s).exec s = .ok (r, t) → P t) :
    Preserves P (MonadState.get >>= k) := by
  intro s r t hs h
  rw [exec_bind_of_ok (exec_get s)] at h
  exact hk s r t hs h

theorem foldlM {step : β → α → Pass σ β} {xs : List α}
    (hstep : ∀ b, ∀ a ∈ xs, Preserves P (step b a)) (b : β) : Preserves P (xs.foldlM step b) := by
  induction xs generalizing b with
  | nil => exact pure b
  | cons a rest ih =>
      rw [List.foldlM_cons]
      refine (hstep b a List.mem_cons_self).bind fun c => ih ?_ c
      exact fun d e he => hstep d e (List.mem_cons_of_mem a he)

end Preserves

/-- Every round of a loop that succeeds succeeds. -/
theorem forM_rounds {step : α → Pass σ PUnit} {xs : List α}
    (h : (xs.forM step).exec s = .ok (.ok ⟨⟩, t)) :
    ∀ x ∈ xs, ∃ s' t', (step x).exec s' = .ok (.ok ⟨⟩, t') := by
  induction xs generalizing s with
  | nil => simp
  | cons x xs ih =>
      obtain ⟨_, u, hx, hrest⟩ := exec_bind_eq_ok.1 h
      exact List.forall_mem_cons.2 ⟨⟨s, u, hx⟩, ih hrest⟩

/-- A pass that refuses where a test holds, and succeeded, has seen the test fail. -/
theorem exec_unless {x : Except Fault Bool} {p q : Pass σ α} {a : α}
    (hp : ∀ s a t, p.exec s ≠ .ok (.ok a, t))
    (h : (do if ← x then p else q : Pass σ α).exec s = .ok (.ok a, t)) :
    x = .ok false ∧ q.exec s = .ok (.ok a, t) := by
  rw [exec_liftM_bind] at h
  obtain ⟨b, hb, hrest⟩ := bind_eq_ok_iff.1 h
  cases b with
  | true => exact absurd hrest (hp s a t)
  | false => exact ⟨hb, hrest⟩

theorem bind_not_ok {p : Pass σ α} {k : α → Pass σ β} (hp : ∀ s a t, p.exec s ≠ .ok (.ok a, t)) :
    ∀ s b t, (p >>= k).exec s ≠ .ok (.ok b, t) := by
  intro s b t h
  obtain ⟨a, u, ha, -⟩ := exec_bind_eq_ok.1 h
  exact hp s a u ha

/-- The pass meets no fault in the given state. -/
def Returns (p : Pass σ α) (s : σ) : Prop := ∃ r t, p.exec s = .ok (r, t)

theorem Returns.bind {p : Pass σ α} {k : α → Pass σ β} {s : σ} (hp : p.Returns s)
    (hk : ∀ a t, p.exec s = .ok (.ok a, t) → (k a).Returns t) : (p >>= k).Returns s := by
  obtain ⟨r, t, hrun⟩ := hp
  cases r with
  | error e => exact ⟨.error e, t, by rw [exec_bind, hrun]⟩
  | ok a =>
      obtain ⟨r, u, hrest⟩ := hk a t hrun
      exact ⟨r, u, by rw [exec_bind_of_ok hrun, hrest]⟩

/-- A loop meets no fault if no round does, from a state that satisfies what successful rounds keep.
`P` is told which elements are done. -/
theorem Returns.foldlM {P : List α → β → σ → Prop} {step : β → α → Pass σ β} {xs : List α}
    (hstep : ∀ done a rest b s, xs = done ++ a :: rest → P done b s →
      (step b a).Returns s ∧ ∀ c t, (step b a).exec s = .ok (.ok c, t) → P (done ++ [a]) c t)
    {b : β} {s : σ} (hs : P [] b s) : (xs.foldlM step b).Returns s := by
  suffices hrest : ∀ done rest b s, xs = done ++ rest → P done b s →
      (rest.foldlM step b).Returns s from hrest [] xs b s rfl hs
  intro done rest
  induction rest generalizing done with
  | nil => exact fun b s _ _ => ⟨.ok b, s, rfl⟩
  | cons a rest ih =>
      intro b s hxs hP
      obtain ⟨hreturns, hnext⟩ := hstep done a rest b s hxs hP
      rw [List.foldlM_cons]
      exact hreturns.bind fun c t hrun => ih (done ++ [a]) c t (by simpa using hxs) (hnext c t hrun)

/-- The pass refuses only for a reason that `R` allows. -/
def RefusesOnly (R : Refusal → Prop) (p : Pass σ α) : Prop :=
  ∀ s e t, p.exec s = .ok (.error e, t) → R e

namespace RefusesOnly

variable {R R' : Refusal → Prop} {p : Pass σ α} {k : α → Pass σ β}

theorem pure (a : α) : RefusesOnly R (Pure.pure a : Pass σ α) := by
  intro s e t h
  cases h

theorem get : RefusesOnly R (MonadState.get : Pass σ σ) := by
  intro s e t h
  cases h

/-- A computation without a state refuses nothing. -/
theorem lift (x : Except Fault α) : RefusesOnly R (liftM x : Pass σ α) := by
  intro s e t h
  cases x <;> cases h

theorem bind (hp : RefusesOnly R p) (hk : ∀ a, RefusesOnly R (k a)) :
    RefusesOnly R (p >>= k) := by
  intro s e u h
  rcases exec_bind_cases h with ⟨e', he, hrefused⟩ | ⟨a, t, ha, hrest⟩
  · cases he
    exact hp s e u hrefused
  · exact hk a t e u hrest

theorem mono (h : RefusesOnly R p) (hR : ∀ e, R e → R' e) : RefusesOnly R' p :=
  fun s e t hrun => hR e (h s e t hrun)

/-- What follows a pass matters only for the results that the pass can have. -/
theorem bind_of_ok (hp : RefusesOnly R p)
    (hk : ∀ a s t, p.exec s = .ok (.ok a, t) → RefusesOnly R (k a)) : RefusesOnly R (p >>= k) := by
  intro s e u h
  rcases exec_bind_cases h with ⟨e', he, hrefused⟩ | ⟨a, t, ha, hrest⟩
  · cases he
    exact hp s e u hrefused
  · exact hk a s t ha t e u hrest

theorem lift_bind {x : Except Fault α} (hk : ∀ a, x = .ok a → RefusesOnly R (k a)) :
    RefusesOnly R (liftM x >>= k) := by
  intro s e t h
  rw [exec_liftM_bind] at h
  obtain ⟨a, ha, hrest⟩ := bind_eq_ok_iff.1 h
  exact hk a ha s e t hrest

theorem foldlM_of_mem {step : β → α → Pass σ β} {as : List α}
    (h : ∀ a ∈ as, ∀ b, RefusesOnly R (step b a)) (b : β) : RefusesOnly R (as.foldlM step b) := by
  induction as generalizing b with
  | nil => exact pure b
  | cons a as ih =>
      rw [List.foldlM_cons]
      exact (h a List.mem_cons_self b).bind fun c =>
        ih (fun a' ha' => h a' (List.mem_cons_of_mem a ha')) c

theorem foldlM {step : β → α → Pass σ β} (h : ∀ b a, RefusesOnly R (step b a)) (as : List α)
    (b : β) : RefusesOnly R (as.foldlM step b) := foldlM_of_mem (fun a _ b => h b a) b

end RefusesOnly

end Pass

end Pointee
