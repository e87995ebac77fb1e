import Pointee.Fault
import Pointee.Refusal

/-!
# Passes

A pass is a computation over a state that gives a result, or refuses, or ends in a fault. A refusal
keeps the state that was reached; a fault keeps nothing. `Pass.exec` runs a pass, and the lemmas
below say what it does for each way of building one.
-/

namespace Pointee

/-- A computation over a state that may refuse, keeping the state, or end in a fault. -/
abbrev Pass (σ α : Type) := ExceptT Refusal (StateT σ (Except Fault)) α

namespace Pass

variable {σ α β : Type}

/-- Runs a pass: its result or refusal, and the state it left. -/
def exec (p : Pass σ α) (s : σ) : Except Fault (Except Refusal α × σ) := p.run.run s

/-- The pass that runs as given. -/
def of (run : σ → Except Fault (Except Refusal α × σ)) : Pass σ α := ExceptT.mk run

@[simp] theorem exec_of (run : σ → Except Fault (Except Refusal α × σ)) (s : σ) :
    (of run).exec s = run s := rfl

@[simp] theorem exec_pure (a : α) (s : σ) : exec (pure a : Pass σ α) s = .ok (.ok a, s) := rfl

@[simp] theorem exec_throw (r : Refusal) (s : σ) :
    exec (throw r : Pass σ α) s = .ok (.error r, s) := rfl

@[simp] theorem exec_get (s : σ) : exec (get : Pass σ σ) s = .ok (.ok s, s) := rfl

@[simp] theorem exec_set (t s : σ) : exec (set t : Pass σ PUnit) s = .ok (.ok ⟨⟩, t) := rfl

@[simp] theorem exec_modifyGet (f : σ → α × σ) (s : σ) :
    exec (modifyGet f : Pass σ α) s = .ok (.ok (f s).1, (f s).2) := rfl

/-- A pass goes on from where the one before it ended, unless that refused or met a fault. -/
theorem exec_bind (p : Pass σ α) (k : α → Pass σ β) (s : σ) :
    (p >>= k).exec s =
      match p.exec s with
      | .error fault => .error fault
      | .ok (.error r, t) => .ok (.error r, t)
      | .ok (.ok a, t) => (k a).exec t := by
  show ((p.run.run s).bind fun x => (ExceptT.bindCont k x.1).run x.2) = _
  unfold exec
  cases p.run.run s with
  | error fault => rfl
  | ok result =>
      obtain ⟨r, t⟩ := result
      cases r <;> rfl

end Pass

end Pointee
