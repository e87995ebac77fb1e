import Pointee.Proofs.ExactExtraction
import Pointee.Proofs.ReadingPurity

/-!
# When inference is refused

The analytical strategy demotes, infers and patches. Demotion and patching refuse nothing, and no
body is refused by inference, however ill-typed it is: `Module.infer_blames` traces every refusal to
an annotation or to the constructor table. Inference stands before patching, so that a module for
which it is refused has been demoted and not been touched otherwise,
`Module.refused_inference_only_demotes`.
-/

namespace Pointee

open TypeStore

namespace Module

variable {m m' : Module} {config : Config}

/-- Inference is refused for a symbol that the module declares, and never for a body. -/
theorem infer_blames : Pass.RefusesOnly (m.ctx.Blames config) (m.infer config) := by
  have hbodies := Pass.Bounded.liftState (R := m.ctx.Blames config)
    (m.inferBodies_grows (m.seedGlobals config .empty))
  refine hbodies.refusal.bind fun bodies => ?_
  refine ((classifyFunctions_misfit bodies).mono fun e => .inl).bind fun map => ?_
  exact classifyTable_blames map

/-- Demotion as a pass is demotion, and is not refused. -/
theorem exec_demotePass {r : Except Refusal Bool} (h : demotePass.exec m = .ok (r, m')) :
    ∃ demoted, r = .ok demoted ∧ m.demote = .ok (demoted, m') := by
  obtain ⟨⟨demoted, flat⟩, hdemote, hrest⟩ := bind_eq_ok_iff.1
    ((Pass.exec_liftM_bind m.demote _ m).symm.trans h)
  cases hrest
  exact ⟨demoted, rfl, hdemote⟩

theorem patchPass_refusal {R : Refusal → Prop} (map : PtrMap) :
    Pass.RefusesOnly R (patchPass config map) := by
  refine Pass.RefusesOnly.get.bind fun m => (Pass.RefusesOnly.lift _).bind fun patched => ?_
  intro s e t h
  cases h

/-- A run of the analytical strategy that is refused ended in inference. -/
theorem retypeAnalytically_eq_error {e : Refusal}
    (h : (retypeAnalytically config).exec m = .ok (.error e, m')) :
    ∃ demoted flat, m.demote = .ok (demoted, flat) ∧
      (inferPass config).exec flat = .ok (.error e, m') := by
  rcases Pass.exec_bind_cases h with ⟨e', -, hrefused⟩ | ⟨demoted, flat, hdemote, hrest⟩
  · obtain ⟨_, heq, -⟩ := exec_demotePass hrefused
    cases heq
  · obtain ⟨_, -, hdemote⟩ := exec_demotePass hdemote
    refine ⟨_, flat, hdemote, ?_⟩
    rcases Pass.exec_bind_cases hrest with ⟨e', heq, hrefused⟩ | ⟨map, mid, -, hpatch⟩
    · cases heq
      exact hrefused
    · have hnever : Pass.RefusesOnly (fun _ => False) (patchPass config map >>= fun out =>
          pure (⟨out.2, demoted || out.1⟩ : Retyped)) :=
        (patchPass_refusal map).bind fun out => .pure _
      exact (hnever mid e m' hpatch).elim

/-- The analytical strategy is refused for an annotation that names an argument out of range or a
slot that is no pointer, or for elements of the constructor table that disagree, and for nothing
else. The annotation is that of a declared function. A refused run has demoted the module; it has
inserted and rewritten nothing, and entered types without names at most. -/
theorem refused_inference_only_demotes {e : Refusal}
    (h : (retypeAnalytically config).exec m = .ok (.error e, m')) :
    ((∃ name position arity, e = .annotationOutOfRange name position arity) ∨
      (∃ name slot, e = .annotationNotPointer name slot) ∨
      ∃ symbol position expected found,
        e = .inconsistentAggregate symbol position expected found) ∧
    m.ctx.Blames config e ∧
    ∃ demoted flat types, m.demote = .ok (demoted, flat) ∧ m'.funcs = flat.funcs ∧
      m' = flat.setTypes types ∧ flat.ctx.types.Entered types := by
  obtain ⟨demoted, flat, hdemote, hinfer⟩ := retypeAnalytically_eq_error h
  obtain ⟨types, hrun, rfl⟩ := exec_reading_eq_ok hinfer
  have hblames : m.ctx.Blames config e :=
    (demote_eq_ok hdemote).1 ▸ infer_blames flat.ctx.types e types hrun
  refine ⟨or_assoc.1 hblames.ofSymbol, hblames, demoted, flat, types, hdemote, rfl, rfl, ?_⟩
  exact flat.infer_enters config flat.ctx.types _ types hrun

/-- A function that reads through a number and through a constant address, and is annotated for a
number. -/
def annotatesNumber : Except Fault Module :=
  ofItems ⟨.air64, .bitcode, .v7⟩ []
    [⟨"f", .exported, [.genericPtr, .i32], .unit, some ⟨none, [(0, .zero .i8), (1, .zero .i8)]⟩⟩]
    [.null .generic, .constGep .i32 [⟨2⟩], .inst (.load ⟨1⟩ .i32), .inst (.load ⟨3⟩ .i8),
      .inst (.load ⟨0⟩ .i32), .inst (.ret none)]

theorem refused_inference_only_demotes_annotatesNumber : ∃ m m' e flat,
    annotatesNumber = .ok m ∧
    (retypeAnalytically (.ofStrategy .analytical)).exec m = .ok (.error e, m') ∧
    m.ctx.Blames (.ofStrategy .analytical) e ∧ m.demote = .ok (true, flat) ∧
    m'.funcs = flat.funcs := by
  have hrun : succeeds annotatesNumber (fun m => succeeds m.demote fun demotion => demotion.1 &&
      succeeds ((retypeAnalytically (.ofStrategy .analytical)).exec m) fun run =>
        !run.1.isOk) = true := by
    decide +kernel
  obtain ⟨m, hm, hrun⟩ := exists_of_succeeds hrun
  obtain ⟨⟨demoted, flat⟩, hdemote, hrun⟩ := exists_of_succeeds hrun
  obtain ⟨rfl, hrun⟩ := Bool.and_eq_true_iff.1 hrun
  obtain ⟨⟨outcome, m'⟩, hexec, hrefused⟩ := exists_of_succeeds hrun
  cases outcome with
  | ok out => cases hrefused
  | error e =>
      obtain ⟨-, hblames, demoted, flat', types, hdemote', hfuncs, -⟩ :=
        refused_inference_only_demotes hexec
      cases hdemote.symm.trans hdemote'
      exact ⟨m, m', e, flat, hm, hexec, hblames, hdemote, hfuncs⟩

end Module

end Pointee
