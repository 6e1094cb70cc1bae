/-
# Where a run of a pipeline ends

The steps of a pipeline act one after the other, each on the project that those before it
left (`Pipeline.leave`).  A run follows them up to the first one that fails on what it
receives, and no further:

| the run | project | messages | outcome |
| --- | --- | --- | --- |
| no step fails | left by all steps | of all steps | one entry for each step |
| `t` is the first to fail | left by `t`, half-done work included | up to those of `t` | error of `t` |

Both rows come from one equation: a run of `before ++ rest`, where `before` succeeds, is a run
of `rest` on what `before` left, with the notices and entries of `before` put in front
(`runSteps_append`).  That no step after the failing one is invoked is said by putting any
other steps in their place: nothing comes out differently.

The guard is asked before the first step, so its verdict is that of the project before the
run (`migrate_guards_run`).
-/

import Retarget.Migration.Pipeline
import Mathlib.Data.List.Basic

namespace Retarget

namespace Notice

theorem messages_append (a b : List Notice) : messages (a ++ b) = messages a ++ messages b :=
  List.filterMap_append

theorem messages_cons_log (e : LogEntry) (ns : List Notice) :
    messages (.log e :: ns) = messages ns := rfl

end Notice

namespace Pipeline

variable {steps before rest : Pipeline} {t : Transformation} {p : Project} {cause : StepError}

/-- What the steps leave of a project, each acting on what those before it left.  A step that
fails leaves what it has changed. -/
def leave (steps : Pipeline) (p : Project) : Project :=
  steps.foldl (fun q t => (t.apply q).project) p

/-- The messages of the steps, in order. -/
def said : Pipeline → Project → List String
  | [], _ => []
  | t :: steps, p => Notice.messages (t.apply p).notices ++ said steps (t.apply p).project

/-- What the steps change, one entry for each. -/
def log : Pipeline → Project → List Applied
  | [], _ => []
  | t :: steps, p => ⟨t.name, changes p (t.apply p).project⟩ :: log steps (t.apply p).project

/-- No step fails on the project that it receives. -/
def Succeeds (steps : Pipeline) (p : Project) : Prop :=
  ∀ (before : Pipeline) (t : Transformation) (after : Pipeline),
    steps = before ++ t :: after → (t.apply (before.leave p)).failure = none

theorem leave_cons (t : Transformation) (steps : Pipeline) (p : Project) :
    leave (t :: steps) p = leave steps (t.apply p).project := rfl

theorem succeeds_nil (p : Project) : Succeeds [] p := by
  intro before t after h
  simp at h

theorem succeeds_cons :
    Succeeds (t :: steps) p ↔ (t.apply p).failure = none ∧ steps.Succeeds (t.apply p).project := by
  constructor
  · intro h
    refine ⟨h [] t steps rfl, fun before u after hs => ?_⟩
    exact h (t :: before) u after (by rw [hs, List.cons_append])
  · rintro ⟨ht, hs⟩ before u after h
    rcases List.cons_eq_append_iff.1 h with ⟨rfl, h⟩ | ⟨before, rfl, h⟩
    · obtain ⟨rfl, rfl⟩ := List.cons.inj h
      exact ht
    · exact hs before u after (List.cons.inj h).2

theorem length_log (steps : Pipeline) (p : Project) : (steps.log p).length = steps.length := by
  induction steps generalizing p with
  | nil => rfl
  | cons t steps ih => rw [log, List.length_cons, ih, List.length_cons]

/-- The entries carry the names of the steps. -/
theorem map_name_log (steps : Pipeline) (p : Project) :
    (steps.log p).map (·.name) = steps.names := by
  induction steps generalizing p with
  | nil => rfl
  | cons t steps ih => rw [log, List.map_cons, ih]; rfl

/-- The entry of a step shows the changes from what it received to what it left. -/
theorem getElem?_log (before : Pipeline) (t : Transformation) (after : Pipeline) (p : Project) :
    (log (before ++ t :: after) p)[before.length]? =
      some ⟨t.name, changes (before.leave p) (t.apply (before.leave p)).project⟩ := by
  induction before generalizing p with
  | nil => rfl
  | cons u before ih =>
    rw [List.cons_append, log, List.length_cons, List.getElem?_cons_succ, ih, leave_cons]

/-- Every entry is that of a step. -/
theorem exists_of_mem_log {entry : Applied} (h : entry ∈ steps.log p) :
    ∃ (before : Pipeline) (t : Transformation) (after : Pipeline), steps = before ++ t :: after ∧
      entry = ⟨t.name, changes (before.leave p) (t.apply (before.leave p)).project⟩ := by
  induction steps generalizing p with
  | nil => exact absurd h List.not_mem_nil
  | cons t steps ih =>
    rcases List.mem_cons.1 h with rfl | h
    · exact ⟨[], t, steps, rfl, rfl⟩
    · obtain ⟨before, u, after, rfl, rfl⟩ := ih h
      exact ⟨t :: before, u, after, rfl, rfl⟩

/-! ### The steps of a run -/

/-- A step that fails ends the run, whatever comes after it. -/
theorem runSteps_of_failure (h : (t.apply p).failure = some cause) (after : Pipeline) :
    runSteps (t :: after) p =
      ⟨(t.apply p).project, applying t :: (t.apply p).notices ++ [failed t cause],
        .error (.stepFailed t.name cause)⟩ := by
  simp only [runSteps, h]

/-- A step that succeeds hands on what it left. -/
theorem runSteps_of_success (h : (t.apply p).failure = none) (rest : Pipeline) :
    runSteps (t :: rest) p =
      let later := runSteps rest (t.apply p).project
      ⟨later.project, applying t :: (t.apply p).notices ++ later.notices,
        later.outcome.map (⟨t.name, changes p (t.apply p).project⟩ :: ·)⟩ := by
  simp only [runSteps, h]

/-- **Steps that succeed can be run first.** -/
theorem runSteps_append (h : before.Succeeds p) (rest : Pipeline) :
    runSteps (before ++ rest) p =
      let later := runSteps rest (before.leave p)
      ⟨later.project, (runSteps before p).notices ++ later.notices,
        later.outcome.map (before.log p ++ ·)⟩ := by
  induction before generalizing p with
  | nil =>
    have ho : ∀ o : Except PipelineError (List Applied), o.map ([] ++ ·) = o := fun o => by
      cases o <;> rfl
    simp only [log, ho]
    rfl
  | cons t before ih =>
    obtain ⟨ht, hb⟩ := succeeds_cons.1 h
    rw [List.cons_append, runSteps_of_success ht, runSteps_of_success ht, ih hb, leave_cons]
    simp only [List.cons_append, List.append_assoc]
    congr 1
    cases (runSteps rest (leave before (t.apply p).project)).outcome <;> rfl

/-- What is left after steps that succeed. -/
theorem project_runSteps (h : steps.Succeeds p) : (runSteps steps p).project = steps.leave p := by
  have he := runSteps_append h []
  rw [List.append_nil] at he
  rw [he]
  rfl

/-- The messages of steps that succeed. -/
theorem messages_runSteps (h : steps.Succeeds p) :
    Notice.messages (runSteps steps p).notices = steps.said p := by
  induction steps generalizing p with
  | nil => rfl
  | cons t steps ih =>
    obtain ⟨ht, hs⟩ := succeeds_cons.1 h
    rw [runSteps_of_success ht, said, ← ih hs]
    exact Notice.messages_append ..

/-- The entries of steps that succeed. -/
theorem outcome_runSteps (h : steps.Succeeds p) :
    (runSteps steps p).outcome = .ok (steps.log p) := by
  have he := runSteps_append h []
  rw [List.append_nil] at he
  rw [he]
  simp only [runSteps, Except.map, List.append_nil]

/-- Where not every step succeeds there is a first one that fails. -/
theorem exists_first_failure (h : ¬ steps.Succeeds p) :
    ∃ (before : Pipeline) (t : Transformation) (after : Pipeline) (cause : StepError),
      steps = before ++ t :: after ∧ before.Succeeds p ∧
        (t.apply (before.leave p)).failure = some cause := by
  induction steps generalizing p with
  | nil => exact absurd (succeeds_nil p) h
  | cons t steps ih =>
    cases ht : (t.apply p).failure with
    | some cause => exact ⟨[], t, steps, cause, rfl, succeeds_nil p, ht⟩
    | none =>
      have hs : ¬ Succeeds steps (t.apply p).project := fun hs => h (succeeds_cons.2 ⟨ht, hs⟩)
      obtain ⟨before, u, after, cause, rfl, hb, hu⟩ := ih hs
      exact ⟨t :: before, u, after, cause, rfl, succeeds_cons.2 ⟨ht, hb⟩, hu⟩

/-! ### Runs -/

/-- A run that a step ends. -/
theorem run_of_failure (hb : before.Succeeds p)
    (ht : (t.apply (before.leave p)).failure = some cause) (after : Pipeline) :
    run (before ++ t :: after) p =
      ⟨(t.apply (before.leave p)).project,
        (runSteps before p).notices ++
          (applying t :: (t.apply (before.leave p)).notices ++ [failed t cause]),
        .error (.stepFailed t.name cause)⟩ := by
  simp only [run, runSteps_append hb, runSteps_of_failure ht, Except.map]

/-- A run of steps that all succeed. -/
theorem run_of_succeeds (h : steps.Succeeds p) :
    run steps p =
      ⟨steps.leave p,
        (runSteps steps p).notices ++ [.log ⟨.info, .pipeline, "pipeline complete",
          [("steps", .plain (toString (steps.log p).length))]⟩],
        .ok ⟨steps.log p, (steps.leave p).frameworks, (steps.leave p).appendFramework⟩⟩ := by
  simp only [run, outcome_runSteps h, project_runSteps h]

/-- The messages of a run that a step ends are those of the steps up to it. -/
theorem messages_run_of_failure (hb : before.Succeeds p)
    (ht : (t.apply (before.leave p)).failure = some cause) (after : Pipeline) :
    Notice.messages (run (before ++ t :: after) p).notices =
      before.said p ++ Notice.messages (t.apply (before.leave p)).notices := by
  rw [run_of_failure hb ht, Notice.messages_append, messages_runSteps hb, applying,
    List.cons_append, Notice.messages_cons_log, Notice.messages_append, failed,
    Notice.messages_cons_log]
  exact congrArg _ (List.append_nil _)

/-- The messages of a run of steps that all succeed are those of the steps. -/
theorem messages_run_of_succeeds (h : steps.Succeeds p) :
    Notice.messages (run steps p).notices = steps.said p := by
  rw [run_of_succeeds h, Notice.messages_append, messages_runSteps h, Notice.messages_cons_log]
  exact List.append_nil _

/-- A run fails where a step fails on what it receives. -/
theorem exists_outcome_run_eq_error_iff :
    (∃ e, (run steps p).outcome = .error e) ↔ ¬ steps.Succeeds p := by
  constructor
  · rintro ⟨e, he⟩ h
    rw [run_of_succeeds h] at he
    cases he
  · intro h
    obtain ⟨before, t, after, cause, rfl, hb, ht⟩ := exists_first_failure h
    exact ⟨_, by rw [run_of_failure hb ht]⟩

/-- A run with a result is one in which every step succeeds. -/
theorem succeeds_of_outcome {result : Completed} (h : (run steps p).outcome = .ok result) :
    steps.Succeeds p := by
  by_contra hn
  obtain ⟨e, he⟩ := exists_outcome_run_eq_error_iff.2 hn
  exact absurd (h.symm.trans he) nofun

/-- The result of a run has one entry for each step. -/
theorem applied_of_outcome {result : Completed} (h : (run steps p).outcome = .ok result) :
    result.applied = steps.log p := by
  rw [run_of_succeeds (succeeds_of_outcome h)] at h
  rw [← Except.ok.inj h]

/-- **A run ends at the first step that fails.**  It fails exactly where some step fails on
what it receives.  With `t` the first such step, the error is that of `t`, the project is as
`t` left it, the messages are those of the steps up to `t`, and the steps after `t` could be
any others.  Where no step fails there is a result, with one entry for each step. -/
theorem run_ends_at_first_failure (steps : Pipeline) (p : Project) :
    let ran := steps.run p
    ((∃ e, ran.outcome = .error e) ↔
      ∃ (before : Pipeline) (t : Transformation) (after : Pipeline),
        steps = before ++ t :: after ∧ (t.apply (before.leave p)).failure ≠ none) ∧
    (∀ (before : Pipeline) (t : Transformation) (after : Pipeline) (cause : StepError),
      steps = before ++ t :: after → before.Succeeds p →
      (t.apply (before.leave p)).failure = some cause →
        ran.outcome = .error (.stepFailed t.name cause) ∧
        ran.project = (t.apply (before.leave p)).project ∧
        Notice.messages ran.notices =
          before.said p ++ Notice.messages (t.apply (before.leave p)).notices ∧
        ∀ others : Pipeline, run (before ++ t :: others) p = ran) ∧
    (steps.Succeeds p →
      ∃ result, ran.outcome = .ok result ∧
        result.applied.map (·.name) = steps.names ∧
        ran.project = steps.leave p ∧
        Notice.messages ran.notices = steps.said p ∧
        result.frameworks = ran.project.frameworks ∧
        result.appendFramework = ran.project.appendFramework) := by
  refine ⟨?_, ?_, ?_⟩
  · rw [exists_outcome_run_eq_error_iff, Succeeds]
    simp only [not_forall, exists_prop, ne_eq]
  · rintro before t after cause rfl hb ht
    refine ⟨?_, ?_, messages_run_of_failure hb ht after, fun others => ?_⟩
    · rw [run_of_failure hb ht]
    · rw [run_of_failure hb ht]
    · rw [run_of_failure hb ht, run_of_failure hb ht]
  · intro h
    refine ⟨⟨steps.log p, (steps.leave p).frameworks, (steps.leave p).appendFramework⟩, ?_,
      map_name_log steps p, ?_, messages_run_of_succeeds h, ?_, ?_⟩ <;>
    rw [run_of_succeeds h]

/-- A step that clears the flag, says so, and then fails. -/
def halfway : Transformation where
  name := "halfway"
  apply p :=
    ⟨{ p with appendFramework := false }, [.progress "flag cleared"], some (.unsupported "stuck")⟩

theorem run_ends_at_first_failure_halfway :
    let steps : Pipeline :=
      [.setFrameworks ["net6.0"] true, halfway, .setFrameworks ["net8.0"] true]
    let ran := steps.run (.empty .classic)
    ran.outcome = .error (.stepFailed "halfway" (.unsupported "stuck")) ∧
      ran.project =
        { Project.empty .classic with frameworks := ["net6.0"], appendFramework := false } ∧
      Notice.messages ran.notices = ["Target frameworks set to net6.0", "flag cleared"] ∧
      ∃ result, (run [.setFrameworks ["net6.0"] true] (.empty .classic)).outcome = .ok result ∧
        result.applied.map (·.name) = ["target-framework"] := by
  intro steps ran
  have hs : Succeeds [.setFrameworks ["net6.0"] true] (.empty .classic) :=
    succeeds_cons.2 ⟨rfl, succeeds_nil _⟩
  obtain ⟨-, hf, -⟩ := run_ends_at_first_failure steps (.empty .classic)
  obtain ⟨ho, hp, hm, -⟩ := hf [.setFrameworks ["net6.0"] true] halfway
    [.setFrameworks ["net8.0"] true] (.unsupported "stuck") rfl hs rfl
  obtain ⟨result, hr, hn, -⟩ := (run_ends_at_first_failure _ _).2.2 hs
  exact ⟨ho, hp, hm, result, hr, hn⟩

/-! ### The guard -/

/-- A project of an unsupported kind is refused. -/
theorem migrate_of_unsupported {kind : ProjectKind} (h : p.unsupportedKind = some kind) :
    steps.migrate p = ⟨p, declared kind :: refusal kind, .ok (.rejected kind)⟩ := by
  rw [migrate, h]

/-- Any other project goes through the steps. -/
theorem migrate_of_supported (h : p.unsupportedKind = none) :
    steps.migrate p =
      ⟨(steps.run p).project, (steps.run p).notices, (steps.run p).outcome.map .migrated⟩ := by
  simp only [migrate, h, runOn, Option.getD_some]

/-- The verdict is that of the project before the run. -/
theorem outcome_migrate_eq_rejected_iff {kind : ProjectKind} :
    (steps.migrate p).outcome = .ok (.rejected kind) ↔ p.unsupportedKind = some kind := by
  cases hk : p.unsupportedKind with
  | some found => simp only [migrate_of_unsupported hk, Except.ok.injEq, Outcome.rejected.injEq,
      Option.some.injEq]
  | none =>
    rw [migrate_of_supported hk]
    cases (steps.run p).outcome <;> simp [Except.map]

/-- A migrated project is one that the guard lets pass and that the steps get through. -/
theorem outcome_migrate_eq_migrated_iff {result : Completed} :
    (steps.migrate p).outcome = .ok (.migrated result) ↔
      p.unsupportedKind = none ∧ (steps.run p).outcome = .ok result := by
  cases hk : p.unsupportedKind with
  | some found => simp only [migrate_of_unsupported hk, Except.ok.injEq, reduceCtorEq, false_and]
  | none =>
    rw [migrate_of_supported hk]
    cases (steps.run p).outcome <;> simp [Except.map]

/-- **The guard decides before anything runs.**  A project of an unsupported kind is left as it
is, with one message and whatever the steps are; the verdict is that of the project before the
run.  Any other project fares as in a run without the guard, and a run always has a result, so
that nothing stands in for one.  Without a project the guard fails, and a run has no result. -/
theorem migrate_guards_run (steps : Pipeline) (p : Project) :
    let ran := steps.migrate p
    (∀ kind, ran.outcome = .ok (.rejected kind) ↔ p.unsupportedKind = some kind) ∧
    (∀ kind, p.unsupportedKind = some kind →
      ran.project = p ∧
      Notice.messages ran.notices =
        ["Project type " ++ kind.description ++ " (" ++ kind.guid ++
          ") is not supported, migration skipped"] ∧
      ∀ others : Pipeline, others.migrate p = ran) ∧
    (p.unsupportedKind = none →
      ran.project = (steps.run p).project ∧
      Notice.messages ran.notices = Notice.messages (steps.run p).notices ∧
      (∀ e, ran.outcome = .error e ↔ (steps.run p).outcome = .error e) ∧
      ∀ result, ran.outcome = .ok (.migrated result) ↔ (steps.run p).outcome = .ok result) ∧
    (∀ standIn, (steps.runOn (some p)).getD standIn = steps.run p) ∧
    steps.migrateOn (some p) = .ok ran ∧
    steps.migrateOn none = .error (.guard .missingProject) ∧
    steps.runOn none = none := by
  intro ran
  refine ⟨fun kind => outcome_migrate_eq_rejected_iff, fun kind hk => ?_, fun hk => ?_,
    fun _ => rfl, rfl, rfl, rfl⟩
  · have hr : ran = _ := migrate_of_unsupported hk
    rw [hr]
    exact ⟨rfl, rfl, fun others => migrate_of_unsupported hk⟩
  · have hr : ran = _ := migrate_of_supported hk
    rw [hr]
    refine ⟨rfl, rfl, fun e => ?_, fun result => ?_⟩ <;>
    cases (steps.run p).outcome <;> simp [Except.map]

/-- A project that declares an unsupported kind. -/
def declaringProject : Project :=
  { Project.empty .classic with
    document := ⟨⟨⟨.classic, "Project"⟩, [.element ⟨.classic, kindsElement⟩
      [.text (braced "603c0e0b-db56-11dc-be95-000d561079b0")]]⟩⟩ }

/-- A step that adds the declaration to the document. -/
def declaring : Transformation where
  name := "declaring"
  apply p := ⟨{ p with document := declaringProject.document }, [.progress "declared"], none⟩

/-- The step does not have its own project refused, but every later one. -/
theorem migrate_guards_run_declaring :
    let kind : ProjectKind := ⟨braced "603C0E0B-DB56-11DC-BE95-000D561079B0", "ASP.NET MVC 1"⟩
    let first := migrate [declaring] (.empty .classic)
    let second := migrate [declaring, halfway] first.project
    (Project.empty .classic).unsupportedKind = none ∧
      (∃ result, first.outcome = .ok (.migrated result)) ∧
      Notice.messages first.notices = ["declared"] ∧
      first.project.unsupportedKind = some kind ∧
      second.outcome = .ok (.rejected kind) ∧ second.project = first.project := by
  intro kind first second
  have he : (Project.empty .classic).unsupportedKind = none := by decide +kernel
  obtain ⟨-, -, hm, -⟩ := migrate_guards_run [declaring] (.empty .classic)
  obtain ⟨hp, hn, -, ho⟩ := hm he
  have hd : first.project = declaringProject := hp
  have hk : first.project.unsupportedKind = some kind := by
    rw [hd]
    decide +kernel
  obtain ⟨hv, hr, -⟩ := migrate_guards_run [declaring, halfway] first.project
  exact ⟨he, ⟨_, (ho _).2 rfl⟩, hn, hk, (hv kind).2 hk, (hr kind hk).1⟩

end Pipeline
end Retarget
