/-
# A pipeline run in two parts

A pipeline can be cut anywhere.  To run `first ++ second` on a project comes to the same as to
run `first` on it and then, if that had a result, `second` on the project that it left:

| `first` | `second` | the whole run |
| --- | --- | --- |
| fails | not run | fails like `first`, and leaves what `first` left |
| has a result | fails | fails like `second`, and leaves what `second` left |
| has a result | has a result | the entries of both, in order, with the settings of `second` |

The messages of the whole run are those of the parts that were run, one after the other.  Where
`first` fails, the two runs are the same in all they show (`run_append_of_not_succeeds`).  Where
it succeeds, the log of the two parts has a closing line for each and that of the whole run only
one, so that the messages are compared and not the notices (`messages_run_append`).
-/

import Retarget.Proofs.Pipeline

namespace Retarget
namespace Pipeline

variable {first : Pipeline} {p : Project}

/-- Steps after one that fails do not count. -/
theorem run_append_of_not_succeeds (h : ¬ first.Succeeds p) (second : Pipeline) :
    run (first ++ second) p = run first p := by
  obtain ⟨before, t, after, cause, rfl, hb, ht⟩ := exists_first_failure h
  rw [List.append_assoc, List.cons_append, run_of_failure hb ht, run_of_failure hb ht]

/-- What the steps after those that succeed leave. -/
theorem project_run_append (h : first.Succeeds p) (second : Pipeline) :
    (run (first ++ second) p).project = (run second (first.leave p)).project := by
  simp only [run, runSteps_append h]
  cases (runSteps second (first.leave p)).outcome <;> rfl

/-- The messages of the first steps come before those of the others. -/
theorem messages_run_append (h : first.Succeeds p) (second : Pipeline) :
    Notice.messages (run (first ++ second) p).notices =
      first.said p ++ Notice.messages (run second (first.leave p)).notices := by
  rw [← messages_runSteps h, ← Notice.messages_append]
  simp only [run, runSteps_append h]
  cases (runSteps second (first.leave p)).outcome with
  | error e => rfl
  | ok applied =>
    simp only [Except.map, Notice.messages_append, Notice.messages_cons_log, List.append_assoc]

/-- The entries of the first steps come before those of the others. -/
theorem outcome_run_append (h : first.Succeeds p) (second : Pipeline) :
    (run (first ++ second) p).outcome =
      (run second (first.leave p)).outcome.map fun result =>
        { result with applied := first.log p ++ result.applied } := by
  simp only [run, runSteps_append h]
  cases (runSteps second (first.leave p)).outcome <;> rfl

/-- **A pipeline can be run in two parts.**  If the first part fails, so does the whole, with the
same error, project and messages, and nothing of the second part is run.  If the first part has a
result, the whole run leaves the project that the second part leaves, with the messages of both,
and ends as the second part ends: with its error, or with the entries of both parts and the
settings of the second. -/
theorem run_in_two_parts (first second : Pipeline) (p : Project) :
    let whole := run (first ++ second) p
    let one := run first p
    let two := run second one.project
    (∀ e, one.outcome = .error e →
      whole.outcome = .error e ∧ whole.project = one.project ∧
        Notice.messages whole.notices = Notice.messages one.notices) ∧
    (∀ result, one.outcome = .ok result →
      whole.project = two.project ∧
      Notice.messages whole.notices =
        Notice.messages one.notices ++ Notice.messages two.notices ∧
      (∀ e, whole.outcome = .error e ↔ two.outcome = .error e) ∧
      ∀ final, two.outcome = .ok final →
        whole.outcome =
          .ok ⟨result.applied ++ final.applied, final.frameworks, final.appendFramework⟩) := by
  intro whole one two
  constructor
  · intro e he
    have hn : ¬ first.Succeeds p := exists_outcome_run_eq_error_iff.1 ⟨e, he⟩
    have hw : whole = one := run_append_of_not_succeeds hn second
    rw [hw]
    exact ⟨he, rfl, rfl⟩
  · intro result hr
    have hs : first.Succeeds p := succeeds_of_outcome hr
    have hone : one = _ := run_of_succeeds hs
    -- the second part starts from what the steps of the first leave, as in the whole run
    have htwo : two = run second (first.leave p) :=
      congrArg (run second) (congrArg Ran.project hone)
    have hlog : result.applied = first.log p := by
      rw [hone] at hr
      rw [← Except.ok.inj hr]
    have ho : whole.outcome = _ := outcome_run_append hs second
    rw [← htwo] at ho
    refine ⟨?_, ?_, fun e => ?_, fun final hf => ?_⟩
    · rw [htwo]
      exact project_run_append hs second
    · rw [htwo, messages_run_of_succeeds hs]
      exact messages_run_append hs second
    · rw [ho]
      cases two.outcome <;> simp [Except.map]
    · rw [ho, hf, hlog]
      rfl

/-- The step that fails stands in the second part, and then in the first. -/
theorem run_in_two_parts_halfway :
    let set : Pipeline := [.setFrameworks ["net6.0"] true]
    let whole := run (set ++ [halfway]) (.empty .classic)
    let early := run ([halfway] ++ set) (.empty .classic)
    let both := run (set ++ [.setFrameworks [] false]) (.empty .classic)
    whole.outcome = .error (.stepFailed "halfway" (.unsupported "stuck")) ∧
      Notice.messages whole.notices = ["Target frameworks set to net6.0", "flag cleared"] ∧
      early.outcome = .error (.stepFailed "halfway" (.unsupported "stuck")) ∧
      Notice.messages early.notices = ["flag cleared"] ∧
      both.outcome = .ok
        ⟨[⟨"target-framework", [⟨.frameworks, "", "net6.0"⟩]⟩,
          ⟨"target-framework", [⟨.appendFramework, "true", "false"⟩]⟩], ["net6.0"], false⟩ := by
  intro set whole early both
  obtain ⟨-, hw⟩ := run_in_two_parts set [halfway] (.empty .classic)
  obtain ⟨he, -⟩ := run_in_two_parts [halfway] set (.empty .classic)
  obtain ⟨-, hb⟩ := run_in_two_parts set [.setFrameworks [] false] (.empty .classic)
  obtain ⟨-, hm, ho, -⟩ := hw _ rfl
  obtain ⟨ho', -, hm'⟩ := he _ rfl
  obtain ⟨-, -, -, hf⟩ := hb _ rfl
  exact ⟨(ho _).2 rfl, hm.trans rfl, ho', hm'.trans rfl, hf _ rfl⟩

end Pipeline
end Retarget
