/-
# Migrations made of framework steps

A framework step writes the append flag, and the target frameworks unless its list is empty.
So of any number of such steps, in one migration or in several, the last word on each setting
counts:

| setting | after the steps |
| --- | --- |
| frameworks | those of the last step with a list that is not empty, or as before |
| append flag | that of the last step, or as before |
| document, namespace | as before |

`Project.settle` says this of a list of steps at once, without running them.  Settling by one
list and then by another is settling by both (`settle_append`); this carries a run over its
steps, and a session of migrations over its calls.  The guard looks at nothing that a framework
step writes, so its verdict is the same before every call of a session.
-/

import Retarget.Options
import Retarget.Proofs.Pipeline

namespace Retarget

/-! ### The last word on each setting -/

/-- The last value that a list has to offer, or the one before it. -/
def lastOr {α : Type} (before : α) (l : List α) : α := l.getLast?.getD before

theorem lastOr_append {α : Type} (before : α) (l m : List α) :
    lastOr before (l ++ m) = lastOr (lastOr before l) m := by
  rw [lastOr, lastOr, lastOr, List.getLast?_append]
  cases m.getLast? <;> rfl

/-- A list has the same last value after it was read once. -/
theorem lastOr_lastOr {α : Type} (before : α) (l : List α) :
    lastOr (lastOr before l) l = lastOr before l := by
  cases h : l.getLast? with
  | none => simp only [lastOr, h, Option.getD_none]
  | some last => simp only [lastOr, h, Option.getD_some]

namespace Options

/-- The step that carries the options out. -/
def step (o : Options) : Transformation := .setFrameworks o.frameworks o.appendFramework

/-- What steps say: a message for each that sets the frameworks, and nothing for the others. -/
def announced (os : List Options) : List String :=
  (os.filter (·.frameworks ≠ [])).map fun o =>
    "Target frameworks set to " ++ Text.joined o.frameworks

theorem announced_cons (o : Options) (os : List Options) :
    announced (o :: os) = announced [o] ++ announced os := by
  rw [announced, announced, announced, ← List.map_append, ← List.filter_append]
  rfl

/-- The options as a pipeline are one step for each. -/
theorem flatMap_pipeline (os : List Options) : os.flatMap pipeline = os.map step :=
  List.map_eq_flatMap.symm

end Options

namespace Project

/-- The project with the last word of the steps on each setting. -/
def settle (p : Project) (os : List Options) : Project :=
  { p with
    frameworks := lastOr p.frameworks ((os.map (·.frameworks)).filter (· ≠ []))
    appendFramework := lastOr p.appendFramework (os.map (·.appendFramework)) }

variable {p : Project}

@[simp] theorem settle_nil (p : Project) : p.settle [] = p := rfl

theorem settle_append (p : Project) (os os' : List Options) :
    p.settle (os ++ os') = (p.settle os).settle os' := by
  simp only [settle, List.map_append, List.filter_append, lastOr_append]

/-- The same steps once more change nothing. -/
theorem settle_settle (p : Project) (os : List Options) :
    (p.settle os).settle os = p.settle os := by
  simp only [settle, lastOr_lastOr]

/-- The guard does not look at the settings. -/
theorem unsupportedKind_settle (p : Project) (os : List Options) :
    (p.settle os).unsupportedKind = p.unsupportedKind := rfl

end Project

namespace Pipeline

variable {p : Project}

/-! ### Runs of framework steps -/

/-- What one step leaves. -/
theorem project_apply_step (o : Options) (p : Project) :
    (o.step.apply p).project = p.settle [o] := by
  obtain ⟨frameworks, append⟩ := o
  cases frameworks <;> rfl

/-- What one step says. -/
theorem messages_apply_step (o : Options) (p : Project) :
    Notice.messages (o.step.apply p).notices = Options.announced [o] := by
  obtain ⟨frameworks, append⟩ := o
  cases frameworks <;> rfl

/-- A framework step cannot fail. -/
theorem succeeds_steps (os : List Options) (p : Project) : Succeeds (os.map Options.step) p := by
  induction os generalizing p with
  | nil => exact succeeds_nil p
  | cons o os ih => exact succeeds_cons.2 ⟨rfl, ih _⟩

/-- Steps leave the project settled by them. -/
theorem leave_steps (os : List Options) (p : Project) :
    leave (os.map Options.step) p = p.settle os := by
  induction os generalizing p with
  | nil => rfl
  | cons o os ih =>
    have ho : p.settle (o :: os) = (p.settle [o]).settle os := p.settle_append [o] os
    rw [List.map_cons, leave_cons, ih, project_apply_step, ho]

/-- Steps say what each of them says, in order. -/
theorem said_steps (os : List Options) (p : Project) :
    said (os.map Options.step) p = Options.announced os := by
  induction os generalizing p with
  | nil => rfl
  | cons o os ih => rw [List.map_cons, said, messages_apply_step, ih, ← Options.announced_cons]

/-- A migration by framework steps, where the guard lets the project pass. -/
theorem migrate_steps (os : List Options) (h : p.unsupportedKind = none) :
    let ran := migrate (os.map Options.step) p
    ran.project = p.settle os ∧
      ran.outcome = .ok (.migrated ⟨log (os.map Options.step) p, (p.settle os).frameworks,
        (p.settle os).appendFramework⟩) ∧
      Notice.messages ran.notices = Options.announced os := by
  have hs := succeeds_steps os p
  have hl := leave_steps os p
  intro ran
  have hr : ran = _ := migrate_of_supported h
  refine ⟨?_, ?_, ?_⟩
  · rw [hr, run_of_succeeds hs, hl]
  · rw [hr, run_of_succeeds hs, hl]
    rfl
  · rw [hr, messages_run_of_succeeds hs, said_steps]

/-! ### Sessions -/

/-- Migrations one after the other, each of the project that the one before it left: what each
came to, and the project after all of them. -/
def session : List Pipeline → Project → List (Ran Outcome) × Project
  | [], p => ([], p)
  | steps :: calls, p =>
    let ran := steps.migrate p
    let later := session calls ran.project
    (ran :: later.1, later.2)

/-- Each call of a session has its own entry. -/
theorem length_session (calls : List Pipeline) (p : Project) :
    (session calls p).1.length = calls.length := by
  induction calls generalizing p with
  | nil => rfl
  | cons steps calls ih => rw [session, List.length_cons, ih, List.length_cons]

/-- What each call keeps, a session keeps. -/
theorem session_induct {motive : Project → Prop} {calls : List Pipeline}
    (call : ∀ steps ∈ calls, ∀ q, motive q → motive (migrate steps q).project) (hp : motive p) :
    (∀ ran ∈ (session calls p).1, motive ran.project) ∧ motive (session calls p).2 := by
  induction calls generalizing p with
  | nil => exact ⟨fun ran h => absurd h List.not_mem_nil, hp⟩
  | cons steps calls ih =>
    have hfirst := call steps List.mem_cons_self p hp
    obtain ⟨hl, hr⟩ := ih (fun s hs => call s (List.mem_cons_of_mem _ hs)) hfirst
    refine ⟨fun ran h => ?_, hr⟩
    rcases List.mem_cons.1 h with rfl | h
    · exact hfirst
    · exact hl ran h

/-- Every call of a session on an unsupported project is refused, and leaves the project. -/
theorem session_of_unsupported {kind : ProjectKind} (h : p.unsupportedKind = some kind)
    (calls : List Pipeline) :
    (session calls p).2 = p ∧
      ∀ ran ∈ (session calls p).1, ran.outcome = .ok (.rejected kind) ∧ ran.project = p := by
  induction calls with
  | nil => exact ⟨rfl, fun ran hr => absurd hr List.not_mem_nil⟩
  | cons steps calls ih =>
    have hc : steps.migrate p = ⟨p, declared kind :: refusal kind, .ok (.rejected kind)⟩ :=
      migrate_of_unsupported h
    rw [session, hc]
    refine ⟨ih.1, fun ran hr => ?_⟩
    rcases List.mem_cons.1 hr with rfl | hr
    · exact ⟨rfl, rfl⟩
    · exact ih.2 ran hr

/-- A session of framework steps on a project that the guard lets pass. -/
theorem session_of_supported (calls : List (List Options)) (h : p.unsupportedKind = none) :
    let session := session (calls.map (·.map Options.step)) p
    session.2 = p.settle calls.flatten ∧
      (∀ ran ∈ session.1, ∃ result, ran.outcome = .ok (.migrated result)) ∧
      session.1.map (fun ran => Notice.messages ran.notices) = calls.map Options.announced := by
  induction calls generalizing p with
  | nil => exact ⟨rfl, fun ran hr => absurd hr List.not_mem_nil, rfl⟩
  | cons os calls ih =>
    obtain ⟨hp, ho, hm⟩ := migrate_steps os h
    -- The call leaves a project on which the guard's verdict is the same.
    obtain ⟨hleft, hall, hsaid⟩ := ih ((p.unsupportedKind_settle os).trans h)
    simp only [List.map_cons, session, hp, hm]
    refine ⟨?_, fun ran hr => ?_, ?_⟩
    · rw [hleft, List.flatten_cons, Project.settle_append]
    · rcases List.mem_cons.1 hr with rfl | hr
      · exact ⟨_, ho⟩
      · exact hall ran hr
    · rw [hsaid]

/-- **A session of framework migrations settles the project, or leaves it alone.**  Each call is
any pipeline of framework steps.  Document, namespace and the guard's verdict are the same after
every call.  An unsupported project is refused by every call, as the same kind, and stays what it
was.  Any other is migrated by every call; in the end it has the last frameworks that were not
empty and the last flag of all steps of all calls, and each call says one thing for each of its
steps that sets frameworks. -/
theorem framework_session (calls : List (List Options)) (p : Project) :
    let session := session (calls.map (·.flatMap Options.pipeline)) p
    session.1.length = calls.length ∧
    (∀ ran ∈ session.1, ran.project.document = p.document ∧ ran.project.space = p.space ∧
      ran.project.unsupportedKind = p.unsupportedKind) ∧
    (∀ kind, p.unsupportedKind = some kind → session.2 = p ∧
      ∀ ran ∈ session.1, ran.outcome = .ok (.rejected kind) ∧ ran.project = p) ∧
    (p.unsupportedKind = none →
      session.2 =
        { p with
          frameworks :=
            ((calls.flatten.map (·.frameworks)).filter (· ≠ [])).getLast?.getD p.frameworks
          appendFramework :=
            (calls.flatten.map (·.appendFramework)).getLast?.getD p.appendFramework } ∧
      (∀ ran ∈ session.1, ∃ result, ran.outcome = .ok (.migrated result)) ∧
      session.1.map (fun ran => Notice.messages ran.notices) = calls.map fun os =>
        (os.filter (·.frameworks ≠ [])).map fun o =>
          "Target frameworks set to " ++ Text.joined o.frameworks) := by
  intro session
  have hc : calls.map (·.flatMap Options.pipeline) = calls.map (·.map Options.step) :=
    List.map_congr_left fun os _ => Options.flatMap_pipeline os
  refine ⟨?_, ?_, fun kind hk => session_of_unsupported hk _, fun hk => ?_⟩
  · exact (length_session _ p).trans (List.length_map _)
  · -- One call settles the project, or leaves it as it is.
    refine (session_induct (motive := fun q => q.document = p.document ∧ q.space = p.space ∧
      q.unsupportedKind = p.unsupportedKind) (fun steps hs q hq => ?_) ⟨rfl, rfl, rfl⟩).1
    obtain ⟨os, -, rfl⟩ := List.mem_map.1 hs
    rw [Options.flatMap_pipeline]
    cases hk : q.unsupportedKind with
    | some kind =>
      rw [migrate_of_unsupported hk]
      exact hq
    | none =>
      rw [(migrate_steps os hk).1, Project.unsupportedKind_settle]
      exact hq
  · have hs := session_of_supported calls hk
    rw [← hc] at hs
    exact hs

/-- Three calls, one of them without a step: the frameworks come from the first step of the last
call and the flag from its second.  A project that declares an unsupported kind stays. -/
theorem framework_session_three_calls :
    let kind : ProjectKind := ⟨braced "603C0E0B-DB56-11DC-BE95-000D561079B0", "ASP.NET MVC 1"⟩
    let calls : List (List Options) :=
      [[⟨["net48"], true⟩, ⟨[], true⟩], [], [⟨["net6.0", "net6.0"], true⟩, ⟨[], false⟩]]
    let migrated := session (calls.map (·.flatMap Options.pipeline)) (.empty .classic)
    let refused := session (calls.map (·.flatMap Options.pipeline)) declaringProject
    (Project.empty .classic).unsupportedKind = none ∧
      migrated.2 = { Project.empty .classic with
        frameworks := ["net6.0", "net6.0"], appendFramework := false } ∧
      migrated.1.map (fun ran => Notice.messages ran.notices) =
        [["Target frameworks set to net48"], [], ["Target frameworks set to net6.0;net6.0"]] ∧
      declaringProject.unsupportedKind = some kind ∧ refused.2 = declaringProject ∧
      ∀ ran ∈ refused.1, ran.outcome = .ok (.rejected kind) := by
  intro kind calls migrated refused
  have he : (Project.empty .classic).unsupportedKind = none := by decide +kernel
  have hd : declaringProject.unsupportedKind = some kind := by decide +kernel
  obtain ⟨-, -, -, hm⟩ := framework_session calls (.empty .classic)
  obtain ⟨-, -, hr, -⟩ := framework_session calls declaringProject
  obtain ⟨hleft, -, hsaid⟩ := hm he
  obtain ⟨hstays, hrefused⟩ := hr kind hd
  exact ⟨he, hleft, hsaid, hd, hstays, fun ran h => (hrefused ran h).1⟩

end Pipeline
end Retarget
