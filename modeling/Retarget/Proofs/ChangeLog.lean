/-
# The change log telescopes

Each entry of a run shows what one step changed.  Read across the entries, the changes of one
setting lead from its value before the run to its value after it (`Leads`):

    old value of the first  =  value before the run
    new value of each       =  old value of the next
    new value of the last   =  value after the run

Steps that leave the setting alone have no change in the list; where no step changes it the
list is empty, and the setting is the same after the run as before it.  The frameworks are then
the same as a list, not only as the text that reports show.
-/

import Retarget.Proofs.Pipeline
import Mathlib.Data.List.Chain

namespace Retarget

namespace Setting

/-- The setting has the same value in both projects. -/
def Same : Setting → Project → Project → Prop
  | frameworks, p, q => p.frameworks = q.frameworks
  | appendFramework, p, q => p.appendFramework = q.appendFramework

theorem Same.refl (f : Setting) (p : Project) : f.Same p p := by cases f <;> rfl

theorem Same.trans {f : Setting} {p q r : Project} (h : f.Same p q) (h' : f.Same q r) :
    f.Same p r := by
  cases f with
  | frameworks => exact Eq.trans h h'
  | appendFramework => exact Eq.trans h h'

/-- The same value is shown as the same text. -/
theorem Same.shown_eq {f : Setting} {p q : Project} (h : f.Same p q) : p.shown f = q.shown f := by
  cases f with
  | frameworks => exact congrArg Text.joined h
  | appendFramework => exact congrArg flagText h

theorem differs_iff {f : Setting} {p q : Project} : f.differs p q ↔ ¬ f.Same p q := by
  cases f with
  | frameworks => exact bne_iff_ne
  | appendFramework => exact bne_iff_ne

theorem same_of_differs_eq_false {f : Setting} {p q : Project} (h : f.differs p q = false) :
    f.Same p q := by
  by_contra hs
  rw [differs_iff.2 hs] at h
  cases h

end Setting

/-- The setting's value in the result of a run, as a text. -/
def Completed.shown (r : Completed) : Setting → String
  | .frameworks => Text.joined r.frameworks
  | .appendFramework => flagText r.appendFramework

/-- The changes of one setting among the entries, in order. -/
def changesOf (f : Setting) (entries : List Applied) : List Change :=
  (entries.flatMap (·.changes)).filter (·.field = f)

/-- The changes lead from one value to another, each going on where the one before it ended. -/
def Leads : String → List Change → String → Prop
  | a, [], b => a = b
  | a, c :: cs, b => c.oldValue = a ∧ Leads c.newValue cs b

namespace Leads

variable {a b : String} {cs : List Change}

/-- The first change starts at the first value. -/
theorem oldValue_head (h : Leads a cs b) (hn : cs ≠ []) : (cs.head hn).oldValue = a := by
  cases cs with
  | nil => exact absurd rfl hn
  | cons c cs => exact h.1

/-- The last change ends at the last value. -/
theorem newValue_getLast (h : Leads a cs b) (hn : cs ≠ []) : (cs.getLast hn).newValue = b := by
  induction cs generalizing a with
  | nil => exact absurd rfl hn
  | cons c cs ih =>
    cases cs with
    | nil => exact h.2
    | cons d cs => exact ih h.2 (List.cons_ne_nil d cs)

/-- Each change ends where the next one starts. -/
theorem isChain (h : Leads a cs b) : cs.IsChain fun c d => c.newValue = d.oldValue := by
  induction cs generalizing a with
  | nil => exact .nil
  | cons c cs ih =>
    cases cs with
    | nil => exact .singleton c
    | cons d cs => exact .cons_cons h.2.1.symm (ih h.2)

end Leads

/-! ### The changes of one step -/

/-- The changes of a step name each setting at most once, the frameworks first. -/
theorem map_field_changes (p q : Project) :
    (changes p q).map (·.field) = Setting.all.filter (Setting.differs p q) := by
  rw [changes, List.map_map]
  exact List.map_id _

/-- A change of a setting is listed exactly where the setting has changed. -/
theorem mem_map_field_changes {f : Setting} {p q : Project} :
    f ∈ (changes p q).map (·.field) ↔ ¬ f.Same p q := by
  have hf : f ∈ Setting.all := by cases f <;> decide
  rw [map_field_changes, List.mem_filter, Setting.differs_iff]
  exact and_iff_right hf

/-- No change is listed between projects that have the same settings. -/
theorem changes_eq_nil_iff {p q : Project} : changes p q = [] ↔ ∀ f : Setting, f.Same p q := by
  have hm : changes p q = [] ↔ ∀ f : Setting, f ∉ (changes p q).map (·.field) := by
    rw [← List.eq_nil_iff_forall_not_mem, List.map_eq_nil_iff]
  rw [hm]
  exact forall_congr' fun f => by rw [mem_map_field_changes, not_not]

/-- The changes of one setting that a step makes: one if it has changed the setting. -/
theorem filter_changes (f : Setting) (p q : Project) :
    (changes p q).filter (·.field = f) =
      if f.differs p q then [⟨f, p.shown f, q.shown f⟩] else [] := by
  cases f <;> cases hf : Setting.frameworks.differs p q <;>
    cases ha : Setting.appendFramework.differs p q <;> simp [changes, Setting.all, hf, ha]

/-! ### The changes of a run -/

namespace Pipeline

variable {steps : Pipeline} {p : Project}

/-- The changes of the first step come before those of the others. -/
theorem changesOf_log_cons (f : Setting) (t : Transformation) (steps : Pipeline) (p : Project) :
    changesOf f (log (t :: steps) p) =
      (if f.differs p (t.apply p).project then
          [⟨f, p.shown f, (t.apply p).project.shown f⟩] else []) ++
        changesOf f (steps.log (t.apply p).project) := by
  rw [log, changesOf, List.flatMap_cons, List.filter_append, filter_changes, changesOf]

/-- **The changes of a setting lead from its value before the steps to its value after.** -/
theorem leads_log (f : Setting) (steps : Pipeline) (p : Project) :
    Leads (p.shown f) (changesOf f (steps.log p)) ((steps.leave p).shown f) := by
  induction steps generalizing p with
  | nil => rfl
  | cons t steps ih =>
    rw [changesOf_log_cons, leave_cons]
    cases hd : f.differs p (t.apply p).project with
    | true => exact ⟨rfl, ih _⟩
    | false =>
      rw [(Setting.same_of_differs_eq_false hd).shown_eq]
      exact ih _

/-- A setting without changes is what it was. -/
theorem same_of_changesOf_log_eq_nil {f : Setting} (h : changesOf f (steps.log p) = []) :
    f.Same p (steps.leave p) := by
  induction steps generalizing p with
  | nil => exact .refl f p
  | cons t steps ih =>
    rw [changesOf_log_cons] at h
    obtain ⟨ht, hs⟩ := List.append_eq_nil_iff.1 h
    cases hd : f.differs p (t.apply p).project with
    | true => simp [hd] at ht
    | false => exact (Setting.same_of_differs_eq_false hd).trans (ih hs)

/-- **The change log telescopes.**  A run of steps that succeed has a result with one entry for
each step.  The changes of a setting over all entries start at its value before the run, fit
end to end, and end at its value after the run, which is that of the result; without a change
the setting is what it was.  The entry of a step names a setting at most once, the frameworks
first, and exactly where the step has changed it. -/
theorem change_log_telescopes (steps : Pipeline) (p : Project) (h : steps.Succeeds p) :
    ∃ result, (steps.run p).outcome = .ok result ∧
      (∀ f, let cs := changesOf f result.applied
        (cs = [] → f.Same p (steps.run p).project) ∧
        ∀ hn : cs ≠ [], (cs.head hn).oldValue = p.shown f ∧
          cs.IsChain (fun c d => c.newValue = d.oldValue) ∧
          (cs.getLast hn).newValue = (steps.run p).project.shown f ∧
          (cs.getLast hn).newValue = result.shown f) ∧
      result.applied.length = steps.length ∧
      ∀ (before : Pipeline) (t : Transformation) (after : Pipeline), steps = before ++ t :: after →
        ∃ entry, result.applied[before.length]? = some entry ∧ entry.name = t.name ∧
          (entry.changes.map (·.field)).Sublist [.frameworks, .appendFramework] ∧
          ∀ f, f ∈ entry.changes.map (·.field) ↔
            ¬ f.Same (before.leave p) (t.apply (before.leave p)).project := by
  rw [run_of_succeeds h]
  refine ⟨_, rfl, fun f => ?_, length_log steps p, ?_⟩
  · have hl := leads_log f steps p
    refine ⟨same_of_changesOf_log_eq_nil, fun hn => ?_⟩
    refine ⟨hl.oldValue_head hn, hl.isChain, hl.newValue_getLast hn, ?_⟩
    rw [hl.newValue_getLast hn]
    cases f <;> rfl
  · rintro before t after rfl
    refine ⟨_, getElem?_log before t after p, rfl, ?_, fun f => mem_map_field_changes⟩
    rw [map_field_changes]
    exact List.filter_sublist

/-- Steps that change the frameworks and back: two changes that lead to the first value. -/
theorem change_log_telescopes_there_and_back :
    let steps : Pipeline :=
      [.setFrameworks ["net6.0"] true, .setFrameworks [] false, .setFrameworks ["net45"] false]
    let p : Project := { Project.empty .classic with frameworks := ["net45"] }
    steps.Succeeds p ∧ ∃ result, (steps.run p).outcome = .ok result ∧
      changesOf .frameworks result.applied =
        [⟨.frameworks, "net45", "net6.0"⟩, ⟨.frameworks, "net6.0", "net45"⟩] ∧
      changesOf .appendFramework result.applied = [⟨.appendFramework, "true", "false"⟩] ∧
      (steps.run p).project.shown .frameworks = "net45" := by
  intro steps p
  have hs : steps.Succeeds p := succeeds_cons.2 ⟨rfl, succeeds_cons.2 ⟨rfl, succeeds_cons.2
    ⟨rfl, succeeds_nil _⟩⟩⟩
  obtain ⟨result, hr, hc, -⟩ := change_log_telescopes steps p hs
  obtain rfl : (⟨steps.log p, ["net45"], false⟩ : Completed) = result := Except.ok.inj hr
  have hf : changesOf .frameworks (steps.log p) =
      [⟨.frameworks, "net45", "net6.0"⟩, ⟨.frameworks, "net6.0", "net45"⟩] := by decide
  have hn : changesOf .frameworks (steps.log p) ≠ [] := by rw [hf]; exact List.cons_ne_nil _ _
  refine ⟨hs, _, hr, hf, by decide, ?_⟩
  rw [← ((hc .frameworks).2 hn).2.2.1]
  simp only [hf, List.getLast_cons_cons, List.getLast_singleton]

end Pipeline
end Retarget
