/-
# Which recorded changes can be seen

A change is recorded where a setting has another value than before, and shows the two values as
texts.  Flags that differ are shown as different texts.  Lists of frameworks are compared as
lists and shown joined, and joining forgets where one framework ends and the next begins:

| lists | shown as |
| --- | --- |
| `["net6.0;net8.0"]` and `["net6.0", "net8.0"]` | `net6.0;net8.0` |
| `[""]` and `[]` | the empty text |

These are the two ways in which it happens.  What two lists shown as one text have in common is
said without the text: cut at their semicolons, their frameworks give the same pieces, where an
empty list counts as one empty framework (`Text.allPieces`).  So a change of the frameworks cannot
be seen just if both lists have the same pieces, and that needs a semicolon within a framework or
the second row of the table (`recorded_changes_differ`).
-/

import Retarget.Proofs.ChangeLog
import Retarget.Proofs.Text

namespace Retarget

/-! ### Joined texts -/

namespace Text

variable {a b : List String}

/-- The pieces of all texts of the list, cut at semicolons; without texts, one empty piece. -/
def allPieces : List String → List (List Char)
  | [] => [[]]
  | s :: ss => (s :: ss).flatMap fun t => pieces ';' t.toList

/-- Joining the texts makes no new pieces and loses none. -/
theorem pieces_joined (ss : List String) : pieces ';' (joined ss).toList = allPieces ss := by
  induction ss with
  | nil => rfl
  | cons s ss ih =>
    cases ss with
    | nil => simp [joined, allPieces]
    | cons t ss =>
      rw [joined, String.append_assoc, String.toList_append, String.toList_append]
      show pieces ';' (s.toList ++ ';' :: (joined (t :: ss)).toList) = _
      rw [pieces_append_sep, ih]
      rfl

/-- **Lists are joined to the same text exactly if they have the same pieces.** -/
theorem joined_eq_joined_iff : joined a = joined b ↔ allPieces a = allPieces b := by
  constructor
  · intro h
    rw [← pieces_joined, ← pieces_joined, h]
  · intro h
    rw [← String.toList_inj, ← joinedWith_pieces ';' (joined a).toList, pieces_joined, h,
      ← pieces_joined, joinedWith_pieces]

/-- Texts free of semicolons are their own pieces. -/
theorem allPieces_cons_of_free {s : String} {ss : List String} (h : ∀ t ∈ s :: ss, ';' ∉ t.toList) :
    allPieces (s :: ss) = (s :: ss).map String.toList := by
  rw [allPieces, List.map_eq_flatMap]
  exact List.flatMap_congr fun t ht => pieces_of_not_mem (h t ht)

/-- Only a single empty text has the pieces of an empty list. -/
theorem eq_singleton_of_allPieces_eq (ha : ∀ s ∈ a, ';' ∉ s.toList) (hn : a ≠ [])
    (h : allPieces a = allPieces []) : a = [""] := by
  obtain ⟨s, ss, rfl⟩ := List.exists_cons_of_ne_nil hn
  rw [allPieces_cons_of_free ha, List.map_cons] at h
  obtain ⟨hs, hss⟩ := List.cons.inj h
  rw [List.map_eq_nil_iff.1 hss, String.toList_eq_nil_iff.1 hs]

/-- Without semicolons in them, different lists have the same pieces only if one of them is empty
and the other holds a single empty text. -/
theorem eq_or_perm_of_allPieces_eq (ha : ∀ s ∈ a, ';' ∉ s.toList) (hb : ∀ s ∈ b, ';' ∉ s.toList)
    (h : allPieces a = allPieces b) : a = b ∨ [a, b].Perm [[], [""]] := by
  cases a with
  | nil =>
    cases b with
    | nil => exact .inl rfl
    | cons t ts =>
      rw [eq_singleton_of_allPieces_eq hb (List.cons_ne_nil t ts) h.symm]
      exact .inr (.refl _)
  | cons s ss =>
    cases b with
    | nil =>
      rw [eq_singleton_of_allPieces_eq ha (List.cons_ne_nil s ss) h]
      exact .inr (.swap ..)
    | cons t ts =>
      rw [allPieces_cons_of_free ha, allPieces_cons_of_free hb] at h
      exact .inl (List.map_injective_iff.2 (fun _ _ => String.toList_inj.1) h)

end Text

/-! ### What one step records -/

variable {p q : Project}

theorem flagText_inj {a b : Bool} (h : flagText a = flagText b) : a = b := by
  revert h
  cases a <;> cases b <;> decide

/-- A recorded change is one of a setting that has changed, and shows its values. -/
theorem of_mem_changes {c : Change} (h : c ∈ changes p q) :
    ¬ c.field.Same p q ∧ c.oldValue = p.shown c.field ∧ c.newValue = q.shown c.field := by
  obtain ⟨f, hf, rfl⟩ := List.mem_map.1 h
  exact ⟨Setting.differs_iff.1 (List.mem_filter.1 hf).2, rfl, rfl⟩

/-- **A setting that has changed is shown as before only if it is a list of the same pieces.** -/
theorem shown_eq_shown_iff {f : Setting} (h : ¬ f.Same p q) :
    p.shown f = q.shown f ↔
      f = .frameworks ∧ Text.allPieces p.frameworks = Text.allPieces q.frameworks := by
  cases f with
  | frameworks => exact Text.joined_eq_joined_iff.trans (and_iff_right rfl).symm
  | appendFramework => exact ⟨fun hs => absurd (flagText_inj hs) h, nofun⟩

/-- Frameworks that have changed and are shown as before hold a semicolon, or there are none of
them on one side and a single empty one on the other. -/
theorem semicolon_or_perm_of_allPieces_eq (h : p.frameworks ≠ q.frameworks)
    (he : Text.allPieces p.frameworks = Text.allPieces q.frameworks) :
    (∃ f ∈ p.frameworks ++ q.frameworks, ';' ∈ f.toList) ∨
      [p.frameworks, q.frameworks].Perm [[], [""]] := by
  by_contra hn
  obtain ⟨hs, hp⟩ := not_or.1 hn
  have hfree : ∀ f ∈ p.frameworks ++ q.frameworks, ';' ∉ f.toList := fun f hf hc => hs ⟨f, hf, hc⟩
  rw [List.forall_mem_append] at hfree
  exact (Text.eq_or_perm_of_allPieces_eq hfree.1 hfree.2 he).elim h hp

/-! ### What a run records -/

namespace Pipeline

/-- **A recorded change can be seen, unless it only regroups the frameworks.**  In a run with a
result every change is that of a setting that its step has changed, and shows the values before
and after the step.  Both are the same text exactly if the change is one of frameworks that, cut
at their semicolons, are the same pieces as before.  There is then a semicolon within a framework,
or no framework on one side and a single empty one on the other.  The same goes for any two lists
of frameworks: they are shown as one text exactly if they have the same pieces. -/
theorem recorded_changes_differ (steps : Pipeline) (p : Project) (result : Completed)
    (h : (steps.run p).outcome = .ok result) :
    (∀ entry ∈ result.applied, ∀ c ∈ entry.changes,
      ∃ (before : Pipeline) (t : Transformation) (after : Pipeline),
        steps = before ++ t :: after ∧ entry.name = t.name ∧
        let q := before.leave p
        let r := (t.apply q).project
        ¬ c.field.Same q r ∧ c.oldValue = q.shown c.field ∧ c.newValue = r.shown c.field ∧
        (c.oldValue = c.newValue ↔
          c.field = .frameworks ∧ Text.allPieces q.frameworks = Text.allPieces r.frameworks) ∧
        (c.oldValue = c.newValue → (∃ f ∈ q.frameworks ++ r.frameworks, ';' ∈ f.toList) ∨
          [q.frameworks, r.frameworks].Perm [[], [""]])) ∧
    ∀ a b : List String, Text.joined a = Text.joined b ↔ Text.allPieces a = Text.allPieces b := by
  refine ⟨fun entry he c hc => ?_, fun _ _ => Text.joined_eq_joined_iff⟩
  rw [applied_of_outcome h] at he
  obtain ⟨before, t, after, hs, rfl⟩ := exists_of_mem_log he
  obtain ⟨hd, ho, hn⟩ := of_mem_changes hc
  have hiff := shown_eq_shown_iff hd
  rw [← ho, ← hn] at hiff
  refine ⟨before, t, after, hs, rfl, hd, ho, hn, hiff, fun hv => ?_⟩
  obtain ⟨hf, hp⟩ := hiff.1 hv
  rw [hf] at hd
  exact semicolon_or_perm_of_allPieces_eq hd hp

/-- Two frameworks are replaced by one that holds both, and the flag is cleared: the second change
can be seen, the first cannot. -/
theorem recorded_changes_differ_regrouped :
    let steps : Pipeline := [.setFrameworks ["net6.0;net8.0"] false]
    let p : Project := { Project.empty .classic with frameworks := ["net6.0", "net8.0"] }
    let regrouped : Change := ⟨.frameworks, "net6.0;net8.0", "net6.0;net8.0"⟩
    let cleared : Change := ⟨.appendFramework, "true", "false"⟩
    ∃ result, (steps.run p).outcome = .ok result ∧
      result.applied = [⟨"target-framework", [regrouped, cleared]⟩] ∧
      cleared.oldValue ≠ cleared.newValue ∧
      Text.allPieces ["net6.0", "net8.0"] = Text.allPieces ["net6.0;net8.0"] := by
  intro steps p regrouped cleared
  have hr : (steps.run p).outcome = .ok _ := rfl
  have ha : steps.log p = [⟨"target-framework", [regrouped, cleared]⟩] := by decide
  obtain ⟨hc, ht⟩ := recorded_changes_differ steps p _ hr
  obtain ⟨before, t, after, -, -, -, -, -, hiff, -⟩ := hc ⟨"target-framework", [regrouped, cleared]⟩
    (List.mem_singleton.2 rfl) cleared (List.mem_cons_of_mem _ (List.mem_singleton_self _))
  exact ⟨_, hr, ha, fun he => absurd (hiff.1 he).1 (by decide), (ht _ _).1 rfl⟩

/-- A run records a change of the frameworks that shows one text twice. -/
theorem regrouping_not_visible :
    ¬ ∀ (steps : Pipeline) (p : Project) (result : Completed), (steps.run p).outcome = .ok result →
      ∀ entry ∈ result.applied, ∀ c ∈ entry.changes, c.oldValue ≠ c.newValue := by
  intro h
  have hr := h [.setFrameworks ["net6.0;net8.0"] true]
    { Project.empty .classic with frameworks := ["net6.0", "net8.0"] } _ rfl
  exact hr _ (List.mem_singleton_self _) ⟨.frameworks, "net6.0;net8.0", "net6.0;net8.0"⟩
    (by decide) rfl

end Pipeline
end Retarget
