/-
# Members are found by name

In a JSON snapshot the order of the members is of no account, unknown members are passed
over, and a known one must not come twice; in YAML options every key must be known and come
once.
-/

import Retarget.Proofs.Json.Snapshot.Members
import Retarget.Proofs.Yaml.Keys
import Retarget.Proofs.Yaml.RoundTrip
import Retarget.Run

namespace Retarget

/-- The options in a mapping have no unknown and no repeated key. -/
theorem Options.keys_of_ofText {text : String} {o : Options} {names : List (Option String)}
    (h : Options.ofText text = .ok o) (hk : Yaml.IsMapping text names) :
    (∀ name ∈ names, name = some frameworksKey ∨ name = some appendKey) ∧ names.Nodup := by
  have hp : Yaml.Fields.ArePlain
      (.defaulted frameworksKey (.list .text) [] (.defaulted appendKey .flag true .done)) :=
    ⟨trivial, trivial, trivial⟩
  unfold Options.ofText at h
  split at h
  · rename_i x hx
    obtain ⟨hall, hnodup⟩ := Yaml.keys_of_read hp hx hk
    refine ⟨fun name hn => ?_, hnodup⟩
    obtain ⟨key, hkey, rfl⟩ := hall name hn
    simpa [Fields.keys] using hkey
  · cases h

/-- **Members are found by name.**  A text that reads as a project can be taken apart, and
reads as the same project after the members of its objects have changed places and unknown
ordinary members have come in; a text with a repeated member is refused.  Options are refused
if they have an unknown or repeated key. -/
theorem members_by_name {text : String} {p : Project} (h : Json.read Project.shape text = .ok p) :
    (∃ t, Json.Spelling.text t = text) ∧
    (∀ t w, Json.Spelling.text t = text → Json.Varies .project Json.depthLimit t.value w.value →
      Json.read Project.shape (Json.Spelling.text w) = .ok p) ∧
    (∀ w : Json.Spaced Json.Spelling, Json.Repeats .project w.value →
      ∃ e, Json.read Project.shape (Json.Spelling.text w) = .error e) ∧
    ∀ (options : String) (names : List (Option String)), Yaml.IsMapping options names →
      ((∃ name ∈ names, name ≠ some frameworksKey ∧ name ≠ some appendKey) ∨ ¬ names.Nodup) →
        ∃ e, Options.ofText options = .error e := by
  refine ⟨Json.exists_text_of_read h, ?_, fun w hw => ?_, fun options names hm hk => ?_⟩
  · rintro t w rfl hw
    exact Json.read_varies .project hw h
  · exact Json.exists_read_eq_error_of_repeats .project hw
  · cases hr : Options.ofText options with
    | error e => exact ⟨e, rfl⟩
    | ok o =>
      obtain ⟨hall, hnodup⟩ := Options.keys_of_ofText hr hm
      rcases hk with ⟨name, hn, h1, h2⟩ | hk
      · exact ((hall name hn).elim h1 h2).elim
      · exact (hk hnodup).elim

namespace Json

/-- A member with the number `1` in a list. -/
def numbersMember : Spaced Literal × Spaced Spelling :=
  let one : Numeral := ⟨false, .positive ⟨⟨'1', rfl⟩, []⟩ (by decide), none, none⟩
  tightMember "numbers" (.list [] [⟨[], .scalar (.number one), []⟩])

/-- The member of a document that holds an element named `P`, with these members more. -/
def tightRoot (more : List (Spaced Literal × Spaced Spelling)) : Spaced Literal × Spaced Spelling :=
  let name := Spelling.object [] [tightMember "local_name" (.scalar (.text (.of "P")))]
  tightMember "root" (.object [] (tightMember "name" name :: more))

/-- The member of a project that holds a document of such a root. -/
def tightDocument (more : List (Spaced Literal × Spaced Spelling)) : Spaced Literal × Spaced Spelling :=
  tightMember "document" (.object [] [tightRoot more])

/-- A member with null. -/
def nullMember (key : String) : Spaced Literal × Spaced Spelling := tightMember key (.scalar .null)

/-- The text `{"document": {"root": {"name": {"local_name": "P"}}}, "namespace": null}`,
without blanks. -/
def tightProject : Spaced Spelling := ⟨[], .object [] [tightDocument [], nullMember "namespace"], []⟩

/-- The same with the members of the project in the other order, and with a list of numbers
in the root. -/
def variedProject : Spaced Spelling :=
  ⟨[], .object [] [nullMember "namespace", tightDocument [numbersMember]], []⟩

theorem roleOf_tightMember (role : Role) (key : String) (v : Spelling) :
    roleOf role (tightMember key v) = (role.member? key).getD .other := by
  rw [roleOf, tightMember, Literal.text?_of, Option.bind_some]

theorem varies_tightProject : Varies .project depthLimit tightProject.value variedProject.value := by
  have numbers : Ordinary (depthLimit - 1 - 1 - 1) numbersMember.2.value := by
    refine .list fun x hx => ?_
    obtain rfl := List.mem_singleton.1 hx
    exact .integer ⟨rfl, rfl, by decide, by decide⟩
  have unknown : ∃ key, numbersMember.1.value.text? = some key ∧ Role.element.member? key = none :=
    ⟨"numbers", Literal.text?_of _, by decide⟩
  have root (v : Spaced Literal × Spaced Spelling) : Varies .element (depthLimit - 1 - 1)
      (.object [] [v]) (.object [] [v, numbersMember]) :=
    .of_members [v] [numbersMember] (.cons ⟨rfl, .refl ..⟩ .nil)
      (List.forall_mem_singleton.2 ⟨unknown, numbers⟩) (.refl _)
  have document : Varies .document (depthLimit - 1) (tightDocument []).2.value
      (tightDocument [numbersMember]).2.value := by
    refine .of_members [tightRoot [numbersMember]] [] (.cons ⟨rfl, ?_⟩ .nil) (fun _ h => nomatch h)
      (.refl _)
    rw [tightRoot, roleOf_tightMember]
    exact root _
  refine .of_members [tightDocument [numbersMember], nullMember "namespace"] []
    (.cons ⟨rfl, ?_⟩ (.cons ⟨rfl, .refl ..⟩ .nil)) (fun _ h => nomatch h) (List.Perm.swap ..)
  rw [tightDocument, roleOf_tightMember]
  exact document

theorem repeats_namespace :
    Repeats .project (.object [] [nullMember "namespace", nullMember "namespace"]) := by
  have hn : (nullMember "namespace").1.value.text? = some "namespace" := Literal.text?_of _
  refine Repeats.here (by decide : (Role.project.member? "namespace").isSome) ?_
  simp [hn]

end Json

/-- The project of `Json.tightProject`. -/
def tightlySpelled : Project := ⟨[], true, ⟨⟨⟨.none, "P"⟩, []⟩⟩, .none⟩

/-- The text `{"document": {"root": {"name": {"local_name": "P"}}}, "namespace": null}` with
its members in another order and one more, the text of an object with two namespaces, and
options with a `name`. -/
theorem members_by_name_tight :
    Json.read Project.shape (Json.Spelling.text Json.tightProject) = .ok tightlySpelled ∧
    Json.read Project.shape (Json.Spelling.text Json.variedProject) = .ok tightlySpelled ∧
    (∃ e, Json.read Project.shape (Json.Spelling.text
      ⟨[], .object [] [Json.nullMember "namespace", Json.nullMember "namespace"], []⟩) = .error e) ∧
    ∃ e, Options.ofText (Yaml.render (.record [("name", .flag true)])) = .error e := by
  have h : Json.read Project.shape (Json.Spelling.text Json.tightProject) = .ok tightlySpelled :=
    Json.read_text_eq_ok_iff.2 rfl
  obtain ⟨-, hv, hr, ho⟩ := members_by_name h
  have hm : Yaml.IsMapping (Yaml.render (.record [("name", .flag true)])) [some "name"] :=
    Yaml.isMapping_render (Yaml.named_record (by simp [Yaml.memberNames, Tree.Named.flag]))
  exact ⟨h, hv _ _ rfl Json.varies_tightProject, hr _ Json.repeats_namespace,
    ho _ _ hm (.inl ⟨some "name", List.mem_singleton_self _, by decide⟩)⟩

end Retarget
