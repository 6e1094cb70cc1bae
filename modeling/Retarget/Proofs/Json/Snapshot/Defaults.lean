/-
# Leaving out defaults changes nothing

A project can be spelled in many ways: each member that has its default can be written or
left out, at every place and in each name and element anew, and the namespace of the root can
as well be null (`SpellsProject`).  Blanks and escapes are free.  Each of these spellings reads
as the project, and the writer's own is one of them.

The members of a record stand in order, and each is written or, if it may be, left out
(`Entries`).  Such members fill the slots of their names and leave those of the others blank
(`MembersRead`).
-/

import Retarget.Proofs.Json.Snapshot.Alike
import Retarget.Proofs.Snapshot

namespace Retarget
namespace Json

/-! ### Spellings of a project -/

/-- A member of a record: its name, whether it has its default, and how its value is spelled. -/
structure Entry where
  key : String
  isDefault : Prop
  spells : Spelling → Prop

/-- The members in order, where each one with its default may be left out. -/
inductive Entries : List Entry → List (Spaced Literal × Spaced Spelling) → Prop where
  | done : Entries [] []
  | written {e : Entry} {es : List Entry} {m : Spaced Literal × Spaced Spelling}
      {ms : List (Spaced Literal × Spaced Spelling)} (key : m.1.value.text? = some e.key)
      (value : e.spells m.2.value) (h : Entries es ms) : Entries (e :: es) (m :: ms)
  | omitted {e : Entry} {es : List Entry} {ms : List (Spaced Literal × Spaced Spelling)}
      (default : e.isDefault) (h : Entries es ms) : Entries (e :: es) ms

/-- The value spells a record with these members. -/
def SpellsRecord (es : List Entry) (v : Spelling) : Prop :=
  ∃ inner ms, v = .object inner ms ∧ Entries es ms

/-- The value spells the text. -/
def SpellsText (s : String) (v : Spelling) : Prop := v.content? = some s

/-- The value spells a list of the texts. -/
def SpellsTexts (ss : List String) (v : Spelling) : Prop :=
  ∃ inner xs, v = .list inner xs ∧ List.Forall₂ (fun x s => SpellsText s x.value) xs ss

/-- The members of a name. -/
def nameEntries (name : Name) : List Entry :=
  [⟨"namespace", name.space = .none, SpellsText name.space.uri⟩,
    ⟨"local_name", False, SpellsText name.localName⟩]

/-- The value spells the name, perhaps without the empty namespace. -/
def SpellsName (name : Name) (v : Spelling) : Prop := SpellsRecord (nameEntries name) v

/-- The members of an element whose children are spelled in some way. -/
def elementEntries (name : Name) (children : List Node) (spells : List (Spaced Spelling) → Prop) :
    List Entry :=
  [⟨"name", False, SpellsName name⟩,
    ⟨"children", children = [], fun v => ∃ inner xs, v = .list inner xs ∧ spells xs⟩]

mutual

/-- The value spells the node; an element in it perhaps without an empty list of children. -/
def SpellsNode : Node → Spelling → Prop
  | .text s, v => SpellsText s v
  | .element name children, v =>
    SpellsRecord (elementEntries name children fun xs => SpellsNodes children xs) v

/-- The items spell the nodes. -/
def SpellsNodes : List Node → List (Spaced Spelling) → Prop
  | [], xs => xs = []
  | n :: ns, xs => ∃ y ys, xs = y :: ys ∧ SpellsNode n y.value ∧ SpellsNodes ns ys

end

/-- The members of a document. -/
def documentEntries (d : Document) : List Entry := [⟨"root", False, SpellsNode d.root.node⟩]

/-- The project has the namespace of its root element. -/
def HasRootNamespace (p : Project) : Prop := p.space = p.document.root.name.space

/-- The members of a project; the namespace of the root element may be null. -/
def projectEntries (p : Project) : List Entry :=
  [⟨frameworksKey, p.frameworks = [], SpellsTexts p.frameworks⟩,
    ⟨appendKey, p.appendFramework = true, fun v => v = .scalar (.flag p.appendFramework)⟩,
    ⟨"document", False, SpellsRecord (documentEntries p.document)⟩,
    ⟨"namespace", HasRootNamespace p, fun v =>
      SpellsText p.space.uri v ∨ HasRootNamespace p ∧ v = .scalar .null⟩]

/-- The value spells the project, perhaps without members that have their default. -/
def SpellsProject (p : Project) (v : Spelling) : Prop := SpellsRecord (projectEntries p) v

/-! ### Members of a record -/

/-- The members fill slots that give a record of which `P` holds. -/
def MembersRead {σ : Type} (fields : Fields σ) (levels : Nat)
    (ms : List (Spaced Literal × Spaced Spelling)) (P : σ → Prop) : Prop :=
  ∃ named slots x, Spelling.named? ms = some named ∧ (∀ n ∈ named, n.1 ∈ fields.keys) ∧
    Fields.fill? false fields levels named fields.blank = some slots ∧
      fields.finish slots = .ok x ∧ P x

/-- A pair of a part with one property and a part with another. -/
def Both {α σ : Type} (A : α → Prop) (P : σ → Prop) (x : α × σ) : Prop := A x.1 ∧ P x.2

section MembersRead

variable {α σ : Type} {shape : Shape α} {rest : Fields σ} {levels : Nat} {e : Entry} {es : List Entry}
  {ms : List (Spaced Literal × Spaced Spelling)} {A : α → Prop} {P : σ → Prop}

theorem membersRead_done (h : Entries [] ms) : MembersRead .done levels ms fun _ => True := by
  cases h
  exact ⟨[], (), (), rfl, (fun _ h => nomatch h), rfl, rfl, trivial⟩

/-- The first member fills its slot, or has its default and leaves the slot blank. -/
theorem exists_firstSlot (h : Entries (e :: es) ms) (he : e.key ∉ rest.keys)
    (hx : ∀ v, e.spells v → ∃ x, Shape.ofSpelling? shape levels v = some x ∧ A x)
    (hr : ∀ {ms}, Entries es ms → MembersRead rest levels ms P) :
    ∃ named slot slots y, Spelling.named? ms = some named ∧ (∀ n ∈ named, n.1 ∈ e.key :: rest.keys) ∧
      fillNext (Shape.ofSpelling? shape levels) (Fields.fill? false rest levels) e.key named
        (none, rest.blank) = some (slot, slots) ∧
      rest.finish slots = .ok y ∧ P y ∧ ((∃ x, slot = some x ∧ A x) ∨ slot = none ∧ e.isDefault) := by
  cases h with
  | @written _ _ m ms hk hv h =>
    obtain ⟨x, hx, ha⟩ := hx _ hv
    obtain ⟨named, slots, y, hn, hkeys, hf, hy, hp⟩ := hr h
    have hne : ∀ n ∈ named, n.1 ≠ e.key := fun n hn heq => he (heq ▸ hkeys n hn)
    have hnamed : Spelling.named? (m :: ms) = some ((e.key, m.2.value) :: named) :=
      Spelling.named?_eq_some_iff.2 (.cons ⟨hk, rfl⟩ (Spelling.named?_eq_some_iff.1 hn))
    have hmem : ∀ n ∈ (e.key, m.2.value) :: named, n.1 ∈ e.key :: rest.keys := List.forall_mem_cons.2
      ⟨List.mem_cons_self .., fun n hn => List.mem_cons_of_mem _ (hkeys n hn)⟩
    refine ⟨_, some x, slots, y, hnamed, hmem, ?_, hy, hp, .inl ⟨x, rfl, ha⟩⟩
    have hkey : (e.key, m.2.value).1 = e.key := rfl
    rw [fillNext_cons (Fields.fill?_nil rest levels) (Fields.fill?_cons rest levels),
      fillNext_of_eq (Fields.fill?_nil rest levels) hkey, fillSlot, hx, Option.map_some,
      Option.map_some, Option.bind_some, fillNext_of_forall_ne hne, hf, Option.map_some]
  | omitted hd h =>
    obtain ⟨named, slots, y, hn, hkeys, hf, hy, hp⟩ := hr h
    have hne : ∀ n ∈ named, n.1 ≠ e.key := fun n hn heq => he (heq ▸ hkeys n hn)
    refine ⟨named, none, slots, y, hn, fun n hn => List.mem_cons_of_mem _ (hkeys n hn), ?_, hy, hp,
      .inr ⟨rfl, hd⟩⟩
    rw [fillNext_of_forall_ne hne, hf, Option.map_some]

/-- A required member that is written, or stands for null, goes before those of the rest. -/
theorem membersRead_required (h : Entries (e :: es) ms) (he : e.key ∉ rest.keys)
    (hx : ∀ v, e.spells v → ∃ x, Shape.ofSpelling? shape levels v = some x ∧ A x)
    (hd : e.isDefault → ∃ x, shape.absent? = some x ∧ A x)
    (hr : ∀ {ms}, Entries es ms → MembersRead rest levels ms P) :
    MembersRead (.required e.key shape rest) levels ms (Both A P) := by
  obtain ⟨named, slot, slots, y, hn, hkeys, hf, hy, hp, hslot⟩ := exists_firstSlot h he hx hr
  obtain ⟨x, hor, ha⟩ : ∃ x, slot.or shape.absent? = some x ∧ A x := by
    rcases hslot with ⟨x, rfl, ha⟩ | ⟨rfl, hdef⟩
    · exact ⟨x, rfl, ha⟩
    · obtain ⟨x, hx, ha⟩ := hd hdef
      exact ⟨x, hx, ha⟩
  refine ⟨named, (slot, slots), (x, y), hn, hkeys, hf, ?_, ha, hp⟩
  rw [Fields.finish, hor, hy]
  rfl

/-- A defaulted member that is written, or has its default, goes before those of the rest. -/
theorem membersRead_defaulted {fallback : α} (h : Entries (e :: es) ms) (he : e.key ∉ rest.keys)
    (hx : ∀ v, e.spells v → ∃ x, Shape.ofSpelling? shape levels v = some x ∧ A x)
    (hd : e.isDefault → A fallback) (hr : ∀ {ms}, Entries es ms → MembersRead rest levels ms P) :
    MembersRead (.defaulted e.key shape fallback rest) levels ms (Both A P) := by
  obtain ⟨named, slot, slots, y, hn, hkeys, hf, hy, hp, hslot⟩ := exists_firstSlot h he hx hr
  have ha : A (slot.getD fallback) := by
    rcases hslot with ⟨x, rfl, ha⟩ | ⟨rfl, hdef⟩
    · exact ha
    · exact hd hdef
  refine ⟨named, (slot, slots), (slot.getD fallback, y), hn, hkeys, hf, ?_, ha, hp⟩
  rw [Fields.finish, hy]
  rfl

end MembersRead

/-- A record reads from members that fill its slots. -/
theorem ofSpelling?_record {α σ : Type} {title : String} {fields : Fields σ} {make : σ → α} {l : Nat}
    {es : List Entry} {v : Spelling} {P : σ → Prop} (h : SpellsRecord es v)
    (hm : ∀ {ms}, Entries es ms → MembersRead fields l ms P) :
    ∃ x, Shape.ofSpelling? (.record title false fields make) (l + 1) v = some (make x) ∧ P x := by
  obtain ⟨inner, ms, rfl, h⟩ := h
  obtain ⟨named, slots, x, hn, -, hf, hx, hp⟩ := hm h
  refine ⟨x, ?_, hp⟩
  rw [Shape.ofSpelling?, deeper, hn, Option.bind_some, hf, Option.bind_some, hx]
  rfl

/-! ### Nothing else is spelled -/

theorem exists_entry_of_mem {es : List Entry} {ms : List (Spaced Literal × Spaced Spelling)}
    (h : Entries es ms) {m : Spaced Literal × Spaced Spelling} (hm : m ∈ ms) :
    ∃ e ∈ es, m.1.value.text? = some e.key ∧ e.spells m.2.value := by
  induction h with
  | done => cases hm
  | @written e es n ms hk hv _ ih =>
    rcases List.mem_cons.1 hm with rfl | hm
    · exact ⟨e, List.mem_cons_self .., hk, hv⟩
    · obtain ⟨e', he, h⟩ := ih hm
      exact ⟨e', List.mem_cons_of_mem _ he, h⟩
  | omitted _ _ ih =>
    obtain ⟨e', he, h⟩ := ih hm
    exact ⟨e', List.mem_cons_of_mem _ he, h⟩

theorem onlyKnown_of_spellsText {role : Role} {s : String} {v : Spelling} (h : SpellsText s v) :
    OnlyKnown role v := by
  cases v with
  | scalar s => exact .scalar s
  | _ => cases h

theorem onlyKnown_of_spellsRecord {role : Role} {es : List Entry} {v : Spelling}
    (h : SpellsRecord es v)
    (hes : ∀ e ∈ es, ∃ r, role.member? e.key = some r ∧ ∀ w, e.spells w → OnlyKnown r w) :
    OnlyKnown role v := by
  obtain ⟨inner, ms, rfl, h⟩ := h
  refine .object (fun m hm key hk => ?_) fun m hm key r hk hr => ?_
  · obtain ⟨e, he, hk', -⟩ := exists_entry_of_mem h hm
    obtain ⟨r, hr, -⟩ := hes e he
    obtain rfl := Option.some.inj (hk.symm.trans hk')
    exact hr ▸ rfl
  · obtain ⟨e, he, hk', hv⟩ := exists_entry_of_mem h hm
    obtain ⟨r', hr', hw⟩ := hes e he
    obtain rfl := Option.some.inj (hk.symm.trans hk')
    obtain rfl := Option.some.inj (hr.symm.trans hr')
    exact hw _ hv

theorem onlyKnown_of_spellsName {name : Name} {v : Spelling} (h : SpellsName name v) :
    OnlyKnown .name v :=
  onlyKnown_of_spellsRecord h <| List.forall_mem_cons.2
    ⟨⟨.other, rfl, fun _ => onlyKnown_of_spellsText⟩,
      List.forall_mem_singleton.2 ⟨.other, rfl, fun _ => onlyKnown_of_spellsText⟩⟩

mutual

theorem onlyKnown_of_spellsNode : ∀ (n : Node) {v : Spelling}, SpellsNode n v → OnlyKnown .element v
  | .text _, _, h => onlyKnown_of_spellsText h
  | .element _ children, _, h => by
    refine onlyKnown_of_spellsRecord h (List.forall_mem_cons.2
      ⟨⟨.name, rfl, fun _ => onlyKnown_of_spellsName⟩,
        List.forall_mem_singleton.2 ⟨.children, rfl, ?_⟩⟩)
    rintro _ ⟨inner, xs, rfl, hxs⟩
    exact .list fun _ x hx => onlyKnown_of_spellsNodes children hxs x (List.mem_of_getElem? hx)

theorem onlyKnown_of_spellsNodes : ∀ (ns : List Node) {xs : List (Spaced Spelling)},
    SpellsNodes ns xs → ∀ x ∈ xs, OnlyKnown .element x.value
  | [], xs, h => by
    obtain rfl : xs = [] := h
    exact fun _ h => nomatch h
  | n :: ns, xs, h => by
    obtain ⟨y, ys, rfl, hy, hys⟩ := h
    exact List.forall_mem_cons.2 ⟨onlyKnown_of_spellsNode n hy, onlyKnown_of_spellsNodes ns hys⟩

end

/-! ### What is spelled is read -/

section Read

variable {levels : Nat} {v : Spelling}

theorem ofSpelling?_namespace {space : Namespace} (h : SpellsText space.uri v) :
    Shape.ofSpelling? Namespace.shape levels v = some space := by
  have ht : Shape.ofSpelling? .text levels v = some space.uri := h
  rw [Namespace.shape, Shape.ofSpelling?, ht]
  rfl

theorem ofSpelling?_texts {ss : List String} (h : SpellsTexts ss v) :
    Shape.ofSpelling? (.list .text) (levels + 1) v = some ss := by
  obtain ⟨inner, xs, rfl, h⟩ := h
  exact mapM_eq_some_iff.2 h

theorem ofSpelling?_text {s : String} (h : SpellsText s v) :
    Shape.ofSpelling? .text levels v = some s := h

theorem ofSpelling?_name {name : Name} (h : SpellsName name v) :
    Shape.ofSpelling? Name.shape (levels + 1) v = some name := by
  have hm {ms : List (Spaced Literal × Spaced Spelling)} (h : Entries (nameEntries name) ms) :
      MembersRead (.defaulted "namespace" Namespace.shape Namespace.none
          (.required "local_name" .text .done)) levels ms (Both (name.space = ·) (Both (name.localName = ·) fun _ => True)) := by
    refine membersRead_defaulted h (by simp [Fields.keys]) (fun _ hv => ?_) id fun h => ?_
    · exact ⟨_, ofSpelling?_namespace hv, rfl⟩
    · refine membersRead_required h (by simp [Fields.keys]) (fun _ hv => ?_) False.elim
        membersRead_done
      exact ⟨_, ofSpelling?_text hv, rfl⟩
  obtain ⟨⟨space, localName, ⟨⟩⟩, hx, rfl, rfl, -⟩ := ofSpelling?_record h hm
  exact hx

/-- An element is read from its name and its children, if these are read. -/
theorem ofSpelling?_element {name : Name} {children : List Node}
    {spells : List (Spaced Spelling) → Prop}
    (h : SpellsRecord (elementEntries name children spells) v)
    (hc : ∀ xs, spells xs →
      xs.mapM (fun x => Shape.ofSpelling? Node.shape levels x.value) = some children) :
    Shape.ofSpelling? Element.shape (levels + 2) v = some ⟨name, children⟩ := by
  have hm {ms : List (Spaced Literal × Spaced Spelling)}
      (h : Entries (elementEntries name children spells) ms) :
      MembersRead (.required "name" Name.shape (.defaulted "children" (.list Node.shape) [] .done))
        (levels + 1) ms (Both (name = ·) (Both (children = ·) fun _ => True)) := by
    refine membersRead_required h (by simp [Fields.keys]) (fun _ hv => ?_) False.elim fun h => ?_
    · exact ⟨_, ofSpelling?_name hv, rfl⟩
    · refine membersRead_defaulted h (by simp [Fields.keys]) (fun _ hv => ?_) id membersRead_done
      obtain ⟨inner, xs, rfl, hxs⟩ := hv
      exact ⟨children, hc xs hxs, rfl⟩
  obtain ⟨⟨name', children', ⟨⟩⟩, hx, rfl, rfl, -⟩ := ofSpelling?_record h hm
  exact hx

end Read

mutual

/-- **A node is read from its spelling**, which takes two levels for each element. -/
theorem ofSpelling?_node_spelled : ∀ (n : Node) {levels : Nat} {v : Spelling}, SpellsNode n v →
    2 * n.nesting ≤ levels → Shape.ofSpelling? Node.shape levels v = some n
  | .text s, levels, v, h, _ => by
    cases v with
    | scalar t =>
      cases t with
      | text l =>
        have hl : l.text? = some s := h
        rw [ofSpelling?_node, Spelling.value?, Scalar.value?, hl]
        rfl
      | _ => cases h
    | _ => cases h
  | .element name children, levels, v, h, hn => by
    rw [Node.nesting] at hn
    obtain ⟨l, rfl⟩ := Nat.exists_eq_add_of_le' (show 2 ≤ levels by omega)
    exact (ofSpelling?_element_iff (onlyKnown_of_spellsNode _ h) _ ⟨name, children⟩).1
      (ofSpelling?_element h fun xs hxs => mapM_spelled children hxs (by omega))

theorem mapM_spelled : ∀ (ns : List Node) {levels : Nat} {xs : List (Spaced Spelling)},
    SpellsNodes ns xs → 2 * Node.nestingAll ns ≤ levels →
    xs.mapM (fun x => Shape.ofSpelling? Node.shape levels x.value) = some ns
  | [], levels, xs, h, _ => by
    obtain rfl : xs = [] := h
    rfl
  | n :: ns, levels, xs, h, hn => by
    obtain ⟨y, ys, rfl, hy, hys⟩ := h
    rw [Node.nestingAll] at hn
    rw [List.mapM_cons, ofSpelling?_node_spelled n hy (by omega), mapM_spelled ns hys (by omega)]
    rfl

end

/-- The root of a document is read from its spelling. -/
theorem ofSpelling?_root {e : Element} {levels : Nat} {v : Spelling} (h : SpellsNode e.node v)
    (hn : 2 * e.nesting ≤ levels) : Shape.ofSpelling? Element.shape levels v = some e :=
  (ofSpelling?_element_iff (onlyKnown_of_spellsNode _ h) levels e).2 (ofSpelling?_node_spelled _ h hn)

theorem ofSpelling?_document {d : Document} {levels : Nat} {v : Spelling}
    (h : SpellsRecord (documentEntries d) v) (hn : 2 * d.root.nesting ≤ levels) :
    Shape.ofSpelling? Document.shape (levels + 1) v = some d := by
  have hm {ms : List (Spaced Literal × Spaced Spelling)} (h : Entries (documentEntries d) ms) :
      MembersRead (.required "root" Element.shape .done) levels ms
        (Both (d.root = ·) fun _ => True) := by
    refine membersRead_required h (by simp [Fields.keys]) (fun _ hv => ?_) False.elim
      membersRead_done
    exact ⟨_, ofSpelling?_root hv hn, rfl⟩
  obtain ⟨⟨root, ⟨⟩⟩, hx, rfl, -⟩ := ofSpelling?_record h hm
  exact hx

/-- The namespace of a project, if it is written, and else that of the root. -/
def StandsFor (p : Project) (space? : Option Namespace) : Prop :=
  space?.getD p.document.root.name.space = p.space

theorem exists_ofSpelling?_nullable {p : Project} {levels : Nat} {v : Spelling}
    (h : SpellsText p.space.uri v ∨ HasRootNamespace p ∧ v = .scalar .null) :
    ∃ space?, Shape.ofSpelling? (.nullable Namespace.shape) levels v = some space? ∧
      StandsFor p space? := by
  rcases h with h | ⟨hp, rfl⟩
  · have hv : v.isNull = false := by
      cases v with
      | scalar s => cases s <;> first | rfl | cases h
      | _ => rfl
    refine ⟨some p.space, ?_, rfl⟩
    rw [Shape.ofSpelling?, hv, ofSpelling?_namespace h]
    rfl
  · exact ⟨none, rfl, hp.symm⟩

theorem ofSpelling?_project {p : Project} {levels : Nat} {v : Spelling} (h : SpellsProject p v)
    (hn : 2 * p.document.root.nesting ≤ levels) :
    Shape.ofSpelling? Project.shape (levels + 2) v = some p := by
  have hm {ms : List (Spaced Literal × Spaced Spelling)} (h : Entries (projectEntries p) ms) :
      MembersRead (.defaulted frameworksKey (.list .text) [] (.defaulted appendKey .flag true
          (.required "document" Document.shape
            (.required "namespace" (.nullable Namespace.shape) .done))))
        (levels + 1) ms (Both (p.frameworks = ·) (Both (p.appendFramework = ·)
          (Both (p.document = ·) (Both (StandsFor p) fun _ => True)))) := by
    refine membersRead_defaulted h (by simp [Fields.keys, frameworksKey, appendKey])
      (fun _ hv => ?_) id fun h => ?_
    · exact ⟨_, ofSpelling?_texts hv, rfl⟩
    refine membersRead_defaulted h (by simp [Fields.keys, appendKey]) (fun _ hv => ?_) id fun h => ?_
    · exact ⟨_, hv ▸ rfl, rfl⟩
    refine membersRead_required h (by simp [Fields.keys]) (fun _ hv => ?_) False.elim fun h => ?_
    · exact ⟨_, ofSpelling?_document hv hn, rfl⟩
    refine membersRead_required h (by simp [Fields.keys]) (fun _ hv => ?_) (fun hd => ?_)
      membersRead_done
    · exact exists_ofSpelling?_nullable hv
    · exact ⟨none, rfl, hd.symm⟩
  obtain ⟨⟨frameworks, append, document, space?, ⟨⟩⟩, hx, rfl, rfl, rfl, hs, -⟩ :=
    ofSpelling?_record h hm
  have hs : space?.getD p.document.root.name.space = p.space := hs
  rw [Project.shape, hx]
  dsimp only
  rw [hs]

/-! ### The spelling of the writer -/

theorem spellsText_spelling (s : String) (level : Nat) :
    SpellsText s (Tree.spelling level (.text s)) :=
  Literal.text?_of s

/-- A member that is written in its place. -/
theorem entries_memberSpellings {e : Entry} {es : List Entry} {level : Nat} {t : Tree}
    {ms : List (String × Tree)} (hv : e.spells (Tree.spelling (level + 1) t))
    (h : Entries es (Tree.memberSpellings level ms)) :
    Entries (e :: es) (Tree.memberSpellings level ((e.key, t) :: ms)) :=
  .written (Literal.text?_of e.key) hv h

theorem entries_member {e : Entry} {es : List Entry} {level : Nat} {t : Tree} {isDefault : Bool}
    {ms : List (String × Tree)} (hd : isDefault = true → e.isDefault)
    (hv : e.spells (Tree.spelling (level + 1) t)) (h : Entries es (Tree.memberSpellings level ms)) :
    Entries (e :: es) (Tree.memberSpellings level (Tree.member e.key t isDefault ++ ms)) := by
  rw [Tree.member]
  cases isDefault with
  | true => exact .omitted (hd rfl) h
  | false => exact entries_memberSpellings hv h

theorem spellsName_spelling (name : Name) (level : Nat) :
    SpellsName name (Tree.spelling level name.tree) :=
  ⟨_, _, rfl, entries_member Namespace.isNone_iff.1 (spellsText_spelling ..)
    (entries_memberSpellings (spellsText_spelling ..) .done)⟩

mutual

theorem spellsNode_spelling : ∀ (n : Node) (level : Nat), SpellsNode n (Tree.spelling level n.tree)
  | .text s, level => spellsText_spelling s level
  | .element name children, level => by
    have hc : Entries [⟨"children", children = [], fun v => ∃ inner xs, v = .list inner xs ∧
          SpellsNodes children xs⟩] (Tree.memberSpellings level
        (Tree.member "children" (.list (Node.trees children)) children.isEmpty ++ [])) :=
      entries_member List.isEmpty_iff.1 ⟨_, _, rfl, spellsNodes_spellings children _⟩ .done
    rw [List.append_nil] at hc
    exact ⟨_, _, rfl, entries_memberSpellings (spellsName_spelling name _) hc⟩

theorem spellsNodes_spellings : ∀ (ns : List Node) (level : Nat),
    SpellsNodes ns (Tree.spellings level (Node.trees ns))
  | [], _ => rfl
  | n :: ns, level => ⟨_, _, rfl, spellsNode_spelling n _, spellsNodes_spellings ns level⟩

end

theorem spellsTexts_spelling (ss : List String) (level : Nat) :
    SpellsTexts ss (Tree.spelling level (Tree.texts ss)) := by
  refine ⟨_, _, rfl, ?_⟩
  induction ss with
  | nil => exact .nil
  | cons s ss ih => exact .cons (spellsText_spelling s (level + 1)) ih

/-- **The writer spells the project.** -/
theorem spellsProject_spelling (p : Project) (level : Nat) :
    SpellsProject p (Tree.spelling level p.tree) := by
  have hd : SpellsRecord (documentEntries p.document) (Tree.spelling (level + 1) p.document.tree) :=
    ⟨_, _, rfl, entries_memberSpellings (spellsNode_spelling p.document.root.node _) .done⟩
  exact ⟨_, _, rfl, entries_memberSpellings (spellsTexts_spelling ..) (entries_memberSpellings rfl
    (entries_memberSpellings hd (entries_memberSpellings (.inl (spellsText_spelling ..)) .done)))⟩

/-! ### Texts -/

/-- **Leaving out defaults changes nothing.**  Whichever members with their default are left
out of the spelling of a project, it reads as the project. -/
theorem read_of_spellsProject {p : Project} {t : Spaced Spelling}
    (nesting_le : p.document.root.nesting ≤ 62) (h : SpellsProject p t.value) :
    read Project.shape (Spelling.text t) = .ok p :=
  read_text_eq_ok_iff.2 (ofSpelling?_project h (show 2 * p.document.root.nesting ≤ 125 by omega))

/-- A `P` in the classic namespace around an empty `Q` in none, with all defaults. -/
def sparseProject : Project :=
  ⟨[], true, ⟨⟨⟨.classic, "P"⟩, [.element ⟨.none, "Q"⟩ []]⟩⟩, .classic⟩

/-- The project with nothing but the document, and in it with the empty namespace of `Q` but
not with the empty list of its children. -/
def sparseSpelling : Spaced Spelling :=
  let space (uri : String) := tightMember "namespace" (Tree.spelling 0 (.text uri))
  let localName (s : String) := tightMember "local_name" (Tree.spelling 0 (.text s))
  let child := Spelling.object [] [tightMember "name" (.object [] [space "", localName "Q"])]
  let name := Spelling.object [] [space Namespace.classic.uri, localName "P"]
  let root := Spelling.object []
    [tightMember "name" name, tightMember "children" (.list [] [⟨[], child, []⟩])]
  ⟨[], .object [] [tightMember "document" (.object [] [tightMember "root" root])], []⟩

theorem read_sparseSpelling : sparseProject.document.root.nesting ≤ 62 ∧
    SpellsProject sparseProject sparseSpelling.value ∧
    read Project.shape (Spelling.text sparseSpelling) = .ok sparseProject := by
  have key (s : String) (v : Spelling) : (tightMember s v).1.value.text? = some s := Literal.text?_of s
  have name (name : Name) : SpellsName name (.object []
      [tightMember "namespace" (Tree.spelling 0 (.text name.space.uri)),
        tightMember "local_name" (Tree.spelling 0 (.text name.localName))]) :=
    ⟨_, _, rfl, .written (key ..) (spellsText_spelling _ 0)
      (.written (key ..) (spellsText_spelling _ 0) .done)⟩
  have child : SpellsNode (.element ⟨.none, "Q"⟩ []) _ :=
    ⟨[], _, rfl, .written (key ..) (name ⟨.none, "Q"⟩) (.omitted rfl .done)⟩
  have root : SpellsNode sparseProject.document.root.node _ :=
    ⟨[], _, rfl, .written (key ..) (name ⟨.classic, "P"⟩)
      (.written (key ..) ⟨[], [⟨[], _, []⟩], rfl, _, _, rfl, child, rfl⟩ .done)⟩
  have document : SpellsRecord (documentEntries sparseProject.document) _ :=
    ⟨[], _, rfl, .written (key ..) root .done⟩
  have h : SpellsProject sparseProject sparseSpelling.value :=
    ⟨[], _, rfl, .omitted rfl (.omitted rfl (.written (key ..) document (.omitted rfl .done)))⟩
  exact ⟨by decide, h, read_of_spellsProject (by decide) h⟩

end Json
end Retarget
