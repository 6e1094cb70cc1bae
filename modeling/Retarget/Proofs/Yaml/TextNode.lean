/-
# Text nodes stand in a snapshot as themselves

A project with a node at some place of a child list is written with the node between two texts that
do not depend on it, and its pieces stand between two lists of pieces that do not depend on it:

| inside | column | written as |
| --- | ---: | --- |
| project | 0 | `document:` and a record |
| document | 2 | `root:` and a record |
| element with `k` others around it | `2 k + 4` | `name:`, then `children:` and a list |
| child of that element | `2 k + 6` | `- ` and the node |

So a text node is one scalar at its place (`text_node_read_as_itself`): single quotes hold it if it
would mean something else without them, and whoever reads on at this place reads its text.
-/

import Retarget.Proofs.FirstMatch
import Retarget.Proofs.Yaml.RoundTrip
import Retarget.Proofs.Yaml.Scalar.Special

namespace Retarget

/-- The project with a node among the children of an element: `l` is the element's level, `ls` are
those above it. -/
def Project.withNode (p : Project) (ls : Surroundings) (l : Level) (n : Node) : Project :=
  p.withRoot (ls.around ⟨l.name, l.before ++ n :: l.after⟩)

namespace Yaml

open Written (spaces)

/-! ### Between fixed lists -/

/-- The lists of the first function are those of the second one, between two fixed lists. -/
def Encloses {ι α : Type} (f g : ι → List α) : Prop :=
  ∃ before after, ∀ x, f x = before ++ (g x ++ after)

namespace Encloses

variable {ι κ α : Type} {f g h : ι → List α}

theorem trans (h₁ : Encloses f g) (h₂ : Encloses g h) : Encloses f h := by
  obtain ⟨b₁, a₁, h₁⟩ := h₁
  obtain ⟨b₂, a₂, h₂⟩ := h₂
  exact ⟨b₁ ++ b₂, a₂ ++ a₁, fun x => by simp [h₁, h₂]⟩

theorem comp (h : Encloses f g) (k : κ → ι) : Encloses (fun x => f (k x)) fun x => g (k x) := by
  obtain ⟨b, a, h⟩ := h
  exact ⟨b, a, fun x => h (k x)⟩

theorem before (b : List α) (f : ι → List α) : Encloses (fun x => b ++ f x) f :=
  ⟨b, [], fun x => by simp⟩

end Encloses

/-! ### Pieces -/

theorem itemPieces_append (ts us : List Tree) :
    itemPieces (ts ++ us) = itemPieces ts ++ itemPieces us := by
  induction ts with
  | nil => rfl
  | cons t ts ih => rw [List.cons_append, itemPieces, itemPieces, ih, List.append_assoc]

theorem memberPieces_append (ms ns : List (String × Tree)) :
    memberPieces (ms ++ ns) = memberPieces ms ++ memberPieces ns := by
  induction ms with
  | nil => rfl
  | cons m ms ih =>
    rw [List.cons_append, memberPieces, memberPieces, ih, List.cons_append, List.append_assoc]

/-- An item keeps its pieces in a list, -/
theorem pieces_item (before after : List Tree) :
    Encloses (fun t => pieces (.list (before ++ t :: after))) pieces :=
  ⟨.sequenceStart none :: itemPieces before, itemPieces after ++ [.sequenceEnd], fun t => by
    simp [pieces, itemPieces_append, itemPieces]⟩

/-- and so does a member in a record. -/
theorem pieces_member (before : List (String × Tree)) (key : String)
    (after : List (String × Tree)) :
    Encloses (fun t => pieces (.record (before ++ (key, t) :: after))) pieces :=
  ⟨.mappingStart none :: (memberPieces before ++ [.scalar none key .plain]),
    memberPieces after ++ [.mappingEnd], fun t => by
    simp [pieces, memberPieces_append, memberPieces]⟩

/-! ### Characters -/

mutual

/-- What stands behind a value does not change it. -/
theorem write_append : ∀ (c : Nat) (t : Tree) (xs ys : List Char),
    write c t (xs ++ ys) = write c t xs ++ ys
  | c, .text s, xs, ys => by rw [write, write, List.append_assoc]
  | c, .flag b, xs, ys => by rw [write, write, List.append_assoc]
  | c, .list [], xs, ys => by rw [write, write, List.append_assoc]
  | c, .list (t :: ts), xs, ys => by
    rw [write, write, writeItems_append, write_append, List.cons_append, List.cons_append]
  | c, .record [], xs, ys => by rw [write, write, List.append_assoc]
  | c, .record ((key, t) :: ms), xs, ys => by
    rw [write, write, writeMembers_append, write_append]
    simp

theorem writeItems_append : ∀ (c : Nat) (ts : List Tree) (xs ys : List Char),
    writeItems c ts (xs ++ ys) = writeItems c ts xs ++ ys
  | c, [], xs, ys => rfl
  | c, t :: ts, xs, ys => by
    rw [writeItems, writeItems, writeItems_append, write_append]
    simp

theorem writeMembers_append : ∀ (c : Nat) (ms : List (String × Tree)) (xs ys : List Char),
    writeMembers c ms (xs ++ ys) = writeMembers c ms xs ++ ys
  | c, [], xs, ys => rfl
  | c, (key, t) :: ms, xs, ys => by
    rw [writeMembers, writeMembers, writeMembers_append, write_append]
    simp

end

theorem write_eq_append (c : Nat) (t : Tree) (rest : List Char) :
    write c t rest = write c t [] ++ rest := write_append c t [] rest

/-- Further items begin like a list, -/
theorem writeItems_eq {ts : List Tree} (h : ts ≠ []) (c : Nat) (rest : List Char) :
    writeItems c ts rest = spaces c ++ write c (.list ts) rest := by
  obtain ⟨t, ts, rfl⟩ := List.exists_cons_of_ne_nil h
  rw [writeItems, write]

/-- and further members like a record. -/
theorem writeMembers_eq {ms : List (String × Tree)} (h : ms ≠ []) (c : Nat) (rest : List Char) :
    writeMembers c ms rest = spaces c ++ write c (.record ms) rest := by
  obtain ⟨⟨key, t⟩, ms, rfl⟩ := List.exists_cons_of_ne_nil h
  rw [writeMembers, write]
  simp

/-- An item is written behind a dash, -/
theorem write_item (c : Nat) (before after : List Tree) :
    Encloses (fun t => write c (.list (before ++ t :: after)) [])
      fun t => '-' :: ' ' :: write (c + 2) t [] := by
  induction before with
  | nil =>
    refine ⟨[], writeItems c after [], fun t => ?_⟩
    change write c (.list (t :: after)) [] = _
    rw [write, write_eq_append]
    rfl
  | cons u before ih =>
    -- behind the first item the others begin a line of their own
    refine Encloses.trans ⟨'-' :: ' ' :: write (c + 2) u [] ++ spaces c, [], fun t => ?_⟩ ih
    change write c (.list (u :: (before ++ t :: after))) [] = _
    rw [write, write_eq_append, writeItems_eq (by simp)]
    simp

/-- and a member behind its name. -/
theorem write_member (c : Nat) (before : List (String × Tree)) (key : String)
    (after : List (String × Tree)) :
    Encloses (fun t => write c (.record (before ++ (key, t) :: after)) [])
      fun t => (lead c t).2 ++ write (lead c t).1 t [] := by
  induction before with
  | nil =>
    refine ⟨key.toList ++ [':'], writeMembers c after [], fun t => ?_⟩
    change write c (.record ((key, t) :: after)) [] = _
    rw [write, write_eq_append]
    simp
  | cons m before ih =>
    obtain ⟨name, u⟩ := m
    refine Encloses.trans ⟨name.toList ++ ':' :: (lead c u).2 ++ write (lead c u).1 u [] ++
      spaces c, [], fun t => ?_⟩ ih
    change write c (.record ((name, u) :: (before ++ (key, t) :: after))) [] = _
    rw [write, write_eq_append, writeMembers_eq (by simp)]
    simp

/-! ### Nodes in a project -/

theorem tree_element (name : Name) (before : List Node) (n : Node) (after : List Node) :
    (Node.element name (before ++ n :: after)).tree =
      .record ([("name", name.tree)] ++
        [("children", .list (Node.trees before ++ n.tree :: Node.trees after))]) := by
  have h : (before ++ n :: after).isEmpty = false := by simp
  rw [Node.tree, Tree.member, h, if_neg Bool.false_ne_true, Node.trees_eq_map, List.map_append,
    List.map_cons, ← Node.trees_eq_map, ← Node.trees_eq_map]
  rfl

/-- Where a list with some item in it is the value of a member, it begins on the next line. -/
theorem lead_list {ts : List Tree} (h : ts ≠ []) (c : Nat) :
    lead c (.list ts) = (c, '\n' :: spaces c) := by
  obtain ⟨t, ts, rfl⟩ := List.exists_cons_of_ne_nil h
  rfl

/-- A node stands behind a dash in its element, two columns further, -/
theorem write_element (c : Nat) (name : Name) (before after : List Node) :
    Encloses (fun n => write c (Node.element name (before ++ n :: after)).tree [])
      fun n => '-' :: ' ' :: write (c + 2) n.tree [] := by
  simp only [tree_element]
  refine ((write_member c _ "children" []).comp _).trans ?_
  simp only [lead_list (List.append_ne_nil_of_right_ne_nil _ (List.cons_ne_nil _ _))]
  exact (Encloses.before ('\n' :: spaces c) _).trans ((write_item c _ _).comp Node.tree)

/-- and has its pieces there. -/
theorem pieces_element (name : Name) (before after : List Node) :
    Encloses (fun n => pieces (Node.element name (before ++ n :: after)).tree)
      fun n => pieces n.tree := by
  simp only [tree_element]
  exact ((pieces_member _ "children" []).comp _).trans ((pieces_item _ _).comp Node.tree)

/-- So it is at every depth: each element around it takes two columns. -/
theorem write_around (c : Nat) (ls : Surroundings) (l : Level) :
    Encloses (fun n => write c (ls.around ⟨l.name, l.before ++ n :: l.after⟩).tree [])
      fun n => '-' :: ' ' :: write (c + 2 * ls.length + 2) n.tree [] := by
  induction ls generalizing c with
  | nil => exact write_element c l.name l.before l.after
  | cons k ls ih =>
    have hin := (write_element c k.name k.before k.after).comp fun n =>
      (Surroundings.around ls ⟨l.name, l.before ++ n :: l.after⟩).node
    have hcolumn : c + 2 * (k :: ls).length + 2 = c + 2 + 2 * ls.length + 2 := by
      rw [List.length_cons]
      omega
    rw [hcolumn]
    exact (hin.trans (.before ['-', ' '] _)).trans (ih (c + 2))

/-- Its pieces stand between those of the elements around it. -/
theorem pieces_around (ls : Surroundings) (l : Level) :
    Encloses (fun n => pieces (ls.around ⟨l.name, l.before ++ n :: l.after⟩).tree)
      fun n => pieces n.tree := by
  induction ls with
  | nil => exact pieces_element l.name l.before l.after
  | cons k ls ih => exact ((pieces_element k.name k.before k.after).comp _).trans ih

section Project

variable (p : Project)

/-- The root element of a project begins at the fourth column, -/
theorem write_withRoot :
    Encloses (fun e => write 0 (p.withRoot e).tree []) fun e => write 4 e.tree [] := by
  have hdocument := (write_member 0 [(frameworksKey, Tree.texts p.frameworks),
    (appendKey, .flag p.appendFramework)] "document" [("namespace", p.space.tree)]).comp
    fun e : Element => Document.tree ⟨e⟩
  have hroot := (write_member 2 [] "root" []).comp Element.tree
  exact ((hdocument.trans (.before ('\n' :: spaces 2) _)).trans hroot).trans
    (.before ('\n' :: spaces 4) _)

/-- and has its pieces there. -/
theorem pieces_withRoot :
    Encloses (fun e => pieces (p.withRoot e).tree) fun e => pieces e.tree := by
  have hdocument := (pieces_member [(frameworksKey, Tree.texts p.frameworks),
    (appendKey, .flag p.appendFramework)] "document" [("namespace", p.space.tree)]).comp
    fun e : Element => Document.tree ⟨e⟩
  exact hdocument.trans ((pieces_member [] "root" []).comp Element.tree)

end Project

/-- A text node in a project is written as one scalar behind a dash. -/
theorem write_withNode (p : Project) (ls : Surroundings) (l : Level) : ∃ front back, ∀ s : String,
    write 0 (p.withNode ls l (.text s)).tree [] =
      front ++ '-' :: ' ' :: (ended (Written.scalar (2 * ls.length + 6) s) ++ back) := by
  obtain ⟨front, back, h⟩ :=
    (((write_withRoot p).comp _).trans (write_around 4 ls l)).comp Node.text
  refine ⟨front, back, fun s => ?_⟩
  have hcolumn : max (4 + 2 * ls.length + 2) 2 = 2 * ls.length + 6 := by omega
  have hs : write (4 + 2 * ls.length + 2) (Node.text s).tree [] =
      ended (Written.scalar (2 * ls.length + 6) s) := by
    rw [Node.tree, write, hcolumn, List.append_nil]
  have hq := h s
  dsimp only at hq
  rwa [hs] at hq

/-- It is one piece among others. -/
theorem pieces_withNode (p : Project) (ls : Surroundings) (l : Level) :
    ∃ before after, ∀ s : String, pieces (p.withNode ls l (.text s)).tree =
      before ++ .scalar none s (Written.style s) :: after := by
  obtain ⟨before, after, h⟩ :=
    (((pieces_withRoot p).comp _).trans (pieces_around ls l)).comp Node.text
  exact ⟨before, after, fun s => h s⟩

/-- Where a scalar comes next that means its text, a node that is read there is the text. -/
theorem read_text_node {st : Stream} {s : String} {style : Style} {m : Mark} {rest : Pieces}
    {levels jumps : Nat} {path : Path} (h : Resolve.scalar none s style = .ok (.known (.text s))) :
    Shape.read st Node.shape levels path ⟨(.scalar none s style, m) :: rest, jumps⟩ =
      .ok (.text s, ⟨rest, jumps⟩) := by
  have hn : Node.ofValue? (.text s) = some (.text s) := Node.ofValueWithin_text _ s
  rw [Node.shape, Shape.read, value_scalar h]
  simp only [hn]

/-- Nothing else is read from the text of a project than the project. -/
theorem eq_of_read_render {p r : Project} (h : read Project.shape (render p.tree) = .ok r) :
    r = p := by
  rcases read_render_project_or p with hp | ⟨-, mark, hp⟩
  · exact Except.ok.inj (h.symm.trans hp)
  · rw [hp] at h
    cases h

/-- **No text node is mistaken for another scalar.**  A text that would mean something else without
quotes is special, and then it is written in single quotes; every text means itself in the style
in which it is written.  Wherever a text node stands among the children of an element, it is this
scalar behind a dash, between two texts in which it has no part.  The reader meets the scalar
there, with the text that was written; a value that is read on from there is the text, and a child
is the text node.  So nothing else is read than the project, and it is read unless its elements
nest too deep. -/
theorem text_node_read_as_itself :
    (∀ s : String, Resolve.Special s.toList ↔
      Resolve.scalar none s .plain ≠ .ok (.known (.text s))) ∧
    (∀ s : String, Resolve.Special s.toList → Written.style s = .singleQuoted ∧
      ∀ indent, Written.scalar indent s = '\'' :: (s.toList ++ ['\''])) ∧
    (∀ s : String, Written.style s ≠ .folded ∧
      Resolve.scalar none s (Written.style s) = .ok (.known (.text s))) ∧
    ∀ (p : Project) (ls : Surroundings) (l : Level), ∃ front back before after, ∀ s : String,
      let q := p.withNode ls l (.text s)
      let text := render q.tree
      text.toList =
        front ++ '-' :: ' ' :: (ended (Written.scalar (2 * ls.length + 6) s) ++ back) ∧
      (∃ l₁ m l₂, l₁.map (·.1) = before ∧ l₂.map (·.1) = after ∧
        (Stream.ofText text).pieces = l₁ ++ (.scalar none s (Written.style s), m) :: l₂ ∧
        ∀ levels path jumps,
          let a : Ahead := ⟨(.scalar none s (Written.style s), m) :: l₂, jumps⟩
          value (Stream.ofText text) levels path a = .ok (.text s, ⟨l₂, jumps⟩) ∧
          Shape.read (Stream.ofText text) Node.shape levels path a = .ok (.text s, ⟨l₂, jumps⟩)) ∧
      (∀ r, read Project.shape text = .ok r → r = q) ∧
      (q.document.root.nesting ≤ 63 → read Project.shape text = .ok q) := by
  refine ⟨fun s => Resolve.special_iff_scalar_ne, fun s => Written.style_of_special,
    fun s => ⟨Written.style_ne_folded, Written.scalar_means_text s⟩, fun p ls l => ?_⟩
  obtain ⟨front, back, hwrite⟩ := write_withNode p ls l
  obtain ⟨before, after, hpieces⟩ := pieces_withNode p ls l
  refine ⟨front, back, before, after, fun s => ?_⟩
  dsimp only
  refine ⟨by rw [render, String.toList_ofList, hwrite], ?_, fun r => eq_of_read_render,
    (read_render_eq_ok_iff _).2⟩
  -- the pieces of the text, cut where the scalar is
  obtain ⟨k, hk, hstream⟩ := ofText_render (named_project (p.withNode ls l (.text s)))
  obtain ⟨l₁, k, rfl, h₁, hk⟩ := List.map_eq_append_iff.1 (hk.trans (hpieces s))
  obtain ⟨m, l₂, rfl, h₂⟩ := exists_eq_cons hk
  have hs := Written.scalar_means_text s
  exact ⟨l₁, m, l₂, h₁, h₂, congrArg Stream.pieces hstream,
    fun levels path jumps => ⟨value_scalar hs, read_text_node hs⟩⟩

/-- A hexadecimal number with a sign, between a childless element and another text. -/
theorem text_node_read_as_itself_hexadecimal :
    let s := "-0x1F"
    let ls : Surroundings := [⟨⟨.classic, "Project"⟩, [.text " null"], []⟩]
    let l : Level := ⟨⟨.classic, "Compile"⟩, [.element ⟨.classic, "Link"⟩ []], [.text "~"]⟩
    let q := (Project.empty .classic).withNode ls l (.text s)
    Resolve.Special s.toList ∧ Written.scalar 8 s = "'-0x1F'".toList ∧
      q.document.root.nesting ≤ 63 ∧ read Project.shape (render q.tree) = .ok q := by
  intro s ls l q
  have hmark : (['0', 'x'], 16) ∈ Resolve.bases := by decide
  have hdigits : Resolve.number? 16 ['1', 'F'] = some 31 := by decide
  have hspecial : Resolve.Special s.toList := by
    have hs : s.toList = ['-'] ++ (['0', 'x'] ++ ['1', 'F']) := by decide
    rw [hs]
    exact .number (by decide) (.whole hmark hdigits (by decide) (by decide))
  have hsingle : '\'' :: (s.toList ++ ['\'']) = "'-0x1F'".toList := by decide
  have hnesting : q.document.root.nesting ≤ 63 := by decide
  obtain ⟨-, hquoted, -, hplaces⟩ := text_node_read_as_itself
  obtain ⟨front, back, before, after, h⟩ := hplaces (Project.empty .classic) ls l
  exact ⟨hspecial, ((hquoted s hspecial).2 8).trans hsingle, hnesting, (h s).2.2.2 hnesting⟩

end Yaml
end Retarget
