/-
# Nodes as buffered values

A node is read from a buffered value with a bound on how deep elements may nest, and the
bound is taken from the value itself.  Any greater bound would do (`Node.ofValueWithin_eq`),
so a node is an element if the value can be taken for one, and else the text of a scalar
(`Node.ofValue?_eq`): the recursion of the format, without a bound.
-/

import Retarget.Proofs.Data.Fits
import Retarget.Snapshot

namespace Retarget

/-- Members are put into the same slots by functions that do not differ on them. -/
theorem Put.all_congr {σ : Type} {isClosed : Bool} {put put' : Key → σ → Value → Put σ}
    {ms : List (Value × Value)} (h : ∀ m ∈ ms, ∀ key s, put key s m.2 = put' key s m.2) (s : σ) :
    Put.all isClosed put ms s = Put.all isClosed put' ms s := by
  induction ms generalizing s with
  | nil => rfl
  | cons m ms ih =>
    have ih := ih fun n hn => h n (List.mem_cons_of_mem _ hn)
    simp only [Put.all, h m (List.mem_cons_self ..), ih]

theorem mapM_congr {α β : Type} {f g : α → Option β} {xs : List α} (h : ∀ x ∈ xs, f x = g x) :
    xs.mapM f = xs.mapM g := by
  induction xs with
  | nil => rfl
  | cons x xs ih =>
    rw [List.mapM_cons, List.mapM_cons, h x (List.mem_cons_self ..),
      ih fun y hy => h y (List.mem_cons_of_mem _ hy)]

namespace Element

/-- The members of an element, when nodes are read by `node?`. -/
abbrev fieldsOver (node? : Value → Option Node) : Fields (Name × List Node × Unit) :=
  .required "name" Name.shape (.defaulted "children" (.list (.buffered "RawNode" node?)) [] .done)

/-- The name and the children among the members. -/
def membersOver (node? : Value → Option Node) (ms : List (Value × Value)) :
    Option (Option Name × Option (List Node) × Unit) :=
  Put.all false (fieldsOver node?).putValue ms (none, none, ())

theorem ofValue?_map (node? : Value → Option Node) (ms : List (Value × Value)) :
    (shapeOver node?).ofValue? (.map ms) = (membersOver node? ms).bind fun (name?, children?, _) =>
      name?.map fun name => ⟨name, children?.getD []⟩ := by
  rw [shapeOver, Shape.ofValue?]
  split
  · rename_i slots h
    obtain ⟨name?, children?, u⟩ := slots
    rw [show membersOver node? ms = some (name?, children?, u) from h]
    cases name? <;> rfl
  · rename_i h
    rw [show membersOver node? ms = none from h]
    rfl

variable {f g : Value → Option Node} {v : Value}

/-- What an element is taken for depends on the readings of what lies deeper only. -/
theorem ofValue?_congr (h : ∀ w, w.depth < v.depth → f w = g w) :
    (shapeOver f).ofValue? v = (shapeOver g).ofValue? v := by
  have children (w : Value) (hw : w.depth < v.depth) :
      (Shape.list (.buffered "RawNode" f)).ofValue? w =
        (Shape.list (.buffered "RawNode" g)).ofValue? w := by
    cases w with
    | list items =>
      exact mapM_congr fun w hm => h w (Nat.lt_trans
        (Nat.lt_succ_of_le (Value.depth_le_depthAll hm)) hw)
    | _ => rfl
  cases v with
  | list items =>
    have item (w : Value) (hm : w ∈ items) := children w
      (Nat.lt_succ_of_le (Value.depth_le_depthAll hm))
    rcases items with _ | ⟨x, _ | ⟨y, items⟩⟩
    · rfl
    · rfl
    · simp only [shapeOver, Shape.ofValue?, Fields.ofItems?] at item ⊢
      rw [item y (by simp)]
  | map ms =>
    have hm : membersOver f ms = membersOver g ms := by
      refine Put.all_congr (fun m hm key s => ?_) _
      have hw := children m.2 (Nat.lt_succ_of_le (Value.depth_le_depthMembers hm))
      simp only [Fields.putValue, hw]
    rw [ofValue?_map, ofValue?_map, hm]
  | _ => rfl

/-- A scalar is no element. -/
theorem ofValue?_of_depth (h : v.depth = 0) : (shapeOver f).ofValue? v = none := by
  cases v with
  | list items => cases h
  | map ms => cases h
  | _ => rfl

end Element

namespace Node

theorem ofValueWithin_of_depth {v : Value} (h : v.depth = 0) (bound : Nat) :
    ofValueWithin bound v = v.scalarText?.map text := by
  cases bound with
  | zero => rfl
  | succ bound => rw [ofValueWithin, Element.ofValue?_of_depth h]

/-- All bounds that are great enough come to the same. -/
theorem ofValueWithin_eq {a b : Nat} {v : Value} (ha : v.depth ≤ a) (hb : v.depth ≤ b) :
    ofValueWithin a v = ofValueWithin b v := by
  induction a generalizing b v with
  | zero =>
    have h := Nat.le_zero.1 ha
    rw [ofValueWithin_of_depth h, ofValueWithin_of_depth h]
  | succ a ih =>
    cases b with
    | zero =>
      have h := Nat.le_zero.1 hb
      rw [ofValueWithin_of_depth h, ofValueWithin_of_depth h]
    | succ b =>
      have hw (w : Value) (hw : w.depth < v.depth) : ofValueWithin a w = ofValueWithin b w :=
        ih (by omega) (by omega)
      rw [ofValueWithin, ofValueWithin, Element.ofValue?_congr hw]

/-- **A node is an element if its value can be taken for one, and else the text of a scalar.** -/
theorem ofValue?_eq (v : Value) :
    ofValue? v =
      match Element.shape.ofValue? v with
      | some e => some e.node
      | none => v.scalarText?.map text := by
  have he : Element.shape.ofValue? v =
      (Element.shapeOver (ofValueWithin v.depth)).ofValue? v :=
    Element.ofValue?_congr fun w hw => ofValueWithin_eq (Nat.le_refl _) (Nat.le_of_lt hw)
  rw [ofValue?, ofValueWithin_eq (Nat.le_refl _) (Nat.le_succ _)]
  change (match (Element.shapeOver (ofValueWithin v.depth)).ofValue? v with
    | some e => some e.node
    | none => v.scalarText?.map text) = _
  rw [he]

end Node
end Retarget
