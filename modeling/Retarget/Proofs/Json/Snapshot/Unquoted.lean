/-
# Text nodes without their quotes

Where a node is read, a flag or a number is taken for the text node of its own text.  A
text node may therefore lose its quotes if its characters are the literal of a value with
just that text (`Unquotes`): the whole reads as before.  That is so for `true`, `false` and
the integers from `-2^63` to `2^64 - 1`.

The text of a flag or a number is found by trying what it can be taken for (`Variant`):

| variant | taken for it |
| --- | --- |
| text | texts |
| flag | flags |
| signed | numbers with a minus sign, and natural numbers below `2^63` |
| unsigned | natural numbers |
| real | numbers |
-/

import Retarget.Proofs.Json.RoundTrip
import Retarget.Proofs.Json.Snapshot.Members
import Retarget.Proofs.Json.Spelling.Integer

namespace Retarget

/-! ### Variants -/

/-- What a scalar can be taken for where a node is read. -/
inductive Variant where
  | text
  | flag
  | signed
  | unsigned
  | real
  deriving DecidableEq, Repr

namespace Variant

/-- The variants, in the order in which they are tried. -/
def all : List Variant := [text, flag, signed, unsigned, real]

/-- The text of the value, if it can be taken for the variant. -/
def text? : Variant → Value → Option String
  | text, .text s => some s
  | flag, .flag b => some (if b then "true" else "false")
  | signed, .signed i => some (toString i)
  | signed, .unsigned n => if n < 2 ^ 63 then some (toString (n : Int)) else none
  | unsigned, .unsigned n => some (toString n)
  | unsigned, .signed i => if 0 ≤ i then some (toString i.toNat) else none
  | real, .real x => some x.positional
  | real, .unsigned n => some (Binary64.ofNat n).positional
  | real, .signed i => some (if i < 0 then (Binary64.ofNat i.natAbs).neg else .ofNat i.natAbs).positional
  | _, _ => none

/-- The first variant that the value can be taken for. -/
def first? (v : Value) : Option Variant := all.find? fun k => (k.text? v).isSome

/-- The variant that an integer is taken for: the signed one as far as it reaches. -/
def ofInteger (i : Int) : Variant := if i < 2 ^ 63 then signed else unsigned

/-- **An integer is taken for a signed one if that reaches so far, else for an unsigned one**,
and not for a floating-point number; either has the text of the integer. -/
theorem first?_ofInteger (i : Int) :
    first? (.ofInteger i) = some (ofInteger i) ∧ (ofInteger i).text? (.ofInteger i) = some (toString i) := by
  by_cases h0 : 0 ≤ i
  · obtain ⟨n, rfl⟩ := Int.eq_ofNat_of_zero_le h0
    rw [Value.ofInteger, if_pos h0, Int.toNat_natCast, ofInteger]
    by_cases hn : n < 2 ^ 63
    · rw [if_pos (by omega)]
      have ht : signed.text? (.unsigned n) = some (toString (n : Int)) := if_pos hn
      exact ⟨by simp only [first?, all, List.find?, ht]; rfl, ht⟩
    · rw [if_neg (by omega)]
      have ht : signed.text? (.unsigned n) = none := if_neg hn
      exact ⟨by simp only [first?, all, List.find?, ht]; rfl, rfl⟩
  · rw [Value.ofInteger, if_neg h0, ofInteger, if_pos (by omega)]
    exact ⟨rfl, rfl⟩

end Variant

/-- **The text of a scalar is that of the first variant that takes it.** -/
theorem Value.scalarText?_eq_findSome? (v : Value) :
    v.scalarText? = Variant.all.findSome? (·.text? v) := by
  cases v with
  | flag b => cases b <;> rfl
  | unsigned n =>
    by_cases h : n < 2 ^ 63
    · simp only [scalarText?, Variant.all, Variant.text?, List.findSome?, h, if_true]
      rfl
    · simp only [scalarText?, Variant.all, Variant.text?, List.findSome?, h, if_false]
  | _ => rfl

namespace Json

/-! ### Values with text nodes that stand without quotes -/

/-- The second value is the first one, where text nodes may have become other scalars: `stands s x`
says that `x` may stand for the text node `s`.  Blanks may differ. -/
inductive Unquotes (stands : String → Scalar → Prop) : Role → Spelling → Spelling → Prop where
  | scalar {role : Role} (s : Scalar) : Unquotes stands role (.scalar s) (.scalar s)
  | node {l : Literal} {s : String} {x : Scalar} (text_eq : l.text? = some s) (h : stands s x) :
      Unquotes stands .element (.scalar (.text l)) (.scalar x)
  | list {role : Role} {inner inner' : Gap} {xs ys : List (Spaced Spelling)}
      (length_eq : xs.length = ys.length)
      (items : ∀ i x y, xs[i]? = some x → ys[i]? = some y →
        Unquotes stands (role.item i) x.value y.value) :
      Unquotes stands role (.list inner xs) (.list inner' ys)
  | object {role : Role} {inner inner' : Gap} {ms ns : List (Spaced Literal × Spaced Spelling)}
      (length_eq : ms.length = ns.length)
      (keys : ∀ (i : Nat) (m n : Spaced Literal × Spaced Spelling), ms[i]? = some m →
        ns[i]? = some n → m.1.value = n.1.value)
      (values : ∀ (i : Nat) (m n : Spaced Literal × Spaced Spelling), ms[i]? = some m →
        ns[i]? = some n → Unquotes stands (roleOf role m) m.2.value n.2.value) :
      Unquotes stands role (.object inner ms) (.object inner' ns)

variable {stands : String → Scalar → Prop} {role : Role} {levels : Nat} {v w : Spelling}

theorem Unquotes.of_children {inner inner' : Gap} {xs ys : List (Spaced Spelling)}
    (h : List.Forall₂ (fun x y => Unquotes stands .element x.value y.value) xs ys) :
    Unquotes stands .children (.list inner xs) (.list inner' ys) :=
  .list h.length_eq fun _ _ _ => getElem?_of_forall₂ h

theorem Unquotes.of_members {inner inner' : Gap} {ms ns : List (Spaced Literal × Spaced Spelling)}
    (h : List.Forall₂ (fun m n => m.1.value = n.1.value ∧
      Unquotes stands (roleOf role m) m.2.value n.2.value) ms ns) :
    Unquotes stands role (.object inner ms) (.object inner' ns) :=
  .object h.length_eq (fun _ _ _ hm hn => (getElem?_of_forall₂ h hm hn).1)
    fun _ _ _ hm hn => (getElem?_of_forall₂ h hm hn).2

/-- What is no node keeps its texts. -/
theorem Unquotes.varies (h : Unquotes stands role v w) (hr : role = .other) (levels : Nat) :
    Varies role levels v w := by
  induction h generalizing levels with
  | scalar s => exact .scalar s
  | node => cases hr
  | list hl _ ih =>
    subst hr
    exact .list hl fun i x y hx hy => ih i x y hx hy rfl _
  | @object role inner inner' ms ns hl hkeys _ ih =>
    subst hr
    refine .of_members ns [] (forall₂_of_getElem? hl fun i m n hm hn => ⟨hkeys i m n hm hn, ?_⟩)
      (fun _ h => nomatch h) (by simp)
    have hother : roleOf .other m = .other := by
      cases ht : m.1.value.text? <;> simp [roleOf, ht, Role.member?, Role.members]
    exact ih i m n hm hn hother _

/-- Each scalar has the text of the node that it stands for. -/
def HasText (stands : String → Scalar → Prop) : Prop :=
  ∀ s x, stands s x → x.value?.bind Value.scalarText? = some s

section HasText

variable (hstands : HasText stands)
include hstands

theorem Unquotes.isSome_value? (h : Unquotes stands role v w) (hv : (v.value? levels).isSome) :
    (w.value? levels).isSome := by
  induction h generalizing levels with
  | scalar s => exact hv
  | @node l s x _ h =>
    obtain ⟨y, hy, -⟩ := Option.bind_eq_some_iff.1 (hstands s x h)
    exact Option.isSome_of_eq_some hy
  | @list role inner inner' xs ys hl _ ih =>
    cases levels with
    | zero => cases hv
    | succ l =>
      rw [Spelling.isSome_value?_list] at hv ⊢
      intro y hy
      obtain ⟨i, hi, rfl⟩ := List.mem_iff_getElem.1 hy
      exact ih i _ _ (List.getElem?_eq_getElem (hl ▸ hi)) (List.getElem?_eq_getElem hi)
        (hv _ (List.getElem_mem _))
  | @object role inner inner' ms ns hl hkeys _ ih =>
    cases levels with
    | zero => cases hv
    | succ l =>
      rw [Spelling.isSome_value?_object] at hv ⊢
      intro n hn
      obtain ⟨i, hi, rfl⟩ := List.mem_iff_getElem.1 hn
      have hm := List.getElem?_eq_getElem (hl ▸ hi : i < ms.length)
      have hk := List.getElem?_eq_getElem hi
      obtain ⟨h1, h2⟩ := hv _ (List.getElem_mem (hl ▸ hi : i < ms.length))
      exact ⟨hkeys i _ _ hm hk ▸ h1, ih i _ _ hm hk h2⟩

/-- A scalar is read as the text node that it stands for. -/
theorem ofSpelling?_node_of_stands {s : String} {x : Scalar} (h : stands s x) :
    Shape.ofSpelling? Node.shape levels (.scalar x) = some (.text s) := by
  obtain ⟨y, hy, hs⟩ := Option.bind_eq_some_iff.1 (hstands s x h)
  have he : Shape.ofSpelling? Element.shape levels (.scalar x) = none := rfl
  rw [ofSpelling?_node, Spelling.value?, hy, Option.bind_some, he, hs]
  rfl

/-- **A value means the same without the quotes.** -/
theorem Unquotes.keeps (h : Unquotes stands role v w) (levels : Nat) : Keeps role levels v w := by
  induction h generalizing levels with
  | scalar s => exact fun _ h => h
  | @node l s x ht h =>
    intro α shape y hs hy
    cases hs with
    | element => cases hy
    | node =>
      rw [ofSpelling?_node_of_stands hstands h, ← hy, ofSpelling?_node, Spelling.value?, Scalar.value?, ht]
      rfl
  | @list role inner inner' xs ys hl hi ih =>
    intro α shape x hs
    have hw : Unquotes stands role (.list inner xs) (.list inner' ys) := .list hl hi
    induction hs using Suits.elim with
    | record hd =>
      exact record_list_keeps hd ⟨hl, fun i x y hx hy => hd.item_eq i ▸ ih i x y hx hy _⟩
    | node =>
      exact ofSpelling?_node_keeps (by simp) (hw.isSome_value? hstands) fun e =>
        record_list_keeps describes_element ⟨hl, fun i x y hx hy => ih i x y hx hy _⟩
    | children => exact ofSpelling?_list_keeps hl fun i x y hx hy z => ih i x y hx hy _ .node
    | other hp => exact ofSpelling?_varies_of_plain _ hp (hw.varies rfl levels)
  | @object role inner inner' ms ns hl hkeys hvalues ih =>
    intro α shape x hs
    have hw : Unquotes stands role (.object inner ms) (.object inner' ns) := .object hl hkeys hvalues
    have hk : List.Forall₂ (fun m n => m.1.value = n.1.value ∧
        Keeps (roleOf role m) (levels - 1) m.2.value n.2.value) ms ns :=
      forall₂_of_getElem? hl fun i m n hm hn => ⟨hkeys i m n hm hn, ih i m n hm hn _⟩
    have hp : ns.Perm (ns ++ []) := by simp
    induction hs using Suits.elim with
    | record hd => exact record_object_keeps hd hk (by simp) hp
    | node =>
      exact ofSpelling?_node_keeps (by simp) (hw.isSome_value? hstands) fun e =>
        record_object_keeps describes_element hk (by simp) hp
    | children => exact fun h => nomatch h
    | other h => exact ofSpelling?_varies_of_plain _ h (hw.varies rfl levels)

/-- **A text reads the same without the quotes.** -/
theorem read_unquotes {α : Type} {shape : Shape α} {t u : Spaced Spelling} (hs : Suits role shape)
    (hu : Unquotes stands role t.value u.value) {x : α}
    (h : read shape (Spelling.text t) = .ok x) : read shape (Spelling.text u) = .ok x := by
  rw [read_text_eq_ok_iff] at h ⊢
  exact hu.keeps hstands depthLimit hs h

end HasText

/-! ### Flags and integers -/

/-- The text is that of a flag or of an integer of 64 bits. -/
def IsBare (s : String) : Prop :=
  s = "true" ∨ s = "false" ∨ ∃ i : Int, -2 ^ 63 ≤ i ∧ i < 2 ^ 64 ∧ s = toString i

/-- The scalar is such a text without its quotes. -/
def BareLiteral (s : String) (x : Scalar) : Prop := IsBare s ∧ x.spell [] = s.toList

theorem exists_bareLiteral {s : String} (h : IsBare s) : ∃ x, BareLiteral s x := by
  rcases h with rfl | rfl | ⟨i, hl, hu, rfl⟩
  · exact ⟨.flag true, .inl rfl, rfl⟩
  · exact ⟨.flag false, .inr (.inl rfl), rfl⟩
  · obtain ⟨n, hn, -⟩ := exists_numeral i
    exact ⟨.number n, .inr (.inr ⟨i, hl, hu, rfl⟩), by rw [Scalar.spell, hn, List.append_nil]⟩

/-- **Flags and integers have their own text.** -/
theorem hasText_bareLiteral : HasText BareLiteral := by
  rintro s x ⟨rfl | rfl | ⟨i, hl, hu, rfl⟩, hx⟩
  · rw [Scalar.value?_congr (y := .flag true) hx]
    rfl
  · rw [Scalar.value?_congr (y := .flag false) hx]
    rfl
  · rw [Scalar.value?_of_integer hl hu hx, Option.bind_some, Value.scalarText?_ofInteger]

/-- **Text nodes that are flags or integers may stand without their quotes.**  The text of an
element that is not too deep is a spelling; where any of its text nodes that are the text of a
flag or of an integer of 64 bits, each of which has a literal, become that literal, the text
is read as the same element.  The text of a scalar is that of the first variant that takes it;
no such integer wraps, loses a digit or its sign, or is taken for a floating-point number: it is
read as itself, is taken for a signed or else for an unsigned integer, and has the same digits. -/
theorem read_unquoted (e : Element) (hd : e.tree.depth ≤ depthLimit) :
    render e.tree = Spelling.text ⟨[], Tree.spelling 0 e.tree, []⟩ ∧
    (∀ u : Spaced Spelling, Unquotes BareLiteral .element (Tree.spelling 0 e.tree) u.value →
      read Element.shape (Spelling.text u) = .ok e) ∧
    (∀ s, IsBare s → ∃ x, BareLiteral s x) ∧
    (∀ v : Value, v.scalarText? = Variant.all.findSome? (·.text? v)) ∧
    (∀ (b : Bool) (x : Scalar), x.spell [] = (Scalar.flag b).spell [] →
      x.value? = some (.flag b) ∧ Variant.first? (.flag b) = some .flag) ∧
    ∀ (i : Int) (x : Scalar), -2 ^ 63 ≤ i → i < 2 ^ 64 → x.spell [] = (toString i).toList →
      x.value? = some (.ofInteger i) ∧ Variant.first? (.ofInteger i) = some (.ofInteger i) ∧
      (Variant.ofInteger i).text? (.ofInteger i) = some (toString i) := by
  have hr : read Element.shape (render e.tree) = .ok e :=
    read_render_of_depth (e.holds_tree fun n _ => Node.ofValue?_tree n) hd
  refine ⟨Tree.render_eq_text e.tree, fun u hu => ?_, fun s => exists_bareLiteral,
    Value.scalarText?_eq_findSome?, fun b x hx => ⟨Scalar.value?_congr hx, rfl⟩,
    fun i x hl hu hx => ⟨Scalar.value?_of_integer hl hu hx, Variant.first?_ofInteger i⟩⟩
  rw [Tree.render_eq_text] at hr
  exact read_unquotes hasText_bareLiteral .element hu hr

/-- An element with text nodes at the bounds of the integers, and with flags. -/
def boundaries : Element :=
  ⟨⟨.none, "A"⟩, [.text "true", .text "18446744073709551615",
    .element ⟨.none, "B"⟩ [.text "-9223372036854775808", .text "false"]]⟩

/-- The number with these digits. -/
def numeralOf (negative : Bool) (first : Char) (more : String)
    (h : first ≠ '0' ∧ (first :: more.toList).all Char.isDigit = true) : Numeral :=
  ⟨negative, .positive ⟨⟨first, List.all_eq_true.1 h.2 first (List.mem_cons_self ..)⟩,
    more.toList.pmap Digit.mk fun c hc => List.all_eq_true.1 h.2 c (List.mem_cons_of_mem _ hc)⟩ h.1,
    none, none⟩

/-- Its text with no blanks, and without quotes but for the last flag. -/
def bareBoundaries : Spaced Spelling :=
  let item (v : Spelling) : Spaced Spelling := ⟨[], v, []⟩
  let element (name : String) (children : List Spelling) : Spelling :=
    .object [] [tightMember "name" (.object [] [tightMember "local_name" (.scalar (.text (.of name)))]),
      tightMember "children" (.list [] (children.map item))]
  item (element "A" [.scalar (.flag true),
    .scalar (.number (numeralOf false '1' "8446744073709551615" (by decide))),
    element "B" [
      .scalar (.number (numeralOf true '9' "223372036854775808" (by decide))),
      .scalar (.text (.of "false"))]])

theorem read_bareBoundaries : boundaries.tree.depth ≤ depthLimit ∧
    Spelling.text bareBoundaries =
      "\x7b\"name\":\x7b\"local_name\":\"A\"\x7d,\"children\":[true,18446744073709551615," ++
      "\x7b\"name\":\x7b\"local_name\":\"B\"\x7d,\"children\":[-9223372036854775808,\"false\"]\x7d]\x7d" ∧
    read Element.shape (Spelling.text bareBoundaries) = .ok boundaries := by
  have hd : boundaries.tree.depth ≤ depthLimit := by decide
  have hu : Unquotes BareLiteral .element (Tree.spelling 0 boundaries.tree) bareBoundaries.value := by
    have bare {s : String} {x : Scalar} (h : IsBare s) (hx : x.spell [] = s.toList) :
        Unquotes BareLiteral .element (.scalar (.text (.of s))) (.scalar x) :=
      .node (Literal.text?_of s) ⟨h, hx⟩
    refine .of_members (.cons ⟨rfl, .of_members (.cons ⟨rfl, .scalar _⟩ .nil)⟩ (.cons ⟨rfl, ?_⟩ .nil))
    refine .of_children (.cons ?_ (.cons ?_ (.cons ?_ .nil)))
    · exact bare (.inl rfl) rfl
    · exact bare (.inr (.inr ⟨18446744073709551615, by decide, by decide, rfl⟩)) rfl
    refine .of_members (.cons ⟨rfl, .of_members (.cons ⟨rfl, .scalar _⟩ .nil)⟩ (.cons ⟨rfl, ?_⟩ .nil))
    refine .of_children (.cons ?_ (.cons (.scalar _) .nil))
    exact bare (.inr (.inr ⟨-9223372036854775808, by decide, by decide, rfl⟩)) rfl
  exact ⟨hd, by decide +kernel, (read_unquoted boundaries hd).2.1 _ hu⟩

end Json
end Retarget
