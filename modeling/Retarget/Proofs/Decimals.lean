/-
# Text nodes that are decimals without their quotes

Version texts such as `2.0` and `4.10` are decimals.  A text node that is one is kept as it
is in quotes only: without them its digits are a floating-point number, and the node is the
text of that number.  A decimal of at most 15 digits loses the zeros at its end, and the
point if nothing is left behind it, in both formats and wherever a node stands
(`bare_decimal_read`); so it is kept just if it does not end in `0`.  One of more digits can
lose other digits too.
-/

import Retarget.Proofs.Json.Snapshot.Unquoted
import Retarget.Proofs.Json.Spelling.Decimal
import Retarget.Proofs.NodeValue
import Retarget.Proofs.Yaml.Scalar.Decimal
import Retarget.Proofs.Yaml.Written

namespace Retarget

namespace Json

/-- The scalar is the decimal without its quotes, and stands for its text less the zeros at the end. -/
def DecimalLiteral (d : DecimalText) (s : String) (x : Scalar) : Prop :=
  x.spell [] = d.chars ∧ s = String.ofList d.shortened

theorem hasText_decimalLiteral {d : DecimalText} (hd : d.digitCount ≤ 15) :
    HasText (DecimalLiteral d) := by
  rintro s x ⟨hx, rfl⟩
  obtain ⟨r, hr, hp⟩ := Scalar.value?_of_decimal hd hx
  rw [hr, Option.bind_some, Value.scalarText?, hp]

end Json

namespace Yaml

variable {s : Stream} {levels : Nat} {path : Path} {a : Ahead} {o : Opened}

/-- A scalar without a tag is read as the text node of what it means. -/
theorem read_node_scalar {content t : String} {style : Style} {v : Value}
    (ho : opened s path a = .ok o) (hp : o.piece = .scalar none content style)
    (hv : Resolve.scalar none content style = .ok (.known v)) (ht : v.scalarText? = some t) :
    Shape.read s Node.shape levels path a = .ok (.text t, o.back o.inner) := by
  have hvalue : value s levels path a = .ok (v, o.back o.inner) := by
    rw [value_eq ho, hp]
    simp only [Resolve.ownTag?, hv]
    rfl
  have hnode : Node.ofValue? v = some (.text t) := by
    have hdepth : v.depth = 0 := by
      cases v <;> first | rfl | cases ht
    have he : Element.shape.ofValue? v = none := Element.ofValue?_of_depth hdepth
    rw [Node.ofValue?_eq, he, ht]
    rfl
  rw [Node.shape, Shape.read, hvalue]
  dsimp only
  rw [hnode]

end Yaml

/-- **A decimal without its quotes loses the zeros at its end.**  Let a decimal have at most 15
digits.  In a JSON text any text nodes that are the decimal less these zeros may be replaced by
the bare decimal, and the text is read as before; in YAML, wherever a node is read and a plain
scalar with the characters of the decimal comes next, or an alias of one, the node is the
text of the decimal less these zeros.  In quotes the decimal is kept, in both formats.  So the
bare decimal is kept exactly if its last digit is not `0`. -/
theorem bare_decimal_read (d : DecimalText) (hd : d.digitCount ≤ 15) :
    (∀ {α : Type} {shape : Shape α} {role : Role} {t u : Json.Spaced Json.Spelling} {x : α},
      Json.Suits role shape → Json.Unquotes (Json.DecimalLiteral d) role t.value u.value →
      Json.read shape (Json.Spelling.text t) = .ok x → Json.read shape (Json.Spelling.text u) = .ok x) ∧
    Json.read Node.shape (String.ofList d.chars) = .ok (.text (String.ofList d.shortened)) ∧
    Json.read Node.shape (Json.render (.text (String.ofList d.chars))) =
      .ok (.text (String.ofList d.chars)) ∧
    (∀ (s : Yaml.Stream) (levels : Nat) (path : Yaml.Path) (a : Yaml.Ahead) (o : Yaml.Opened)
      (style : Yaml.Style), Yaml.opened s path a = .ok o →
      o.piece = .scalar none (String.ofList d.chars) style →
      Yaml.Shape.read s Node.shape levels path a =
        .ok (.text (String.ofList (if style = .plain then d.shortened else d.chars)), o.back o.inner)) ∧
    (d.shortened = d.chars ↔ d.fraction.getLast? ≠ some '0') := by
  refine ⟨fun hs hu => Json.read_unquotes (Json.hasText_decimalLiteral hd) hs hu, ?_, ?_,
    fun s levels path a o style ho hp => ?_, d.shortened_eq_chars_iff⟩
  · obtain ⟨x, hx⟩ := Json.exists_scalar_of_decimal d
    have ht : Json.Spelling.text ⟨[], .scalar x, []⟩ = String.ofList d.chars := congrArg String.ofList hx
    rw [← ht, Json.read_text_eq_ok_iff]
    exact Json.ofSpelling?_node_of_stands (Json.hasText_decimalLiteral hd) ⟨hx, rfl⟩
  · have ht : Node.shape.Holds (.text (String.ofList d.chars)) (.text (String.ofList d.chars)) :=
      Node.ofValue?_tree (.text _)
    exact Json.read_render_of_depth ht (Nat.zero_le _)
  · by_cases hplain : style = .plain
    · obtain ⟨r, hr, ht⟩ := Yaml.Resolve.untagged_of_decimal d hd
      refine Yaml.read_node_scalar ho hp (v := .real r) ?_ ?_
      · rw [Yaml.Resolve.scalar, if_pos hplain, hr]
      · rw [Value.scalarText?, ht, if_pos hplain]
    · refine Yaml.read_node_scalar ho hp (v := .text (String.ofList d.chars)) ?_ ?_
      · rw [Yaml.Resolve.scalar, if_neg hplain]
      · rw [Value.scalarText?, if_neg hplain]

/-- The version `4.10`. -/
def versionText : DecimalText where
  whole := ['4']
  fraction := ['1', '0']
  isDigit_whole := List.all_eq_true.1 (by decide)
  isDigit_fraction := List.all_eq_true.1 (by decide)
  whole_ne_nil := by decide
  fraction_ne_nil := by decide
  noNeedlessZero := by decide

theorem bare_versionText_read : versionText.digitCount ≤ 15 ∧
    Json.read Node.shape "4.10" = .ok (.text "4.1") ∧ versionText.shortened ≠ versionText.chars := by
  have h := bare_decimal_read versionText (by decide)
  exact ⟨by decide, h.2.1, fun he => absurd (h.2.2.2.2.1 he) (by decide)⟩

/-- A bare decimal that is read as another text, in both formats, and in quotes as itself; with
many digits, others than zeros are lost. -/
theorem bare_decimal_lost :
    (Json.read Node.shape "4.10").toOption = some (.text "4.1") ∧
    (Yaml.read Node.shape "4.10\n").toOption = some (.text "4.1") ∧
    (Json.read Node.shape "\"4.10\"").toOption = some (.text "4.10") ∧
    (Yaml.read Node.shape "'4.10'\n").toOption = some (.text "4.10") ∧
    (Json.read Node.shape "0.1234567890123456789").toOption = some (.text "0.12345678901234568") ∧
    (Yaml.read Node.shape "0.1234567890123456789\n").toOption = some (.text "0.12345678901234568") := by
  refine ⟨?_, ?_, ?_, ?_, ?_, ?_⟩ <;> decide +kernel

end Retarget
