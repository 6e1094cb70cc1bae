/-
# Lists written with a separator

`pieces sep cs` cuts a text at every separator into maximal pieces free of it, so a
text with `n` separators has `n + 1` pieces, some of them perhaps empty; the empty
text has one piece.  `joined` writes a list of texts with a semicolon between
neighbours, and nothing at the ends.  The two fit together: the pieces of a text,
joined, are the text.  The converse fails, since a text in the list may hold a
semicolon of its own.
-/

namespace Retarget
namespace Text

/-- The maximal pieces of the text that are free of `sep`, in order. -/
def pieces (sep : Char) : List Char → List (List Char)
  | [] => [[]]
  | c :: cs =>
    if c = sep then [] :: pieces sep cs
    else match pieces sep cs with
      | [] => [[c]]
      | p :: ps => (c :: p) :: ps

theorem pieces_ne_nil (sep : Char) (cs : List Char) : pieces sep cs ≠ [] := by
  cases cs with
  | nil => simp [pieces]
  | cons c cs =>
    rw [pieces]
    split
    · exact List.cons_ne_nil _ _
    · split <;> exact List.cons_ne_nil _ _

/-- The texts in order, with `sep` between neighbours. -/
def joinedWith (sep : Char) : List (List Char) → List Char
  | [] => []
  | [p] => p
  | p :: q :: ps => p ++ sep :: joinedWith sep (q :: ps)

theorem joinedWith_nil_cons (sep : Char) {ps : List (List Char)} (h : ps ≠ []) :
    joinedWith sep ([] :: ps) = sep :: joinedWith sep ps := by
  cases ps with
  | nil => exact absurd rfl h
  | cons p ps => rfl

theorem joinedWith_cons_cons (sep c : Char) (p : List Char) (ps : List (List Char)) :
    joinedWith sep ((c :: p) :: ps) = c :: joinedWith sep (p :: ps) := by
  cases ps <;> rfl

/-- Cutting loses nothing. -/
theorem joinedWith_pieces (sep : Char) (cs : List Char) : joinedWith sep (pieces sep cs) = cs := by
  induction cs with
  | nil => rfl
  | cons c cs ih =>
    by_cases h : c = sep
    · rw [pieces, if_pos h, joinedWith_nil_cons sep (pieces_ne_nil sep cs), ih, h]
    · rw [pieces, if_neg h]
      cases hp : pieces sep cs with
      | nil => exact absurd hp (pieces_ne_nil sep cs)
      | cons p ps => rw [joinedWith_cons_cons, ← hp, ih]

/-- The texts of the list with a semicolon between neighbours. -/
def joined : List String → String
  | [] => ""
  | [s] => s
  | s :: t :: rest => s ++ ";" ++ joined (t :: rest)

end Text
end Retarget
