/-
# Block scalars

A block scalar is a header and the lines below it that are indented deeper than what it
belongs to:

    header  =  "|" or ">", then in any order [ "+" | "-" ] and [ a digit 1 to 9 ]

The digit says how much deeper; without it the first line that is not blank decides.
After `|` the lines are kept as they are.  After `>` a single line feed between two lines
that do not start with a blank becomes a space, and of several the first is dropped.

The line breaks at the end are kept after `+`, dropped after `-`, and else all but the
first are dropped.
-/

import Retarget.Yaml.Source

namespace Retarget
namespace Yaml
namespace Block

/-- What becomes of the line breaks at the end. -/
inductive Chomping where
  | clip
  | strip
  | keep
  deriving DecidableEq, Repr

/-- The chomping that a sign in the header asks for. -/
def chomping? (c : Char) : Option Chomping :=
  if c = '+' then some .keep else if c = '-' then some .strip else none

/-- The header after its first sign: the chomping, the digit or 0, and where it ends. -/
def header (start : Mark) (c : Cursor) : Except Flaw (Chomping × Nat × Cursor) :=
  let digit (c : Cursor) : Except Flaw (Nat × Cursor) :=
    match c.head? with
    | some d =>
      if d = '0' then flawedWhile .blockScalar start .zeroIndent c.mark
      else if d.isDigit then .ok (d.toNat - 48, c.right 1)
      else .ok (0, c)
    | none => .ok (0, c)
  match c.head?.bind chomping? with
  | some chomping => (digit (c.right 1)).map fun (n, c) => (chomping, n, c)
  | none =>
    match digit c with
    | .error e => .error e
    | .ok (n, c) =>
      match (if n = 0 then none else c.head?.bind chomping?) with
      | some chomping => .ok (chomping, n, c.right 1)
      | none => .ok (.clip, n, c)

/-- The line breaks before the next line with content, last first, the column that the
blanks reach, and the cursor there.  `indent` is the column of the content, or 0 if it is
not known; the error is the place of a tab among the indentation. -/
def blankLines (indent deepest : Nat) (read : List Char) (m : Mark) :
    List Char → Except Mark (List Char × Nat × Cursor)
  | [] => .ok (read, max deepest m.column, ⟨m, []⟩)
  | c :: cs =>
    let inside := indent = 0 || m.column < indent
    if c = ' ' && inside then blankLines indent deepest read (m.right 1) cs
    else if c = '\t' && inside then .error m
    else if isBreak c then blankLines indent (max deepest m.column) (c :: read) m.down cs
    else .ok (read, max deepest m.column, ⟨m, c :: cs⟩)

theorem length_of_blankLines {indent deepest n : Nat} {read more : List Char} {m : Mark}
    {cs : List Char} {c : Cursor} (h : blankLines indent deepest read m cs = .ok (more, n, c)) :
    c.rest.length ≤ cs.length := by
  fun_induction blankLines indent deepest read m cs with
  | case1 => cases h; simp
  | case2 _ _ _ _ _ _ _ ih => have := ih h; simp at this ⊢; omega
  | case3 => simp at h
  | case4 _ _ _ _ _ _ _ _ _ ih => have := ih h; simp at this ⊢; omega
  | case5 => cases h; simp

/-- The break after a line, with the breaks before the next one, as they stand between
the two in the scalar, last first. -/
def between (literal blankBefore blankAfter : Bool) (first : Option Char) (more : List Char) :
    List Char :=
  if !literal && first = some '\n' && !blankBefore && !blankAfter then
    if more.isEmpty then [' '] else more
  else more ++ first.toList

/-- The end of the scalar: the break after its last line, and the breaks behind that. -/
def chomped (chomping : Chomping) (first : Option Char) (more : List Char) : List Char :=
  match chomping with
  | .strip => []
  | .clip => first.toList
  | .keep => more ++ first.toList

/-- The cursor behind the line that it stands in. -/
def afterLine (c : Cursor) : Cursor := (c.skip (!isBreak ·)).down

theorem length_afterLine_lt {c : Cursor} (h : c.rest ≠ []) : (afterLine c).rest.length < c.rest.length := by
  obtain ⟨m, cs⟩ := c
  cases cs with
  | nil => exact absurd rfl h
  | cons d ds =>
    have hle : ∀ e : Cursor, e.down.rest.length ≤ e.rest.length := by
      intro e
      unfold Cursor.down
      split
      · simp
      · split <;> simp_all
    cases hd : isBreak d with
    | true => simp [afterLine, Cursor.skip, Cursor.down, hd]
    | false =>
      refine Nat.lt_of_le_of_lt (hle _) ?_
      have := (List.dropWhile_sublist (fun c => !isBreak c) (l := ds)).length_le
      simp only [Cursor.skip, List.dropWhile_cons, hd, Bool.not_false, if_true, List.length_cons]
      omega

/-- The lines of the scalar, last character first, of which some have been read;
`first` and `more` are the breaks since then. -/
def lines (literal : Bool) (chomping : Chomping) (indent : Nat) (start : Mark) (read : List Char)
    (blankBefore : Bool) (first : Option Char) (more : List Char) (c : Cursor) :
    Except Flaw (List Char × Cursor) :=
  if _hc : c.mark.column = indent ∧ c.rest ≠ [] then
    let blank := (c.head?.map isBlank).getD false
    let read := (c.span (!isBreak ·)).reverse ++ between literal blankBefore blank first more ++ read
    let first := (c.skip (!isBreak ·)).head?
    match _hb : blankLines indent 0 [] (afterLine c).mark (afterLine c).rest with
    | .error m => flawedWhile .blockScalar start .tabIndent m
    | .ok (more, _, d) => lines literal chomping indent start read blank first more d
  else .ok ((chomped chomping first more ++ read).reverse, c)
termination_by c.rest.length
decreasing_by exact Nat.lt_of_le_of_lt (length_of_blankLines _hb) (length_afterLine_lt _hc.2)

/-- The block scalar at the cursor, inside something indented by `parent`, which is -1
outside of everything. -/
def scan (literal : Bool) (parent : Int) (c : Cursor) : Except Flaw (List Char × Cursor) :=
  let start := c.mark
  match header start (c.right 1) with
  | .error e => .error e
  | .ok (chomping, digit, c) =>
    let c := c.skipComment
    if !atLineEnd c.rest then flawedWhile .blockScalar start .noLineEnd c.mark
    else
      let c := c.down
      let given := if digit = 0 then 0 else (max parent 0).toNat + digit
      match blankLines given 0 [] c.mark c.rest with
      | .error m => flawedWhile .blockScalar start .tabIndent m
      | .ok (more, deepest, c) =>
        let indent := if given = 0 then max deepest (max (parent + 1).toNat 1) else given
        lines literal chomping indent start [] false none more c

end Block
end Yaml
end Retarget
