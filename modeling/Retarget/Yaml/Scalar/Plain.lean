/-
# Plain scalars

A plain scalar has no quotes.  It ends

* before a colon with a gap after it, and before a `#` with a gap before it;
* inside brackets also before `,`, `[`, `]`, and the braces; there a colon directly
  before one of these or before `?` is an error;
* before a line that starts with a document mark, or that is not indented deeper than
  what the scalar belongs to.
-/

import Retarget.Yaml.Scalar.Gap

namespace Retarget
namespace Yaml
namespace Plain

/-- The character separates or encloses entries inside brackets. -/
def isFlowSign (c : Char) : Bool := c = ',' || c = '[' || c = ']' || c = '\x7b' || c = '\x7d'

/-- A word, up to a gap or the end of the scalar, last character first; the error is the
place of a colon that must not stand there. -/
def word (flow : Bool) (read : List Char) (m : Mark) : List Char → Except Mark (List Char × Cursor)
  | [] => .ok (read, ⟨m, []⟩)
  | c :: cs =>
    if isGap c then .ok (read, ⟨m, c :: cs⟩)
    else if flow && c = ':' && (cs.head?.map fun d => isFlowSign d || d = '?').getD false then .error m
    else if (c = ':' && atGap cs) || (flow && isFlowSign c) then .ok (read, ⟨m, c :: cs⟩)
    else word flow (c :: read) (m.right 1) cs

theorem length_of_word {flow : Bool} {read w : List Char} {m : Mark} {cs : List Char} {c : Cursor}
    (h : word flow read m cs = .ok (w, c)) : c.rest.length ≤ cs.length := by
  fun_induction word flow read m cs with
  | case1 => cases h; simp
  | case2 => cases h; simp
  | case3 => simp at h
  | case4 => cases h; simp
  | case5 _ _ _ _ _ _ _ ih => simpa using Nat.le_succ_of_le (ih h)

/-- A scalar that was read: its text, whether the gap behind it reaches into another line,
and where the text goes on. -/
structure Read where
  content : List Char
  broken : Bool
  after : Cursor

/-- The scalar of which `read` has been read, last character first, and then a gap. -/
def more (flow : Bool) (edge : Nat) (start : Mark) (read : List Char) (gap : Gap) (c : Cursor) :
    Except Flaw Read :=
  if c.atDocumentMark || c.head? = some '#' then .ok ⟨read.reverse, gap.isBroken, c⟩
  else
    match _hw : word flow [] c.mark c.rest with
    | .error m => flawedWhile .plainScalar start .colonInPlain m
    | .ok (w, d) =>
      let read := if w.isEmpty then read else w ++ gap.folded ++ read
      let gap := if w.isEmpty then gap else .empty
      if _hd : startsGap d.rest then
        match _hg : gap.read edge d.mark d.rest with
        | .error m => flawedWhile .plainScalar start .tabInPlain m
        | .ok (gap, e) =>
          if !flow && e.mark.column < edge then .ok ⟨read.reverse, gap.isBroken, e⟩
          else more flow edge start read gap e
      else .ok ⟨read.reverse, gap.isBroken, d⟩
termination_by c.rest.length
decreasing_by exact Nat.lt_of_lt_of_le (Gap.length_of_read_lt _hg _hd) (length_of_word _hw)

/-- The plain scalar at the cursor; `edge` is the least column of its later lines. -/
def scan (flow : Bool) (edge : Nat) (c : Cursor) : Except Flaw Read := more flow edge c.mark [] .empty c

end Plain
end Yaml
end Retarget
