/-
# Directives

    directive  =  "%YAML" number "." number  |  "%TAG" handle uri

A directive takes a line of its own, perhaps with a comment at its end.
-/

import Retarget.Yaml.Tag

namespace Retarget
namespace Yaml
namespace Directive

/-- A number of a version, of at most nine digits. -/
def number (start : Mark) (c : Cursor) : Except Flaw (Nat × Cursor) :=
  let digits := c.span Char.isDigit
  if 9 < digits.length then flawedWhile .versionDirective start .longVersion (c.mark.right 9)
  else if digits.isEmpty then flawedWhile .versionDirective start .noVersion c.mark
  else .ok (digits.foldl (fun n d => 10 * n + (d.toNat - 48)) 0, c.skip Char.isDigit)

/-- The version, after the directive's name. -/
def version (start : Mark) (c : Cursor) : Except Flaw (Sign × Cursor) :=
  match number start (c.skip isBlank) with
  | .error e => .error e
  | .ok (major, c) =>
    if c.head? = some '.' then
      (number start (c.right 1)).map fun (minor, c) => (.version major minor, c)
    else flawedWhile .versionDirective start .noVersionDigit c.mark

/-- A handle that a directive may define: `!`, or one that also ends with `!`. -/
def tagHandle (start : Mark) (c : Cursor) : Except Flaw (List Char × Cursor) :=
  match Tag.handle .tagDirectiveHandle start c with
  | .error e => .error e
  | .ok (h, c) =>
    if h.getLast? = some '!' then .ok (h, c)
    else flawedWhile .tagDirectiveHandleEnd start .noTagStart c.mark

/-- The handle and what it stands for, after the directive's name. -/
def tag (start : Mark) (c : Cursor) : Except Flaw (Sign × Cursor) :=
  match tagHandle start (c.skip isBlank) with
  | .error e => .error e
  | .ok (h, c) =>
    if !(c.head?.map isBlank).getD false then flawedWhile .tagDirective start .noBlank c.mark
    else
      match Tag.someUri .tagDirectiveUri start true (c.skip isBlank) with
      | .error e => .error e
      | .ok (u, c) =>
        if atGap c.rest then .ok (.tagHandle (String.ofList h) u, c)
        else flawedWhile .tagDirective start .noBlankOrBreak c.mark

/-- The name of a directive. -/
def name (start : Mark) (c : Cursor) : Except Flaw (List Char × Cursor) :=
  let word := c.span isWordChar
  let c := c.skip isWordChar
  if word.isEmpty then flawedWhile .directive start .noDirectiveName c.mark
  else if !atGap c.rest then flawedWhile .directive start .badDirectiveName c.mark
  else .ok (word, c)

/-- The directive at the cursor, with where it stops and where the text goes on. -/
def scan (c : Cursor) : Except Flaw (Sign × Mark × Cursor) :=
  let start := c.mark
  match name start (c.right 1) with
  | .error e => .error e
  | .ok (word, c) =>
    let read :=
      if String.ofList word = "YAML" then version start c
      else if String.ofList word = "TAG" then tag start c
      else flawedWhile .directive start .unknownDirective c.mark
    match read with
    | .error e => .error e
    | .ok (sign, c) =>
      let stop := c.mark
      let c := c.skipComment
      if atLineEnd c.rest then .ok (sign, stop, c.down)
      else flawedWhile .directive start .noLineEnd c.mark

end Directive
end Yaml
end Retarget
