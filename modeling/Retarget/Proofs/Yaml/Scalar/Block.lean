/-
# Literal scalars that were written are read back

The text is written line by line (`literalRest`), each line that is not empty with its
indentation, and the reader takes one line and the breaks behind it at a time
(`lines_literalRest`).  What decides about the breaks at the end is the sign in the header,
which agrees with the last two characters of the text (`chompingOf`).
-/

import Retarget.Proofs.Yaml.Scalar.Gap
import Retarget.Proofs.Yaml.Scalar.Style
import Mathlib.Data.List.TakeWhile

namespace Retarget
namespace Yaml
namespace Block

open Written (spaces)

/-! ### Breaks at the end -/

/-- The chomping that keeps the breaks at the end of a text as they are. -/
def chompingOf (cs : List Char) : Chomping :=
  match cs.reverse with
  | [] => .strip
  | c :: rest =>
    if !isBreak c then .strip
    else if (rest.head?.map isBreak).getD true then .keep
    else .clip

theorem chompingOf_concat {cs : List Char} {c : Char} (h : isBreak c = false) :
    chompingOf (cs ++ [c]) = .strip := by
  simp [chompingOf, h]

theorem chompingOf_break {cs : List Char} {b c : Char} (hc : isBreak c = false)
    (hb : isBreak b = true) :
    chompingOf (cs ++ [c] ++ [b]) = .clip := by
  simp [chompingOf, hb, hc]

theorem chompingOf_breaks {bs : List Char} (h : ∀ c ∈ bs, isBreak c = true) (cs : List Char)
    (hn : 2 ≤ bs.length ∨ cs = [] ∧ bs ≠ []) : chompingOf (cs ++ bs) = .keep := by
  have hr : ∀ c ∈ bs.reverse, isBreak c = true := fun c hc => h c (List.mem_reverse.1 hc)
  rw [← List.length_reverse] at hn
  rw [chompingOf, List.reverse_append]
  rcases hb : bs.reverse with _ | ⟨d, _ | ⟨e, es⟩⟩
  · rw [hb] at hn
    rcases hn with hn | ⟨-, hn⟩
    · exact absurd hn (by simp)
    · exact absurd (List.reverse_eq_nil_iff.1 hb) hn
  · rw [hb] at hr hn
    obtain ⟨rfl, -⟩ := hn.resolve_left (by simp)
    simp [hr d]
  · rw [hb] at hr
    simp [hr d, hr e]

/-- What comes before the last line does not matter. -/
theorem chompingOf_append {c : Char} (h : isBreak c = false) (cs ds : List Char) :
    chompingOf (ds ++ c :: cs) = chompingOf (c :: cs) := by
  rw [chompingOf, chompingOf, List.reverse_append, List.reverse_cons]
  rcases cs.reverse with _ | ⟨d, _ | ⟨e, es⟩⟩
  · simp [h]
  · rfl
  · rfl

/-- The sign of the chomping in the header. -/
def Chomping.sign : Chomping → List Char
  | .clip => []
  | .strip => ['-']
  | .keep => ['+']

theorem chompingSign_eq (cs : List Char) : Written.chompingSign cs = (chompingOf cs).sign := by
  rw [Written.chompingSign, chompingOf]
  cases cs.reverse with
  | nil => rfl
  | cons c rest =>
    dsimp only
    split
    · rfl
    · split <;> rfl

/-! ### Lines -/

section Blank

variable {indent deepest : Nat} {read cs : List Char} {m : Mark}

/-- Indentation is passed over, as far as it belongs to the scalar. -/
theorem blankLines_spaces (n : Nat) (h : indent = 0 ∨ m.column + n ≤ indent) :
    blankLines indent deepest read m (spaces n ++ cs) =
      blankLines indent deepest read (m.right n) cs := by
  induction n generalizing m with
  | zero => rfl
  | succ n ih =>
    have hi : (indent = 0 || m.column < indent) = true := by simp; omega
    rw [spaces, List.replicate_succ, List.cons_append, blankLines]
    simp only [hi, decide_true, Bool.and_true, if_true]
    rw [← spaces, ih (by simp only [Mark.right_column]; omega), Mark.right_right, Nat.add_comm]

/-- What is neither a break nor indentation ends the empty lines. -/
theorem blankLines_end (h : ∀ c ∈ cs.head?, isBreak c = false ∧
    (indent = 0 ∨ m.column < indent → isGap c = false)) :
    blankLines indent deepest read m cs = .ok (read, max deepest m.column, ⟨m, cs⟩) := by
  cases cs with
  | nil => rw [blankLines]
  | cons c cs =>
    obtain ⟨hb, hg⟩ := h c rfl
    rw [blankLines]
    by_cases hi : indent = 0 ∨ m.column < indent
    · obtain ⟨hs, ht, -⟩ := isGap_eq_false_iff.1 (hg hi)
      simp [hs, ht, hb]
    · simp only [not_or] at hi
      simp [hi, hb]

theorem blankLines_break {c : Char} (h : isBreak c = true) :
    blankLines indent deepest read m (c :: cs) =
      blankLines indent (max deepest m.column) (c :: read) m.down cs := by
  have hs : c ≠ ' ' := by rintro rfl; exact absurd h (by decide)
  have ht : c ≠ '\t' := by rintro rfl; exact absurd h (by decide)
  rw [blankLines]
  simp [hs, ht, h]

end Blank

/-- What is written for the rest of a text in lines of its own, before the next line. -/
def literalRest (indent : Nat) (atStart : Bool) (cs next : List Char) : List Char :=
  Written.indented indent (fun c => [c]) atStart cs ++
    ((if (cs.getLast?.map isBreak).getD atStart then [] else ['\n']) ++ next)

section Literal

variable {indent : Nat} {next : List Char}

theorem literalRest_break {atStart : Bool} {c : Char} {cs : List Char} (h : isBreak c = true) :
    literalRest indent atStart (c :: cs) next = c :: literalRest indent true cs next := by
  have hl : ((c :: cs).getLast?.map isBreak).getD atStart =
      (cs.getLast?.map isBreak).getD true := by
    rw [List.getLast?_cons]
    cases cs.getLast? <;> simp [h]
  rw [literalRest, Written.indented, if_pos h, hl, List.cons_append, literalRest]

theorem literalRest_cons {atStart : Bool} {c : Char} {cs : List Char} (h : isBreak c = false) :
    literalRest indent atStart (c :: cs) next =
      (if atStart then spaces indent else []) ++ c :: literalRest indent false cs next := by
  have hl : ((c :: cs).getLast?.map isBreak).getD atStart =
      (cs.getLast?.map isBreak).getD false := by
    rw [List.getLast?_cons]
    cases cs.getLast? <;> simp [h]
  rw [literalRest, Written.indented, if_neg (by simp [h]), hl, literalRest]
  simp only [List.append_assoc, List.cons_append, List.nil_append]

theorem literalRest_line (l cs : List Char) (h : ∀ c ∈ l, isBreak c = false) :
    literalRest indent false (l ++ cs) next = l ++ literalRest indent false cs next := by
  induction l with
  | nil => rfl
  | cons c l ih =>
    obtain ⟨hc, hl⟩ := List.forall_mem_cons.1 h
    rw [List.cons_append, literalRest_cons hc, ih hl]
    rfl

theorem literalRest_breaks (bs cs : List Char) (h : ∀ c ∈ bs, isBreak c = true) :
    literalRest indent true (bs ++ cs) next = bs ++ literalRest indent true cs next := by
  induction bs with
  | nil => rfl
  | cons c bs ih =>
    obtain ⟨hc, hbs⟩ := List.forall_mem_cons.1 h
    rw [List.cons_append, literalRest_break hc, ih hbs]
    rfl

theorem literalRest_last {l : List Char} (h : ∀ c ∈ l, isBreak c = false) :
    literalRest indent false l next = l ++ '\n' :: next := by
  have : literalRest indent false (l ++ []) next = l ++ literalRest indent false [] next :=
    literalRest_line l [] h
  rwa [List.append_nil] at this

theorem literalRest_ended {bs : List Char} (h : ∀ c ∈ bs, isBreak c = true) :
    literalRest indent true bs next = bs ++ next := by
  have : literalRest indent true (bs ++ []) next = bs ++ literalRest indent true [] next :=
    literalRest_breaks bs [] h
  rwa [List.append_nil] at this

end Literal

/-- A text from a line that is not empty on: its last line, perhaps with breaks behind it, or
a line with the breaks behind it and a further text. -/
inductive Rows : List Char → Prop
  | last {l : List Char} {x : Char} (hl : ∀ c ∈ l ++ [x], isBreak c = false) : Rows (l ++ [x])
  | ended {l bs : List Char} {x b : Char} (hl : ∀ c ∈ l ++ [x], isBreak c = false)
    (hb : ∀ c ∈ b :: bs, isBreak c = true) : Rows (l ++ [x] ++ b :: bs)
  | more {l bs ds : List Char} {x b d : Char} (hl : ∀ c ∈ l ++ [x], isBreak c = false)
    (hb : ∀ c ∈ b :: bs, isBreak c = true) (hd : isBreak d = false) (rows : Rows (d :: ds)) :
    Rows (l ++ [x] ++ b :: (bs ++ d :: ds))

/-- A run of characters of a class comes first, and then one that is not of it. -/
theorem exists_run (p : Char → Bool) (cs : List Char) :
    ∃ l r, cs = l ++ r ∧ (∀ c ∈ l, p c = true) ∧ ∀ c ∈ r.head?, p c = false := by
  refine ⟨cs.takeWhile p, cs.dropWhile p, List.takeWhile_append_dropWhile.symm,
    fun c hc => List.mem_takeWhile_imp hc, fun c hc => ?_⟩
  have := List.head?_dropWhile_not p cs
  rw [Option.mem_def.1 hc] at this
  exact this

theorem rows_cons {c : Char} (h : isBreak c = false) (cs : List Char) : Rows (c :: cs) := by
  obtain ⟨l, r, he, hl, hr⟩ := exists_run (!isBreak ·) (c :: cs)
  have hl : ∀ c ∈ l, isBreak c = false := fun c hc => by simpa using hl c hc
  obtain ⟨k, x, rfl⟩ : ∃ k x, l = k ++ [x] := by
    rcases List.eq_nil_or_concat l with rfl | ⟨k, x, rfl⟩
    · obtain rfl : c :: cs = r := he
      have := hr c rfl
      simp [h] at this
    · exact ⟨k, x, List.concat_eq_append⟩
  rw [he]
  cases r with
  | nil =>
    rw [List.append_nil]
    exact .last hl
  | cons b ds =>
    have hb : isBreak b = true := by simpa using hr b rfl
    obtain ⟨bs, ds, rfl, hbs, hd⟩ := exists_run isBreak ds
    have hb : ∀ c ∈ b :: bs, isBreak c = true := List.forall_mem_cons.2 ⟨hb, hbs⟩
    cases ds with
    | nil =>
      rw [List.append_nil]
      exact .ended hl hb
    | cons d ds => exact .more hl hb (hd d rfl) (rows_cons (hd d rfl) ds)
termination_by cs.length
decreasing_by
  have := congrArg List.length he
  simp at this ⊢
  omega

section Reading

variable {chomping : Chomping} {indent column : Nat} {start m : Mark}
    {read more rest : List Char} {blank : Bool}
  {first : Option Char}

/-- Behind breaks there is the next line, -/
theorem blankLines_breaks (indent : Nat) (bs : List Char) (deepest : Nat) (read cs : List Char)
    (hb : ∀ c ∈ bs, isBreak c = true)
    (hm : m.column = 0) :
    ∃ deepest' line, m.line ≤ line ∧ blankLines indent deepest read m (bs ++ cs) =
      blankLines indent deepest' (bs.reverse ++ read) ⟨line, 0⟩ cs := by
  induction bs generalizing deepest read m with
  | nil => exact ⟨deepest, m.line, Nat.le_refl _, by rw [← hm]; rfl⟩
  | cons c bs ih =>
    obtain ⟨hc, hbs⟩ := List.forall_mem_cons.1 hb
    obtain ⟨deepest', line, hl, ih⟩ := ih (max deepest m.column) (c :: read) hbs (m := m.down) rfl
    refine ⟨deepest', line, Nat.le_of_succ_le hl, ?_⟩
    rw [List.cons_append, blankLines_break hc, ih, List.reverse_cons, List.append_assoc]
    rfl

/-- which may be one of the text -/
theorem blankLines_line {line deepest : Nat} {c : Char} {cs : List Char} (hi : 0 < indent)
    (hc : isBreak c = false) :
    blankLines indent deepest read ⟨line, 0⟩ (literalRest indent true (c :: cs) rest) =
      .ok (read, max deepest indent,
        ⟨⟨line, indent⟩, literalRest indent false (c :: cs) rest⟩) := by
  have hr : (Mark.mk line 0).right indent = ⟨line, indent⟩ := by rw [Mark.right, Nat.zero_add]
  rw [literalRest_cons hc, if_pos rfl, blankLines_spaces indent (.inr (by simp)), hr,
    literalRest_cons hc]
  refine blankLines_end ?_
  rintro d ⟨⟩
  exact ⟨hc, fun hn => absurd hn (by simp; omega)⟩

/-- or not. -/
theorem blankLines_next {line deepest : Nat} (hi : column < indent)
    (hr : ∀ c ∈ rest.head?, isGap c = false) :
    blankLines indent deepest read ⟨line, 0⟩ (spaces column ++ rest) =
      .ok (read, max deepest column, ⟨⟨line, column⟩, rest⟩) := by
  have he : (Mark.mk line 0).right column = ⟨line, column⟩ := by rw [Mark.right, Nat.zero_add]
  rw [blankLines_spaces column (.inr (by simpa using Nat.le_of_lt hi)), he]
  exact blankLines_end fun c hc => ⟨(isGap_eq_false_iff.1 (hr c hc)).2.2, fun _ => hr c hc⟩

/-- A line is read together with the breaks behind it. -/
theorem lines_row {n : Nat} {l ds more' : List Char} {b : Char} {c : Cursor}
    (hl : ∀ c ∈ l, isBreak c = false)
    (hb : isBreak b = true) (hm : m.column = indent)
    (hbl : blankLines indent 0 [] m.down ds = .ok (more', n, c)) :
    lines true chomping indent start read blank first more ⟨m, l ++ b :: ds⟩ =
      lines true chomping indent start (l.reverse ++ (more ++ first.toList) ++ read)
        (((l ++ b :: ds).head?.map isBlank).getD false) (some b) more' c := by
  have hl : ∀ c ∈ l, (!isBreak c) = true := fun c hc => by simpa using hl c hc
  have ht : (l ++ b :: ds).takeWhile (!isBreak ·) = l := by
    rw [List.takeWhile_append_of_pos hl, List.takeWhile_cons, if_neg (by simp [hb]),
      List.append_nil]
  have hd : (l ++ b :: ds).dropWhile (!isBreak ·) = b :: ds := by
    rw [List.dropWhile_append_of_pos hl, List.dropWhile_cons, if_neg (by simp [hb])]
  have ha : afterLine ⟨m, l ++ b :: ds⟩ = ⟨m.down, ds⟩ := by
    simp only [afterLine, Cursor.skip, hd, Cursor.down, hb, if_true]
    rfl
  rw [lines, dif_pos ⟨hm, by simp⟩]
  split
  · rename_i e he
    rw [ha, hbl] at he
    simp at he
  · rename_i x y z he
    rw [ha, hbl] at he
    obtain ⟨rfl, rfl, rfl⟩ : more' = x ∧ n = y ∧ c = z := by simpa using he
    simp only [Cursor.span, Cursor.skip, Cursor.head?, ht, hd, List.head?_cons, between,
      Bool.not_true, Bool.false_and, Bool.false_eq_true, if_false]

/-- The text ends where the next line is not indented deep enough. -/
theorem lines_end {c : Cursor} (h : c.mark.column < indent) :
    lines true chomping indent start read blank first more c =
      .ok ((chomped chomping first more ++ read).reverse, c) := by
  rw [lines, dif_neg fun hc => absurd hc.1 (Nat.ne_of_lt h)]

/-- **The lines of a text are read back**, from one that is not empty on, with the breaks
before it. -/
theorem lines_literalRest {cs : List Char} (start : Mark) (hi : column < indent)
    (hr : ∀ c ∈ rest.head?, isGap c = false)
    (h : Rows cs) (read : List Char) (blank : Bool) (first : Option Char)
    (more : List Char) (m : Mark)
    (hm : m.column = indent) :
    ∃ line, m.line < line ∧
      lines true (chompingOf cs) indent start read blank first more
          ⟨m, literalRest indent false cs (spaces column ++ rest)⟩ =
        .ok ((more ++ first.toList ++ read).reverse ++ cs, ⟨⟨line, column⟩, rest⟩) := by
  induction h generalizing read blank first more m with
  | last hl =>
    refine ⟨m.line + 1, Nat.lt_succ_self _, ?_⟩
    rw [literalRest_last hl, lines_row hl rfl hm (blankLines_next hi hr), lines_end hi,
      chompingOf_concat (hl _ (by simp))]
    simp [chomped]
  | @ended l bs x b hl hbreaks =>
    obtain ⟨hb, hbs⟩ := List.forall_mem_cons.1 hbreaks
    obtain ⟨deepest, line, hl', hbl⟩ :=
      blankLines_breaks indent bs 0 [] (spaces column ++ rest) hbs (show m.down.column = 0 from rfl)
    rw [blankLines_next hi hr] at hbl
    refine ⟨line, hl', ?_⟩
    rw [literalRest_line _ _ hl, literalRest_break hb, literalRest_ended hbs,
      lines_row hl hb hm hbl, lines_end hi]
    have hc : chomped (chompingOf (l ++ [x] ++ b :: bs)) (some b) (bs.reverse ++ []) =
        bs.reverse ++ [b] := by
      cases bs with
      | nil => rw [chompingOf_break (hl x (by simp)) hb]; rfl
      | cons c bs =>
        rw [chompingOf_breaks hbreaks _ (.inl (by simp)), List.append_nil]
        rfl
    rw [hc]
    simp
  | @more l bs ds x b d hl hb hd _ ih =>
    obtain ⟨hb, hbs⟩ := List.forall_mem_cons.1 hb
    have ht : literalRest indent false (l ++ [x] ++ b :: (bs ++ d :: ds)) (spaces column ++ rest) =
        l ++ [x] ++ b :: (bs ++ literalRest indent true (d :: ds) (spaces column ++ rest)) := by
      rw [literalRest_line _ _ hl, literalRest_break hb, literalRest_breaks _ _ hbs]
    obtain ⟨deepest, line, hl', hbl⟩ := blankLines_breaks indent bs 0 []
      (literalRest indent true (d :: ds) (spaces column ++ rest)) hbs
        (show m.down.column = 0 from rfl)
    rw [blankLines_line (Nat.zero_lt_of_lt hi) hd] at hbl
    obtain ⟨line', hl'', ih⟩ := ih ((l ++ [x]).reverse ++ (more ++ first.toList) ++ read) _ (some b)
      (bs.reverse ++ []) ⟨line, indent⟩ rfl
    refine ⟨line', Nat.lt_trans hl' hl'', ?_⟩
    have hc : chompingOf (l ++ [x] ++ b :: (bs ++ d :: ds)) = chompingOf (d :: ds) := by
      rw [← List.cons_append, ← List.append_assoc, chompingOf_append hd]
    rw [ht, lines_row hl hb hm hbl, hc, ih]
    simp

/-! ### The header -/

/-- The header is read back. -/
theorem header_written (chomping : Chomping) (digit : Bool) (start m : Mark) (rest : List Char) :
    ∃ m', m'.line = m.line ∧
      header start ⟨m, (if digit then ['2'] else []) ++ (chomping.sign ++ '\n' :: rest)⟩ =
        .ok (chomping, if digit then 2 else 0, ⟨m', '\n' :: rest⟩) := by
  cases digit <;> cases chomping
  · exact ⟨m, rfl, rfl⟩
  · exact ⟨m.right 1, rfl, rfl⟩
  · exact ⟨m.right 1, rfl, rfl⟩
  · exact ⟨m.right 1, rfl, rfl⟩
  · exact ⟨(m.right 1).right 1, rfl, rfl⟩
  · exact ⟨(m.right 1).right 1, rfl, rfl⟩

/-- The text begins with a space or a break. -/
def needsDigit (cs : List Char) : Bool :=
    (cs.head?.map fun c => Written.isSpace c || isBreak c).getD false

theorem getLast?_indented (indent : Nat) (atStart : Bool) (cs : List Char) :
    (Written.indented indent (fun c => [c]) atStart cs).getLast? = cs.getLast? := by
  induction cs generalizing atStart with
  | nil => rfl
  | cons c cs ih =>
    rw [Written.indented]
    split
    · rw [List.getLast?_cons, List.getLast?_cons, ih]
    · rw [List.append_assoc, List.getLast?_append, List.singleton_append, List.getLast?_cons,
        List.getLast?_cons, ih, Option.some_or]

theorem literal_eq (indent : Nat) (cs rest : List Char) :
    ended (Written.literal indent cs) ++ rest =
      '|' :: ((if needsDigit cs then ['2'] else []) ++ ((chompingOf cs).sign ++
        '\n' :: literalRest indent true cs rest)) := by
  have hl : ((Written.literal indent cs).getLast?.map isBreak).getD false =
      (cs.getLast?.map isBreak).getD true := by
    rw [Written.literal, List.getLast?_append, List.getLast?_cons, getLast?_indented,
      Option.some_or]
    cases cs.getLast? <;> rfl
  rw [ended, hl, literalRest, Written.literal, chompingSign_eq, ← needsDigit]
  split <;> simp

/-- The lines are read behind the header. -/
theorem scan_eq (parent : Nat) (cs : List Char) (m : Mark) (rest : List Char) :
    ∃ line, m.line < line ∧
      scan true parent ⟨m, ended (Written.literal (parent + 2) cs) ++ rest⟩ =
        match blankLines (if needsDigit cs then parent + 2 else 0) 0 [] ⟨line, 0⟩
            (literalRest (parent + 2) true cs rest) with
        | .error n => flawedWhile .blockScalar m .tabIndent n
        | .ok (more, deepest, c) =>
          lines true (chompingOf cs)
            (if needsDigit cs then parent + 2 else max deepest (parent + 1)) m [] false
            none more c := by
  obtain ⟨m', hm, hh⟩ := header_written (chompingOf cs) (needsDigit cs) m (m.right 1)
    (literalRest (parent + 2) true cs rest)
  refine ⟨m'.line + 1, by rw [hm]; exact Nat.lt_succ_self _, ?_⟩
  have hs : (Cursor.mk m' ('\n' :: literalRest (parent + 2) true cs rest)).skipComment =
      ⟨m', '\n' :: literalRest (parent + 2) true cs rest⟩ := rfl
  rw [literal_eq, scan]
  have hb : isBreak '\n' = true := rfl
  have hp : (max (parent : Int) 0).toNat = parent := by omega
  have hq : max ((parent : Int) + 1).toNat 1 = parent + 1 := by omega
  simp only [Cursor.right, List.drop_one, List.tail_cons, hh, hs, atLineEnd, List.head?_cons,
    Option.map_some, Option.getD_some, hb, Bool.not_true, Bool.false_eq_true, if_false,
    Cursor.down, if_true, hp, hq]
  cases needsDigit cs
  · rfl
  · rfl

/-- **A text in lines of its own is read back**, up to the next line. -/
theorem scan_literal {parent : Nat} {cs : List Char} (hc : column ≤ parent)
    (hr : ∀ c ∈ rest.head?, isGap c = false) (h : Written.literalAllowed cs = true) (hn : cs ≠ []) :
    ∃ line, m.line < line ∧
      scan true parent ⟨m, ended (Written.literal (parent + 2) cs) ++ (spaces column ++ rest)⟩ =
        .ok (cs, ⟨⟨line, column⟩, rest⟩) := by
  have hi : column < parent + 2 := by omega
  obtain ⟨line, hl, hs⟩ := scan_eq parent cs m (spaces column ++ rest)
  rw [hs]
  cases hd : needsDigit cs with
  | false =>
    obtain ⟨c, cs, rfl⟩ := List.exists_cons_of_ne_nil hn
    obtain ⟨hsp, hb⟩ : c ≠ ' ' ∧ isBreak c = false := by
      simpa [needsDigit, Written.isSpace] using hd
    have hg := isGap_eq_false
      (Written.printable_of_literalAllowed h c (List.mem_cons_self ..)) hsp hb
    have hbl : blankLines 0 0 [] ⟨line, 0⟩
      (literalRest (parent + 2) true (c :: cs) (spaces column ++ rest)) =
        .ok ([], parent + 2, ⟨⟨line, parent + 2⟩, literalRest (parent + 2) false (c :: cs)
          (spaces column ++ rest)⟩) := by
      rw [literalRest_cons hb, if_pos rfl, blankLines_spaces _ (.inl rfl), literalRest_cons hb]
      refine (blankLines_end ?_).trans ?_
      · rintro d ⟨⟩
        exact ⟨hb, fun _ => hg⟩
      · simp [Mark.right]
    obtain ⟨line', hl', hw⟩ := lines_literalRest m hi hr (rows_cons hb cs) [] false none
      [] ⟨line, parent + 2⟩ rfl
    refine ⟨line', Nat.lt_trans hl hl', ?_⟩
    simp only [Bool.false_eq_true, if_false, hbl]
    rw [Nat.max_eq_left (by omega), hw]
    rfl
  | true =>
    obtain ⟨bs, r, rfl, hb, hr'⟩ := exists_run isBreak cs
    obtain ⟨deepest, line', hl', hbl⟩ := blankLines_breaks (parent + 2) bs 0 []
      (literalRest (parent + 2) true r (spaces column ++ rest)) hb
        (show (Mark.mk line 0).column = 0 from rfl)
    simp only [if_true]
    rw [literalRest_breaks _ _ hb, hbl]
    cases r with
    | nil =>
      rw [List.append_nil] at hn ⊢
      refine ⟨line', Nat.lt_of_lt_of_le hl hl', ?_⟩
      rw [literalRest_ended (by simp), List.nil_append, blankLines_next hi hr]
      have hk : chompingOf (bs ++ []) = .keep := by
        rw [List.append_nil]
        exact chompingOf_breaks hb [] (.inr ⟨rfl, hn⟩)
      dsimp only
      rw [lines_end hi, hk]
      simp [chomped]
    | cons d ds =>
      have hd : isBreak d = false := hr' d rfl
      obtain ⟨line'', hl'', hw⟩ := lines_literalRest m hi hr (rows_cons hd ds) [] false none
        (bs.reverse ++ []) ⟨line', parent + 2⟩ rfl
      refine ⟨line'', Nat.lt_trans (Nat.lt_of_lt_of_le hl hl') hl'', ?_⟩
      rw [blankLines_line (Nat.succ_pos _) hd, chompingOf_append hd]
      dsimp only
      rw [hw]
      simp

end Reading

end Block
end Yaml
end Retarget
