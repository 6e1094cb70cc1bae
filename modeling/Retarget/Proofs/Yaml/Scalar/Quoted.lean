/-
# Quoted scalars that were written are read back

The reader alternates between words and gaps.  `inWord` and `inGap` are what is left of its
work in the midst of either; each character that was written takes one step between the
two.  `scan_single` and `scan_double` follow a text character by character.
-/

import Retarget.Proofs.Yaml.Scalar.Gap
import Retarget.Proofs.Yaml.Scalar.Style

namespace Retarget
namespace Yaml
namespace Quoted

open Written (spaces isPrintable)

/-- What a reader in a gap comes to. -/
def inGap (quote : Quote) (start : Mark) (read : List Char) (gap : Gap)
    (m : Mark) (cs : List Char) :
    Except Flaw (List Char × Cursor) :=
  match gap.read 0 m cs with
  | .error n => flawedWhile .quotedScalar start .endInQuoted n
  | .ok (gap, e) => more quote start (gap.folded ++ read) e

/-- What a reader in a word comes to. -/
def inWord (quote : Quote) (start : Mark) (read : List Char) (m : Mark) (cs : List Char) :
    Except Flaw (List Char × Cursor) :=
  match word quote start read m cs with
  | .error e => .error e
  | .ok (read, gap, d) =>
    if d.head? = some quote.sign then .ok (read.reverse, d.right 1)
    else inGap quote start read gap d.mark d.rest

section Steps

variable {quote : Quote} {start m : Mark} {read cs : List Char} {c : Char}

theorem more_eq_inWord (h : 0 < m.column) :
    more quote start read ⟨m, c :: cs⟩ = inWord quote start read m (c :: cs) := by
  rw [more, if_neg (by rw [atDocumentMark_eq_false h]; decide), dif_neg (by simp), inWord]
  split <;> rename_i hw
  · simp only [hw]
  · simp only [hw]
    split
    · rfl
    · rw [inGap]
      split <;> rename_i hg <;> simp only [hg]

theorem inGap_space (bs : List Char) :
    inGap quote start read (.blanks bs) m (' ' :: cs) =
      inGap quote start read (.blanks (' ' :: bs)) (m.right 1) cs := by
  rw [inGap, Gap.read_space, inGap]

theorem inGap_break (gap : Gap) (h : isBreak c = true) :
    inGap quote start read gap m (c :: cs) = inGap quote start read (gap.add c) m.down cs := by
  rw [inGap, Gap.read_break gap h, inGap]

theorem inGap_indentation (first : Option Char) (breaks : List Char) (n : Nat) :
    inGap quote start read (.breaks first breaks) m (spaces n ++ cs) =
      inGap quote start read (.breaks first breaks) (m.right n) cs := by
  rw [inGap, Gap.read_indentation, inGap]

theorem inGap_word (gap : Gap) (h : isGap c = false) (hm : 0 < m.column) :
    inGap quote start read gap m (c :: cs) =
      inWord quote start (gap.folded ++ read) m (c :: cs) := by
  rw [inGap, Gap.read_word gap h]
  exact more_eq_inWord hm

theorem inWord_gap (h : isGap c = true) (hq : c ≠ quote.sign) :
    inWord quote start read m (c :: cs) = inGap quote start read .empty m (c :: cs) := by
  rw [inWord, word, if_pos h]
  exact if_neg fun he => hq (Option.some.inj he)

/-- A character without a meaning of its own. -/
theorem inWord_cons (h : isGap c = false) (hq : c ≠ quote.sign) (he : quote = .double → c ≠ '\\') :
    inWord quote start read m (c :: cs) = inWord quote start (c :: read) (m.right 1) cs := by
  have h1 : (quote = .single && c = '\'' && cs.head? = some '\'') = false := by
    cases quote
    · simp [show c ≠ '\'' from hq]
    · simp
  have h2 : (quote = .double && c = '\\') = false := by
    cases quote
    · simp
    · simp [he rfl]
  rw [inWord, word]
  simp only [h, h1, hq, h2, Bool.false_eq_true, if_false]
  rw [inWord]

theorem inWord_doubled :
    inWord .single start read m ('\'' :: '\'' :: cs) =
      inWord .single start ('\'' :: read) (m.right 2) cs := by
  rw [inWord, word, if_neg (by decide), if_pos (by simp), List.drop_one, List.tail_cons, inWord]

/-- An escape stands for a character. -/
theorem inWord_escape {es : List Char} (hb : ∀ d ∈ es.head?, isBreak d = false) (hn : es ≠ [])
    (he : escape start m (es ++ cs) = .ok (c, es.length)) :
    inWord .double start read m ('\\' :: (es ++ cs)) =
      inWord .double start (c :: read) (m.right (es.length + 1)) cs := by
  obtain ⟨d, es, rfl⟩ := List.exists_cons_of_ne_nil hn
  have hd : isBreak d = false := hb d rfl
  rw [inWord, word, if_neg (by decide), if_neg (by simp), if_neg (by decide), if_pos (by simp)]
  simp only [List.cons_append, List.head?_cons, Option.map_some, Option.getD_some, hd,
    Bool.false_eq_true, if_false]
  rw [List.cons_append] at he
  rw [he]
  simp only [List.length_cons, List.drop_succ_cons, List.drop_left]
  rw [inWord]

/-- The closing quote ends the scalar. -/
theorem inWord_close (h : quote = .single → cs.head? ≠ some '\'') :
    inWord quote start read m (quote.sign :: cs) = .ok (read.reverse, ⟨m.right 1, cs⟩) := by
  have h1 : (quote = .single && quote.sign = '\'' && cs.head? = some '\'') = false := by
    cases quote
    · simp [h rfl]
    · simp
  have h2 : isGap quote.sign = false := by cases quote <;> decide
  rw [inWord, word]
  simp only [h1, h2, Bool.false_eq_true, if_false, if_true]
  exact if_pos rfl

end Steps

/-- The scalar is read up to a place that is not in an earlier line. -/
def ReadsTo (r : Except Flaw (List Char × Cursor)) (m : Mark) (cs rest : List Char) : Prop :=
  ∃ m', m.line ≤ m'.line ∧ r = .ok (cs, ⟨m', rest⟩)

theorem ReadsTo.mono {r : Except Flaw (List Char × Cursor)} {m m' : Mark} {cs rest : List Char}
    (h : ReadsTo r m cs rest) (hm : m'.line ≤ m.line) : ReadsTo r m' cs rest := by
  obtain ⟨n, hn, he⟩ := h
  exact ⟨n, Nat.le_trans hm hn, he⟩

/-! ### Single quotes -/

/-- What is written for the rest of a text in single quotes. -/
def singleRest (indent : Nat) (atStart : Bool) (cs rest : List Char) : List Char :=
  Written.indented indent Written.singleChar atStart cs ++
    ((if (cs.getLast?.map isBreak).getD atStart then spaces indent else []) ++ '\'' :: rest)

section Single

variable {indent : Nat} {start m : Mark} {rest : List Char}

theorem singleRest_break {atStart : Bool} {c : Char} {cs : List Char} (h : isBreak c = true) :
    singleRest indent atStart (c :: cs) rest = c :: singleRest indent true cs rest := by
  have hl : ((c :: cs).getLast?.map isBreak).getD atStart =
      (cs.getLast?.map isBreak).getD true := by
    rw [List.getLast?_cons]
    cases cs.getLast? <;> simp [h]
  rw [singleRest, Written.indented, if_pos h, hl, List.cons_append, singleRest]

theorem singleRest_cons {atStart : Bool} {c : Char} {cs : List Char} (h : isBreak c = false) :
    singleRest indent atStart (c :: cs) rest =
      (if atStart then spaces indent else []) ++
        (Written.singleChar c ++ singleRest indent false cs rest) := by
  have hl : ((c :: cs).getLast?.map isBreak).getD atStart =
      (cs.getLast?.map isBreak).getD false := by
    rw [List.getLast?_cons]
    cases cs.getLast? <;> simp [h]
  rw [singleRest, Written.indented, if_neg (by simp [h]), hl, singleRest]
  simp only [List.append_assoc]

/-- A character that is not of a gap is read in a word as itself. -/
theorem inWord_singleChar (m : Mark) (read cs : List Char) {c : Char} (h : isGap c = false) :
    ∃ n, inWord .single start read m (Written.singleChar c ++ cs) =
      inWord .single start (c :: read) (m.right n) cs := by
  rw [Written.singleChar]
  split
  · rename_i hc
    subst hc
    exact ⟨2, inWord_doubled⟩
  · rename_i hc
    exact ⟨1, inWord_cons h hc (by simp)⟩

/-- What a text has to be like to stand in single quotes. -/
structure Single (cs : List Char) : Prop where
  printable : Printable cs
  noFeed : '\n' ∉ cs

theorem Single.cons {c : Char} {cs : List Char} (h : Single (c :: cs)) :
    isPrintable c = true ∧ c ≠ '\n' ∧ Single cs :=
  ⟨h.1 c (List.mem_cons_self ..), fun he => h.2 (he ▸ List.mem_cons_self ..),
    fun d hd => h.1 d (List.mem_cons_of_mem _ hd), fun hd => h.2 (List.mem_cons_of_mem _ hd)⟩

/-- Where a line begins with a character, the indentation comes first. -/
theorem singleRest_start {cs : List Char} (h : ∀ c ∈ cs.head?, isBreak c = false) :
    singleRest indent true cs rest = spaces indent ++ singleRest indent false cs rest := by
  cases cs with
  | nil => rfl
  | cons c cs => rw [singleRest_cons (h c rfl), singleRest_cons (h c rfl)]; rfl

/-- What is written for a word starts with no gap. -/
theorem exists_singleRest_eq_cons {cs : List Char} (h : ∀ c ∈ cs.head?, isGap c = false) :
    ∃ d ds, singleRest indent false cs rest = d :: ds ∧ isGap d = false := by
  cases cs with
  | nil => exact ⟨'\'', rest, rfl, by decide⟩
  | cons c cs =>
    have hc := h c rfl
    rw [singleRest_cons (isGap_eq_false_iff.1 hc).2.2, Written.singleChar,
      if_neg Bool.false_ne_true, List.nil_append]
    split
    · exact ⟨'\'', _, rfl, by decide⟩
    · exact ⟨c, _, rfl, hc⟩

theorem inGap_singleRest {gap : Gap} {m : Mark} {read cs : List Char}
    (h : ∀ c ∈ cs.head?, isGap c = false)
    (hm : 0 < m.column) :
    inGap .single start read gap m (singleRest indent false cs rest) =
      inWord .single start (gap.folded ++ read) m (singleRest indent false cs rest) := by
  obtain ⟨d, ds, he, hd⟩ := exists_singleRest_eq_cons h
  rw [he, inGap_word gap hd hm]

mutual

/-- The rest of a text is read in a word, -/
theorem inWord_singleRest (hr : rest.head? ≠ some '\'') (hi : 0 < indent)
    (cs : List Char) (m : Mark)
    (read : List Char) (h : Single cs) (hs : Separated cs) (hm : 0 < m.column) :
    ReadsTo (inWord .single start read m (singleRest indent false cs rest)) m
      (read.reverse ++ cs) rest := by
  cases cs with
  | nil =>
    refine ⟨m.right 1, Nat.le_refl _, ?_⟩
    rw [List.append_nil]
    exact inWord_close fun _ => hr
  | cons c cs =>
    obtain ⟨hp, hn, ht⟩ := h.cons
    by_cases hb : isBreak c = true
    · have hq : c ≠ Quote.single.sign := by rintro rfl; exact absurd hb (by decide)
      have ih := inGap_breaks_singleRest hr hi cs c c [] m.down read ht hb hn hs
      rw [singleRest_break hb, inWord_gap (isGap_of_isBreak hb) hq, inGap_break _ hb]
      exact ih.mono (Nat.le_succ _)
    · rw [Bool.not_eq_true] at hb
      rw [singleRest_cons hb, if_neg Bool.false_ne_true, List.nil_append]
      by_cases hc : c = ' '
      · subst hc
        have ih := inGap_blanks_singleRest hr hi cs [' '] (m.right 1) read ht hs (Nat.succ_pos _)
        rw [Written.singleChar, if_neg (by decide), List.singleton_append,
          inWord_gap rfl (by rw [Quote.sign]; decide), Gap.empty, inGap_space]
        exact ih
      · obtain ⟨n, he⟩ := inWord_singleChar m read (singleRest indent false cs rest)
          (isGap_eq_false hp hc hb)
        have ih := inWord_singleRest hr hi cs (m.right n) (c :: read) ht hs.tail
          (Nat.lt_add_right _ hm)
        rw [List.reverse_cons, List.append_assoc] at ih
        rw [he]
        exact ih
termination_by (cs.length, 0)

/-- behind blanks, -/
theorem inGap_blanks_singleRest (hr : rest.head? ≠ some '\'') (hi : 0 < indent) (cs bs : List Char)
    (m : Mark) (read : List Char) (h : Single cs) (hs : Separated (' ' :: cs)) (hm : 0 < m.column) :
    ReadsTo (inGap .single start read (.blanks bs) m (singleRest indent false cs rest)) m
      (read.reverse ++ (bs.reverse ++ cs)) rest := by
  have hw (hg : ∀ c ∈ cs.head?, isGap c = false) :
      ReadsTo (inGap .single start read (.blanks bs) m (singleRest indent false cs rest)) m
        (read.reverse ++ (bs.reverse ++ cs)) rest := by
    have ih := inWord_singleRest hr hi cs m (bs ++ read) h hs.tail hm
    rw [List.reverse_append, List.append_assoc] at ih
    rw [inGap_singleRest hg hm]
    exact ih
  cases cs with
  | nil => exact hw fun c hc => nomatch hc
  | cons c cs =>
    obtain ⟨hp, -, ht⟩ := h.cons
    have hb := hs.not_isBreak
    by_cases hc : c = ' '
    · subst hc
      have ih := inGap_blanks_singleRest hr hi cs (' ' :: bs)
        (m.right 1) read ht hs.tail (Nat.succ_pos _)
      rw [List.reverse_cons, List.append_assoc] at ih
      rw [singleRest_cons hb, if_neg Bool.false_ne_true, List.nil_append, Written.singleChar,
        if_neg (by decide), List.singleton_append, inGap_space]
      exact ih
    · refine hw fun d hd => ?_
      obtain rfl : c = d := Option.some.inj hd
      exact isGap_eq_false hp hc hb
termination_by (cs.length, 1)

/-- and behind breaks. -/
theorem inGap_breaks_singleRest (hr : rest.head? ≠ some '\'') (hi : 0 < indent) (cs : List Char)
    (b first : Char) (more : List Char) (m : Mark) (read : List Char) (h : Single cs)
    (hb : isBreak b = true) (hf : first ≠ '\n') (hs : Separated (b :: cs)) :
    ReadsTo (inGap .single start read (.breaks (some first) more) m
      (singleRest indent true cs rest)) m
      (read.reverse ++ (first :: (more.reverse ++ cs))) rest := by
  have hw (hg : ∀ c ∈ cs.head?, isGap c = false) :
      ReadsTo (inGap .single start read (.breaks (some first) more) m
        (singleRest indent true cs rest)) m
        (read.reverse ++ (first :: (more.reverse ++ cs))) rest := by
    have hm : 0 < (m.right indent).column := Nat.lt_add_left _ hi
    have ih := inWord_singleRest hr hi cs (m.right indent) (more ++ [first] ++ read) h hs.tail hm
    have he : (more ++ [first] ++ read).reverse ++ cs =
        read.reverse ++ (first :: (more.reverse ++ cs)) := by
      simp
    rw [he] at ih
    rw [singleRest_start fun c hc => (isGap_eq_false_iff.1 (hg c hc)).2.2, inGap_indentation,
      inGap_singleRest hg hm, Gap.folded, if_neg hf]
    exact ih
  cases cs with
  | nil => exact hw fun c hc => nomatch hc
  | cons c cs =>
    obtain ⟨hp, -, ht⟩ := h.cons
    by_cases hc : isBreak c = true
    · have ih := inGap_breaks_singleRest hr hi cs c first (c :: more) m.down read ht hc hf hs.tail
      rw [List.reverse_cons, List.append_assoc] at ih
      rw [singleRest_break hc, inGap_break _ hc]
      exact ih.mono (Nat.le_succ _)
    · refine hw fun d hd => ?_
      obtain rfl : c = d := Option.some.inj hd
      exact isGap_eq_false hp (hs.ne_space hb) (by simpa using hc)
termination_by (cs.length, 1)

end

/-- **A text in single quotes is read back.** -/
theorem scan_single {cs : List Char} (m : Mark) (hr : rest.head? ≠ some '\'') (hi : 0 < indent)
    (h : Written.singleAllowed cs = true) (hn : '\n' ∉ cs) :
    ReadsTo (scan .single ⟨m, Written.single indent cs ++ rest⟩) m cs rest := by
  have hs : Separated cs := by
    simp only [Written.singleAllowed, Bool.and_eq_true, Bool.not_eq_true'] at h
    exact h.1
  have he : Written.single indent cs ++ rest = '\'' :: singleRest indent false cs rest := by
    rw [Written.single, singleRest, List.cons_append, List.cons_append, List.cons_append,
      List.append_assoc, List.append_assoc, List.singleton_append]
  obtain ⟨c, ds, hd⟩ := List.exists_cons_of_ne_nil (show singleRest indent false cs rest ≠ [] by
    simp [singleRest])
  have hw : ReadsTo (inWord .single m [] (m.right 1) (singleRest indent false cs rest)) m cs rest :=
    inWord_singleRest hr hi cs (m.right 1) [] ⟨Written.printable_of_singleAllowed h, hn⟩ hs
      (Nat.succ_pos _)
  rw [scan, he, Cursor.right, List.drop_one, List.tail_cons]
  rw [hd] at hw ⊢
  rw [more_eq_inWord (Nat.succ_pos _)]
  exact hw

end Single

/-! ### Double quotes -/

/-- Digits are read in order. -/
theorem code?_append {v k : Nat} {ds : List Char} (h : code? v ds.length ds = some k) (n : Nat)
    (cs : List Char) :
    code? v (ds.length + n) (ds ++ cs) = code? k n cs := by
  induction ds generalizing v with
  | nil =>
    obtain rfl : v = k := by simpa [code?] using h
    rw [List.length_nil, Nat.zero_add, List.nil_append]
  | cons d ds ih =>
    rw [List.length_cons, code?] at h
    rw [List.length_cons, Nat.add_right_comm, List.cons_append, code?]
    split at h
    · exact ih h
    · simp at h

theorem length_hexDigits (n count : Nat) : (Written.hexDigits n count).length = count := by
  induction count generalizing n with
  | zero => rfl
  | succ count ih => rw [Written.hexDigits, List.length_append, ih, List.length_singleton]

theorem hexValue?_hexDigit (n : Nat) : hexValue? (hexDigit n) = some (n % 16) := by
  have h : ∀ k < 16, hexValue? (Nat.digitChar k).toUpper = some k := by decide
  exact h _ (Nat.mod_lt n (by decide))

/-- A number that was written with so many digits is read back. -/
theorem code?_hexDigits (count n : Nat) (cs : List Char) (h : n < Nat.pow 16 count) :
    code? 0 count (Written.hexDigits n count ++ cs) = some n := by
  induction count generalizing n cs with
  | zero =>
    obtain rfl : n = 0 := by simpa using h
    rfl
  | succ count ih =>
    have hd := ih (n / 16) [] (Nat.div_lt_of_lt_mul (by rwa [Nat.mul_comm]))
    rw [List.append_nil] at hd
    have ha := code?_append (by rw [length_hexDigits]; exact hd) 1 (hexDigit n :: cs)
    rw [length_hexDigits] at ha
    rw [Written.hexDigits, List.append_assoc, List.singleton_append, ← hexDigit, ha, code?,
      hexValue?_hexDigit]
    simp only [code?, Option.some.injEq]
    omega

theorem isCharacter_toNat (c : Char) : isCharacter c.toNat = true := by
  have h := c.valid
  simp only [isCharacter, Bool.or_eq_true, Bool.and_eq_true, decide_eq_true_eq]
  rcases h with h | ⟨h1, h2⟩
  · exact .inl h
  · exact .inr ⟨h1, by have : c.toNat < 0x110000 := h2; omega⟩

/-- A numbered escape stands for the character with the number. -/
theorem escape_number {start m : Mark} {sign c : Char} {count : Nat} {cs : List Char}
    (hs : shortEscapes.lookup sign = none) (hc : codeLength? sign = some count)
    (hn : c.toNat < Nat.pow 16 count) :
    escape start m (sign :: Written.hexDigits c.toNat count ++ cs) =
      .ok (c, (sign :: Written.hexDigits c.toNat count).length) := by
  simp only [List.cons_append, escape, hs, hc, code?_hexDigits count _ cs hn, isCharacter_toNat,
    if_true, Char.ofNat_toNat, List.length_cons, length_hexDigits]

/-- **An escape that was written stands for its character.** -/
theorem exists_escaped (c : Char) : ∃ es, Written.escaped c = '\\' :: es ∧ es ≠ [] ∧
    (∀ d ∈ es.head?, isBreak d = false) ∧
      ∀ start m cs, escape start m (es ++ cs) = .ok (c, es.length) := by
  rw [Written.escaped]
  split
  · rename_i d hd
    have h : ∀ e ∈ Written.letters,
        shortEscapes.lookup e.2 = some e.1 ∧ isBreak e.2 = false := by decide
    obtain ⟨l₁, l₂, he, -⟩ := List.lookup_eq_some_iff.1 hd
    obtain ⟨h1, h2⟩ := h (c, d) (by rw [he]; simp)
    refine ⟨[d], rfl, by simp, by simpa using h2, fun start m cs => ?_⟩
    simp only [List.singleton_append, escape, h1, List.length_singleton]
  · dsimp only
    have hv : c.toNat < Nat.pow 16 8 := c.val.toNat_lt
    split
    · rename_i hc
      have hv : c.toNat < Nat.pow 16 2 := Nat.lt_succ_of_le hc
      exact ⟨_, rfl, by simp, by simp; decide, fun _ _ _ => escape_number rfl rfl hv⟩
    · split
      · rename_i hc
        have hv : c.toNat < Nat.pow 16 4 := Nat.lt_succ_of_le hc
        exact ⟨_, rfl, by simp, by simp; decide, fun _ _ _ => escape_number rfl rfl hv⟩
      · exact ⟨_, rfl, by simp, by simp; decide, fun _ _ _ => escape_number rfl rfl hv⟩

section Double

variable {start : Mark} {rest : List Char}

/-- What is written for the rest of a text in double quotes. -/
def doubleRest (cs rest : List Char) : List Char := cs.flatMap Written.doubleChar ++ '"' :: rest

theorem doubleRest_cons (c : Char) (cs : List Char) :
    doubleRest (c :: cs) rest = Written.doubleChar c ++ doubleRest cs rest := by
  rw [doubleRest, List.flatMap_cons, List.append_assoc, doubleRest]

/-- Only a space is a gap. -/
theorem exists_doubleRest_eq_cons (rest : List Char) {cs : List Char} (h : cs.head? ≠ some ' ') :
    ∃ d ds, doubleRest cs rest = d :: ds ∧ isGap d = false := by
  cases cs with
  | nil => exact ⟨'"', rest, rfl, by decide⟩
  | cons c cs =>
    rw [doubleRest_cons, Written.doubleChar]
    split
    · obtain ⟨es, he, -⟩ := exists_escaped c
      rw [he]
      exact ⟨'\\', _, rfl, by decide⟩
    · rename_i hp
      simp only [Bool.or_eq_true, not_or, Bool.not_eq_true', Bool.not_eq_false] at hp
      exact ⟨c, _, rfl, isGap_eq_false hp.1.1.1 (fun hc => h (by rw [hc]; rfl))
        (by simpa using hp.1.1.2)⟩

/-- A character that is not a space is read in a word as itself. -/
theorem inWord_doubleChar (m : Mark) (read cs : List Char) {c : Char} (h : c ≠ ' ') :
    ∃ n, inWord .double start read m (Written.doubleChar c ++ cs) =
      inWord .double start (c :: read) (m.right n) cs := by
  rw [Written.doubleChar]
  split
  · obtain ⟨es, he, hn, hb, hc⟩ := exists_escaped c
    rw [he]
    exact ⟨_, inWord_escape hb hn (hc start m cs)⟩
  · rename_i hp
    simp only [Bool.or_eq_true, not_or, Bool.not_eq_true', Bool.not_eq_false,
      decide_eq_true_eq] at hp
    obtain ⟨⟨⟨hp, hb⟩, hq⟩, he⟩ := hp
    exact ⟨1, inWord_cons (isGap_eq_false hp h (by simpa using hb)) hq fun _ => he⟩

mutual

/-- The rest of a text is read in a word, -/
theorem inWord_doubleRest (start : Mark) (rest cs : List Char) (m : Mark)
    (read : List Char) (hm : 0 < m.column) :
    ReadsTo (inWord .double start read m (doubleRest cs rest)) m (read.reverse ++ cs) rest := by
  cases cs with
  | nil =>
    refine ⟨m.right 1, Nat.le_refl _, ?_⟩
    rw [List.append_nil]
    exact inWord_close fun h => nomatch h
  | cons c cs =>
    rw [doubleRest_cons]
    by_cases hc : c = ' '
    · subst hc
      have ih := inGap_doubleRest start rest cs [' '] (m.right 1) read (Nat.succ_pos _)
      rw [show Written.doubleChar ' ' = [' '] from rfl, List.singleton_append,
        inWord_gap rfl (by rw [Quote.sign]; decide), Gap.empty, inGap_space]
      exact ih
    · obtain ⟨n, he⟩ := inWord_doubleChar m read (doubleRest cs rest) hc
      have ih := inWord_doubleRest start rest cs (m.right n) (c :: read) (Nat.lt_add_right _ hm)
      rw [List.reverse_cons, List.append_assoc] at ih
      rw [he]
      exact ih
termination_by (cs.length, 0)

/-- and behind blanks. -/
theorem inGap_doubleRest (start : Mark) (rest cs bs : List Char) (m : Mark) (read : List Char)
    (hm : 0 < m.column) :
    ReadsTo (inGap .double start read (.blanks bs) m (doubleRest cs rest)) m
      (read.reverse ++ (bs.reverse ++ cs)) rest := by
  by_cases hs : cs.head? = some ' '
  · obtain ⟨cs, rfl⟩ : ∃ ds, cs = ' ' :: ds := by cases cs <;> simp_all
    have ih := inGap_doubleRest start rest cs (' ' :: bs) (m.right 1) read (Nat.succ_pos _)
    rw [List.reverse_cons, List.append_assoc] at ih
    rw [doubleRest_cons, show Written.doubleChar ' ' = [' '] from rfl, List.singleton_append,
      inGap_space]
    exact ih
  · have ih := inWord_doubleRest start rest cs m (bs ++ read) hm
    rw [List.reverse_append, List.append_assoc] at ih
    obtain ⟨d, ds, he, hd⟩ := exists_doubleRest_eq_cons rest hs
    rw [he] at ih ⊢
    rw [inGap_word _ hd hm]
    exact ih
termination_by (cs.length, 1)

end

/-- **A text in double quotes is read back.** -/
theorem scan_double (m : Mark) (cs : List Char) :
    ReadsTo (scan .double ⟨m, Written.double cs ++ rest⟩) m cs rest := by
  have hw := inWord_doubleRest m rest cs (m.right 1) [] (Nat.succ_pos _)
  have he : Written.double cs ++ rest = '"' :: doubleRest cs rest := by
    rw [Written.double, doubleRest, List.cons_append, List.cons_append, List.append_assoc,
      List.singleton_append]
  obtain ⟨c, ds, hd⟩ :=
    List.exists_cons_of_ne_nil (show doubleRest cs rest ≠ [] by simp [doubleRest])
  rw [scan, he, Cursor.right, List.drop_one, List.tail_cons]
  rw [hd] at hw ⊢
  rw [more_eq_inWord (Nat.succ_pos _)]
  exact hw

end Double

end Quoted
end Yaml
end Retarget
