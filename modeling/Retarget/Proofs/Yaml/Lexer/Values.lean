/-
# Values

The lexer goes over a scalar, in whatever style it is written, and over a pair of brackets,
up to the next line.  Each of them may be the start of a key where it stands, until the line
ends.
-/

import Retarget.Proofs.Yaml.Lexer.Keys
import Retarget.Proofs.Yaml.Scalar.Block
import Retarget.Proofs.Yaml.Scalar.Quoted

namespace Retarget
namespace Yaml

open Written (spaces)

namespace Lexer

variable {m : Mark} {rest : List Char} {tokens : List Token} {indent : Int} {indents : List Int}
  {allowed : Bool}

/-- A candidate that starts within a line, and not where only a key can, may be given up. -/
theorem givenUp_ite {n : Nat} (hi : indent < m.column) :
    GivenUp m.line (if allowed then some ⟨n, m, indent == m.column⟩ else none) := by
  intro k hk
  cases allowed with
  | false => simp at hk
  | true =>
    obtain rfl := Option.some.inj hk
    exact ⟨by simp; omega, Nat.le_refl _⟩

theorem isDone_cons {x : Lexer} {s : Sign} {m' : Mark} (ht : x.tokens = ⟨s, m, m'⟩ :: tokens)
    (hs : s ≠ .streamEnd) : x.isDone = false := by
  simp [isDone, ht, hs]

/-- A word that is followed by a line feed. -/
theorem leads_word {c : Char} {cs : List Char} {column : Nat} {m' : Mark} {s : Sign}
    (hc : AtToken (c :: cs)) (hi : indent < m.column) (ht : AtToken rest)
    (hw : (clean m (c :: cs) tokens indent indents allowed).token c cs =
      (clean m (c :: cs) tokens indent indents allowed).word
        (.ok (s, ⟨m', '\n' :: (spaces column ++ rest)⟩)))
    (hl : m.line ≤ m'.line) (hs : s ≠ .streamEnd) (hr : column + rest.length < cs.length) :
    Leads (clean m (c :: cs) tokens indent indents allowed)
      (clean (m'.down.right column) rest (⟨s, m, m'⟩ :: tokens) indent indents true) := by
  let y : Lexer := ⟨⟨m', '\n' :: (spaces column ++ rest)⟩,
    ⟨s, m, m'⟩ :: tokens, tokens.length + 1, indent, indents,
    if allowed then some ⟨tokens.length, m, indent == m.column⟩ else none, [], false⟩
  obtain ⟨k, hk, hy⟩ : ∃ k, GivenUp m'.line k ∧ y.dropStale = .ok { y with candidate := k } :=
    exists_dropStale ((givenUp_ite hi).mono hl) rfl
  have hstep : (clean m (c :: cs) tokens indent indents allowed).step =
      .ok { y with candidate := k } := by
    rw [step_clean hc (Int.le_of_lt hi), hw, word, addCandidate_clean]
    exact hy
  have hf : Leads { y with candidate := k } _ := leads_feed (n := column) rfl ht rfl rfl hk
  exact (Leads.of_step hstep (isDone_cons rfl hs) (by simp [y, clean, spaces]; omega)).trans hf

theorem atGap_of_atSeparator {cs : List Char} (h : Written.atSeparator cs = false)
    (rest : List Char) :
    atGap (cs ++ rest) = false := by
  cases cs with
  | nil => exact absurd h (by decide)
  | cons c cs => exact (Bool.or_eq_false_iff.1 h).1

/-- A text without quotes. -/
theorem leads_plain {column : Nat} {s : String} (h : Written.plainAllowed s.toList = true)
    (hn : s.toList ≠ []) (hi : indent < m.column) (hc : column ≤ indent) (ht : AtToken rest) :
    Leads (clean m (s.toList ++ '\n' :: (spaces column ++ rest)) tokens indent indents allowed)
      (clean (m.down.right column) rest (⟨.scalar s .plain, m, m.down.right column⟩ :: tokens)
        indent indents true) := by
  obtain ⟨cs, rfl⟩ : ∃ cs, s = String.ofList cs := ⟨_, String.ofList_toList.symm⟩
  rw [String.toList_ofList] at h hn ⊢
  have hs : Plain.scan false (indent + 1).toNat ⟨m, cs ++ '\n' :: (spaces column ++ rest)⟩ =
      .ok ⟨cs, true, ⟨m.down.right column, rest⟩⟩ :=
    Plain.scan_plain ht.notGap h hn (by omega) (by omega)
  have hm : (m.column == 0) = false := by simp; omega
  obtain ⟨c, cs, rfl⟩ := List.exists_cons_of_ne_nil hn
  have hst := Plain.starts_of_plainAllowed h
  obtain ⟨hp, hb, -, -, -⟩ := hst.goesOn.cons
  have hg := isGap_eq_false hp hst.noSpace hb
  rw [List.cons_append] at hs ⊢
  let x := clean m (c :: (cs ++ '\n' :: (spaces column ++ rest))) tokens indent indents allowed
  have htok : x.token c (cs ++ '\n' :: (spaces column ++ rest)) = x.plain := by
    refine token_plain ?_ ?_ rfl hst.noLead hg ?_
    · simp [x, Cursor.atMark, clean, hm]
    · simp [x, Cursor.atMark, clean, hm]
    · exact Bool.and_eq_false_imp.2 fun hc =>
        atGap_of_atSeparator ((Bool.and_eq_false_imp.1 hst.noSign) hc) _
  let y : Lexer := ⟨⟨m.down.right column, rest⟩,
    ⟨.scalar (String.ofList (c :: cs)) .plain, m, m.down.right column⟩ :: tokens,
    tokens.length + 1, indent, indents,
    if allowed then some ⟨tokens.length, m, indent == m.column⟩ else none, [], true⟩
  have hy : y.dropStale = .ok { y with candidate := none } :=
    dropStale_below (givenUp_ite hi) rfl (Nat.lt_succ_self m.line)
  have hstep : x.step = .ok { y with candidate := none } := by
    have ha : AtToken (c :: (cs ++ '\n' :: (spaces column ++ rest))) :=
      atToken_cons hg (by rintro rfl; exact absurd hst.noLead (by decide))
        (by rintro rfl; exact absurd hp (by decide)) _
    rw [step_clean ha (Int.le_of_lt hi), htok, plain, addCandidate_clean]
    change (Plain.scan false (indent + 1).toNat x.cursor >>= _) >>= _ = _
    rw [show Plain.scan false (indent + 1).toNat x.cursor = _ from hs]
    exact hy
  exact .of_step hstep rfl (by simp [clean, spaces]; omega)

/-- The style of a text in quotes. -/
def quotedStyle : Quoted.Quote → Style
  | .single => .singleQuoted
  | .double => .doubleQuoted

theorem token_quote (quote : Quoted.Quote) (cs : List Char) :
    (clean m (quote.sign :: cs) tokens indent indents allowed).token quote.sign cs =
      (clean m (quote.sign :: cs) tokens indent indents allowed).quoted quote
        (quotedStyle quote) := by
  cases quote <;> simp [token, Quoted.Quote.sign, quotedStyle, clean, Cursor.atMark]

/-- A text in quotes. -/
theorem leads_quoted {quote : Quoted.Quote} {column : Nat} {s : String} {xs : List Char}
    (hi : indent < m.column) (ht : AtToken rest)
    (hr : Quoted.ReadsTo
      (Quoted.scan quote ⟨m, quote.sign :: xs ++ '\n' :: (spaces column ++ rest)⟩) m
      s.toList ('\n' :: (spaces column ++ rest))) :
    ∃ line stop, Leads
      (clean m (quote.sign :: xs ++ '\n' :: (spaces column ++ rest)) tokens indent indents allowed)
      (clean ⟨line, column⟩ rest (⟨.scalar s (quotedStyle quote), m, stop⟩ :: tokens)
        indent indents true) := by
  obtain ⟨m', hl, hs⟩ := hr
  have ha : AtToken (quote.sign :: (xs ++ '\n' :: (spaces column ++ rest))) := by
    cases quote <;> exact atToken_cons (by decide) (by decide) (by decide) _
  rw [List.cons_append] at hs ⊢
  have hd : m'.down.right column = ⟨m'.line + 1, column⟩ := by simp [Mark.down, Mark.right]
  refine ⟨m'.line + 1, m', ?_⟩
  rw [← hd]
  refine leads_word ha hi ht ?_ hl (by simp) (by simp [spaces]; omega)
  rw [token_quote, quoted]
  change word _ (Except.map _
    (Quoted.scan quote ⟨m, quote.sign :: (xs ++ '\n' :: (spaces column ++ rest))⟩)) = _
  rw [hs, ← String.ofList_toList (s := s), String.toList_ofList]
  rfl

/-- A text in lines of its own. -/
theorem leads_literal {column parent : Nat} {s : String}
    (h : Written.literalAllowed s.toList = true)
    (hn : s.toList ≠ []) (hi : parent < m.column) (hc : column ≤ parent) (ht : AtToken rest) :
    ∃ line stop, Leads
      (clean m (ended (Written.literal (parent + 2) s.toList) ++ (spaces column ++ rest))
        tokens parent indents allowed)
      (clean ⟨line, column⟩ rest (⟨.scalar s .literal, m, stop⟩ :: tokens)
        parent indents true) := by
  obtain ⟨cs, rfl⟩ : ∃ cs, s = String.ofList cs := ⟨_, String.ofList_toList.symm⟩
  rw [String.toList_ofList] at h hn ⊢
  obtain ⟨line, -, hs⟩ := Block.scan_literal (m := m) hc ht.notGap h hn
  refine ⟨line, ⟨line, column⟩, ?_⟩
  obtain ⟨xs, hx⟩ : ∃ xs, ended (Written.literal (parent + 2) cs) = '|' :: xs := by
    rw [ended]
    split <;> exact ⟨_, rfl⟩
  rw [hx, List.cons_append] at hs ⊢
  let x := clean m ('|' :: (xs ++ (spaces column ++ rest))) tokens parent indents allowed
  have htok : x.token '|' (xs ++ (spaces column ++ rest)) = x.blockScalar true := by
    simp [x, token, clean, Cursor.atMark, flow]
  have hstep : x.step = .ok (clean ⟨line, column⟩ rest
      (⟨.scalar (String.ofList cs) .literal, m, ⟨line, column⟩⟩ :: tokens) parent indents true) := by
    rw [step_clean (atToken_cons (by decide) (by decide) (by decide) _) (by omega), htok,
      blockScalar]
    change (Block.scan true parent x.cursor >>= _) >>= _ = _
    rw [show Block.scan true parent x.cursor = _ from hs]
    rfl
  exact .of_step hstep rfl (by simp [clean, spaces]; omega)

/-! ### Texts -/

section Scalars

variable {column parent : Nat} {s : String}

theorem leads_scalar_plain (hs : Written.style s = .plain) (hi : parent < m.column)
    (hc : column ≤ parent) (ht : AtToken rest) :
    ∃ line stop, Leads
      (clean m (ended (Written.scalar (parent + 2) s) ++ (spaces column ++ rest))
        tokens parent indents allowed)
      (clean ⟨line, column⟩ rest (⟨.scalar s .plain, m, stop⟩ :: tokens) parent indents true) := by
  obtain ⟨htext, hp⟩ := Written.style_eq_plain hs
  have he : Written.scalar (parent + 2) s = s.toList := by rw [Written.scalar, hs]
  have hd : m.down.right column = ⟨m.line + 1, column⟩ := by simp [Mark.down, Mark.right]
  refine ⟨m.line + 1, m.down.right column, ?_⟩
  rw [he, ended_eq (Written.noBreak_of_plainAllowed hp), List.append_assoc, ← hd]
  exact leads_plain hp (Resolve.ne_nil_of_isText htext) (Int.ofNat_lt.2 hi) (Int.ofNat_le.2 hc) ht

theorem leads_scalar_quoted (quote : Quoted.Quote) {xs : List Char}
    (hi : parent < m.column) (ht : AtToken rest)
    (hx : Written.scalar (parent + 2) s = quote.sign :: xs)
    (hl : (quote.sign :: xs).getLast? = some quote.sign)
    (hr : Quoted.ReadsTo
      (Quoted.scan quote ⟨m, quote.sign :: xs ++ '\n' :: (spaces column ++ rest)⟩) m
      s.toList ('\n' :: (spaces column ++ rest))) :
    ∃ line stop, Leads
      (clean m (ended (Written.scalar (parent + 2) s) ++ (spaces column ++ rest))
        tokens parent indents allowed)
      (clean ⟨line, column⟩ rest (⟨.scalar s (quotedStyle quote), m, stop⟩ :: tokens)
        parent indents true) := by
  have hb : ∀ c ∈ (quote.sign :: xs).getLast?, isBreak c = false := by
    rw [hl]
    rintro c ⟨⟩
    cases quote <;> decide
  rw [hx, ended_eq hb, List.append_assoc]
  exact leads_quoted (Int.ofNat_lt.2 hi) ht hr

theorem leads_scalar_single (hs : Written.style s = .singleQuoted)
    (hi : parent < m.column) (ht : AtToken rest) :
    ∃ line stop, Leads
      (clean m (ended (Written.scalar (parent + 2) s) ++ (spaces column ++ rest))
        tokens parent indents allowed)
      (clean ⟨line, column⟩ rest (⟨.scalar s .singleQuoted, m, stop⟩ :: tokens)
        parent indents true) := by
  obtain ⟨hn, h⟩ := Written.style_eq_single hs
  have he : Written.scalar (parent + 2) s = Written.single (parent + 2) s.toList := by
    rw [Written.scalar, hs]
  have hr : Quoted.ReadsTo (Quoted.scan .single ⟨m, Written.single (parent + 2) s.toList ++
      '\n' :: (spaces column ++ rest)⟩) m s.toList ('\n' :: (spaces column ++ rest)) :=
    Quoted.scan_single m (by simp) (Nat.succ_pos (parent + 1)) h (by simpa using hn)
  have hl : (Written.single (parent + 2) s.toList).getLast? = some '\'' := by
    rw [Written.single, List.getLast?_append]
    rfl
  obtain ⟨xs, hx⟩ : ∃ xs, Written.single (parent + 2) s.toList = '\'' :: xs := ⟨_, rfl⟩
  rw [hx] at he hl hr
  exact leads_scalar_quoted .single hi ht he hl hr

theorem leads_scalar_double (hs : Written.style s = .doubleQuoted)
    (hi : parent < m.column) (ht : AtToken rest) :
    ∃ line stop, Leads
      (clean m (ended (Written.scalar (parent + 2) s) ++ (spaces column ++ rest))
        tokens parent indents allowed)
      (clean ⟨line, column⟩ rest (⟨.scalar s .doubleQuoted, m, stop⟩ :: tokens)
        parent indents true) := by
  have he : Written.scalar (parent + 2) s = Written.double s.toList := by rw [Written.scalar, hs]
  have hr : Quoted.ReadsTo (Quoted.scan .double ⟨m, Written.double s.toList ++
      '\n' :: (spaces column ++ rest)⟩) m s.toList ('\n' :: (spaces column ++ rest)) :=
    Quoted.scan_double m s.toList
  have hl : (Written.double s.toList).getLast? = some '"' := by
    rw [Written.double, List.getLast?_append]
    rfl
  obtain ⟨xs, hx⟩ : ∃ xs, Written.double s.toList = '"' :: xs := ⟨_, rfl⟩
  rw [hx] at he hl hr
  exact leads_scalar_quoted .double hi ht he hl hr

theorem leads_scalar_literal (hs : Written.style s = .literal) (hi : parent < m.column)
    (hc : column ≤ parent) (ht : AtToken rest) :
    ∃ line stop, Leads
      (clean m (ended (Written.scalar (parent + 2) s) ++ (spaces column ++ rest))
        tokens parent indents allowed)
      (clean ⟨line, column⟩ rest (⟨.scalar s .literal, m, stop⟩ :: tokens)
        parent indents true) := by
  obtain ⟨hn, h⟩ := Written.style_eq_literal hs
  have he : Written.scalar (parent + 2) s = Written.literal (parent + 2) s.toList := by
    rw [Written.scalar, hs]
  have hs : s.toList ≠ [] := by
    intro h
    rw [h] at hn
    exact absurd hn (by decide)
  rw [he]
  exact leads_literal h hs hi hc ht

/-- **A text is cut off as what it was**, in whatever style it is written, up to the next
line. -/
theorem leads_scalar (s : String) (hi : parent < m.column) (hc : column ≤ parent)
    (ht : AtToken rest) :
    ∃ line stop, Leads
      (clean m (ended (Written.scalar (parent + 2) s) ++ (spaces column ++ rest))
        tokens parent indents allowed)
      (clean ⟨line, column⟩ rest (⟨.scalar s (Written.style s), m, stop⟩ :: tokens)
        parent indents true) := by
  cases hs : Written.style s with
  | plain => exact leads_scalar_plain hs hi hc ht
  | singleQuoted => exact leads_scalar_single hs hi ht
  | doubleQuoted => exact leads_scalar_double hs hi ht
  | literal => exact leads_scalar_literal hs hi hc ht
  | folded => exact absurd hs Written.style_ne_folded

end Scalars

/-! ### Brackets -/

/-- A pair of brackets with nothing between them. -/
inductive Brackets : Char → Sign → Char → Sign → Prop where
  | list : Brackets '[' .flowSequence ']' .flowSequenceEnd
  | record : Brackets '\x7b' .flowMapping '\x7d' .flowMappingEnd

section Brackets

variable {column : Nat} {o c : Char} {so sc : Sign} (h : Brackets o so c sc)
include h

theorem step_open (hi : indent < m.column) :
    (clean m (o :: c :: rest) tokens indent indents allowed).step =
      .ok ⟨⟨m.right 1, c :: rest⟩, ⟨so, m, m.right 1⟩ :: tokens,
        tokens.length + 1, indent, indents, none,
        [if allowed then some ⟨tokens.length, m, indent == m.column⟩ else none], true⟩ := by
  have ha : AtToken (o :: c :: rest) := by
    cases h <;> exact atToken_cons (by decide) (by decide) (by decide) _
  have ht : (clean m (o :: c :: rest) tokens indent indents allowed).token o (c :: rest) =
      (clean m (o :: c :: rest) tokens indent indents allowed).openBracket so := by
    cases h <;> simp [token, clean, Cursor.atMark]
  rw [step_clean ha (Int.le_of_lt hi), ht, openBracket, addCandidate_clean]
  refine dropStale_of_near ?_
  cases allowed <;> simp [sign, push, mark, clean, Cursor.right, isStale]

theorem step_shut {k : Option Candidate} (hk : ∀ j ∈ k, isStale (m.right 2) j = false) :
    (Lexer.mk ⟨m.right 1, c :: rest⟩ tokens tokens.length indent indents none [k] true).step =
      .ok ⟨⟨m.right 2, rest⟩, ⟨sc, m.right 1, m.right 2⟩ :: tokens, tokens.length + 1, indent,
        indents, k, [], false⟩ := by
  let x : Lexer := ⟨⟨m.right 1, c :: rest⟩, tokens, tokens.length, indent, indents, none, [k], true⟩
  have ha : x.advance = x := by cases h <;> rfl
  have hd : x.dropStale = .ok x := by
    refine dropStale_of_near ?_
    simp only [x, List.mem_cons, List.not_mem_nil, or_false, forall_eq_or_imp, forall_eq,
      Option.mem_def]
    refine ⟨fun _ h => by simp at h, fun j hj => ?_⟩
    obtain ⟨hl, hc⟩ := Bool.or_eq_false_iff.1 (hk j hj)
    have hc := of_decide_eq_false hc
    rw [Mark.right_column] at hc
    exact Bool.or_eq_false_iff.2 ⟨hl, decide_eq_false (by simp [mark]; omega)⟩
  have hs : x.settled = .ok x := by
    rw [settled, ha, hd]
    rfl
  have ht : x.token c rest = x.closeBracket sc := by
    cases h <;> simp [token, x, Cursor.atMark]
  have hstep : x.step = x.closeBracket sc >>= dropStale := by
    rw [step_eq, hs, ← ht]
    rfl
  let y : Lexer :=
    ⟨⟨m.right 2, rest⟩, ⟨sc, m.right 1, m.right 2⟩ :: tokens, tokens.length + 1,
      indent, indents, k, [], false⟩
  rw [hstep]
  change y.dropStale = .ok y
  refine dropStale_of_near ?_
  simpa [y, mark] using hk

end Brackets

/-- An empty list or record. -/
theorem leads_brackets {column : Nat} {o c : Char} {so sc : Sign} (h : Brackets o so c sc)
    (hi : indent < m.column) (ht : AtToken rest) :
    Leads (clean m (o :: c :: '\n' :: (spaces column ++ rest)) tokens indent indents allowed)
      (clean (m.down.right column) rest (⟨sc, m.right 1, m.right 2⟩ :: ⟨so, m, m.right 1⟩ :: tokens)
        indent indents true) := by
  have hk : ∀ j ∈ (if allowed then some (Candidate.mk tokens.length m (indent == m.column)) else none),
      isStale (m.right 2) j = false := by
    intro j hj
    cases allowed with
    | false => simp at hj
    | true =>
      obtain rfl := Option.some.inj hj
      exact isStale_right (by decide)
  refine (Leads.of_step (step_open h hi) (isDone_cons rfl ?_) (by simp [clean])).trans ?_
  · cases h <;> simp
  refine (Leads.of_step (step_shut h hk) (isDone_cons rfl ?_) (by simp)).trans ?_
  · cases h <;> simp
  exact leads_feed (n := column) rfl ht rfl rfl (givenUp_ite hi)

end Lexer
end Yaml
end Retarget
