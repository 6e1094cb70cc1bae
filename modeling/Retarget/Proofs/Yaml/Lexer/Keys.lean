/-
# Dashes and keys

The lexer goes over a dash before an item, and over a key with its colon.  A key is cut off
as a plain scalar and known as a key only at the colon; the token of the key, and that of a
mapping which opens with it, are then put before the scalar.
-/

import Retarget.Proofs.Yaml.Lexer.Clean
import Retarget.Proofs.Yaml.Scalar.Plain

namespace Retarget
namespace Yaml

open Written (spaces)

namespace Lexer

variable {m : Mark} {rest : List Char} {tokens : List Token} {indent : Int} {indents : List Int}
  {allowed : Bool}

/-! ### Entries -/

theorem token_dash (cs : List Char) :
    (clean m ('-' :: ' ' :: cs) tokens indent indents allowed).token '-' (' ' :: cs) =
      (clean m ('-' :: ' ' :: cs) tokens indent indents allowed).blockEntry := by
  have hg : isGap ' ' = true := rfl
  simp [token, clean, mark, Cursor.atMark, atGap, hg]

theorem blockEntry_clean (h : indent = m.column) (c : Char) :
    (clean m (c :: rest) tokens indent indents true).blockEntry =
      .ok (clean (m.right 1) rest (⟨.blockEntry, m, m.right 1⟩ :: tokens) indent indents true) := by
  simp [blockEntry, deepen, clean, flow, mark, h, dropCandidate, sign, push, Except.map,
    Cursor.right]

theorem blockEntry_deeper (h : indent < m.column) (c : Char) :
    (clean m (c :: rest) tokens indent indents true).blockEntry =
      .ok (clean (m.right 1) rest
        (⟨.blockEntry, m, m.right 1⟩ :: ⟨.blockSequence, m, m⟩ :: tokens) m.column
        (indent :: indents) true) := by
  simp [blockEntry, deepen, clean, flow, mark, h, dropCandidate, sign, push, Except.map,
    Cursor.right, here]

theorem atToken_dash (cs : List Char) : AtToken ('-' :: cs) := by
  rintro c ⟨⟩
  decide

/-- A dash and the space behind it. -/
theorem leads_dash {tokens' : List Token} {indent' : Int} {indents' : List Int}
    (hi : indent ≤ m.column)
    (hb : (clean m ('-' :: ' ' :: rest) tokens indent indents true).blockEntry =
      .ok (clean (m.right 1) (' ' :: rest) (⟨.blockEntry, m, m.right 1⟩ :: tokens') indent'
        indents' true)) :
    Leads (clean m ('-' :: ' ' :: rest) tokens indent indents true)
      (clean (m.right 2) rest (⟨.blockEntry, m, m.right 1⟩ :: tokens') indent' indents' true) := by
  have hs : (clean m ('-' :: ' ' :: rest) tokens indent indents true).step =
      .ok (clean (m.right 1) (' ' :: rest) (⟨.blockEntry, m, m.right 1⟩ :: tokens') indent'
        indents' true) := by
    rw [step_clean (atToken_dash _) hi, token_dash, hb]
    rfl
  exact (Leads.of_step hs rfl (by simp [clean])).trans (leads_spaces 1)

/-- A dash before an item of a sequence that is open, -/
theorem leads_entry (h : indent = m.column) :
    Leads (clean m ('-' :: ' ' :: rest) tokens indent indents true)
      (clean (m.right 2) rest (⟨.blockEntry, m, m.right 1⟩ :: tokens) indent indents true) :=
  leads_dash (Int.le_of_eq h) (blockEntry_clean h _)

/-- and before the first one of a sequence that opens with it. -/
theorem leads_first_entry (h : indent < m.column) :
    Leads (clean m ('-' :: ' ' :: rest) tokens indent indents true)
      (clean (m.right 2) rest
        (⟨.blockEntry, m, m.right 1⟩ :: ⟨.blockSequence, m, m⟩ :: tokens) m.column
        (indent :: indents) true) :=
  leads_dash (Int.le_of_lt h) (blockEntry_deeper h _)

/-! ### Keys -/

open Plain (IsKey)

theorem atToken_key {c : Char} (h : (c.isAlphanum || c = '_') = true) (cs : List Char) :
    AtToken (c :: cs) := by
  rintro d ⟨⟩
  exact ⟨Plain.isGap_of_isKeyChar h, Plain.ne_of_isKeyChar h '#' (by decide),
    Plain.ne_of_isKeyChar h '\ufeff' (by decide)⟩

theorem isLeadIndicator_of_isKeyChar {c : Char} (h : (c.isAlphanum || c = '_') = true) :
    Written.isLeadIndicator c = false := by
  have hn := Plain.ne_of_isKeyChar h
  simp only [Written.isLeadIndicator, List.contains_eq_mem, List.mem_cons, List.not_mem_nil,
    or_false, decide_eq_false_iff_not, not_or]
  and_intros <;> exact hn _ (by decide)

/-- What starts a plain scalar is neither one of the signs nor, before a gap, a dash, a
question mark or a colon. -/
theorem token_plain {x : Lexer} {c : Char} {next : List Char} (hm : x.cursor.atMark '-' = false)
    (hd : x.cursor.atMark '.' = false) (hf : x.flow = false)
    (hl : Written.isLeadIndicator c = false)
    (hg : isGap c = false) (hs : ((c = '?' || c = ':' || c = '-') && atGap next) = false) :
    x.token c next = x.plain := by
  simp only [Written.isLeadIndicator, List.contains_eq_mem, List.mem_cons, List.not_mem_nil,
    or_false, decide_eq_false_iff_not, not_or] at hl
  obtain ⟨h1, h2, h3, h4, h5, h6, h7, h8, h9, h10, h11, h12, h13, h14, h15, h16⟩ := hl
  have hgap {d : Char} (hd : d = '?' ∨ d = ':' ∨ d = '-') (hc : c = d) : atGap next = false := by
    subst hc
    rcases hd with rfl | rfl | rfl <;> simpa using hs
  have hp : startsPlain false c next = true := by
    by_cases hc : c = '?' ∨ c = ':' ∨ c = '-'
    · have ha := hgap hc rfl
      obtain ⟨d, hn, hd⟩ : ∃ d, next.head? = some d ∧ isGap d = false := by
        cases next with
        | nil => simp [atGap] at ha
        | cons d ds => exact ⟨d, rfl, by simpa [atGap] using ha⟩
      have hb : isBlank d = false := (Bool.or_eq_false_iff.1 hd).1
      rcases hc with rfl | rfl | rfl <;> simp [startsPlain, ha, hn, hb]
    · simp only [not_or] at hc
      simp [startsPlain, isIndicator, *]
  have hdash : (c = '-' && atGap next) = false := by simpa using hgap (.inr (.inr rfl))
  have hmark : (c = '?' && atGap next) = false := by simpa using hgap (.inl rfl)
  have hcolon : (c = ':' && atGap next) = false := by simpa using hgap (.inr (.inl rfl))
  simp only [token, *, decide_false, Bool.and_false, Bool.false_and, Bool.false_eq_true, if_false,
    Bool.false_or, if_true, Bool.not_false]

/-- A lexer behind a key, at its colon. -/
def atColon (m : Mark) (key rest : List Char) (tokens : List Token) (indent : Int)
    (indents : List Int) : Lexer :=
  ⟨⟨m.right key.length, ':' :: rest⟩,
    ⟨.scalar (String.ofList key) .plain, m, m.right key.length⟩ :: tokens,
    tokens.length + 1, indent, indents, some ⟨tokens.length, m, indent == m.column⟩, [], false⟩

theorem dropStale_atColon {key : List Char} (h : key.length ≤ 1024) :
    (atColon m key rest tokens indent indents).dropStale =
      .ok (atColon m key rest tokens indent indents) := by
  have hs : isStale (m.right key.length) ⟨tokens.length, m, indent == m.column⟩ = false :=
    isStale_right h
  exact dropStale_of_near (by simpa [atColon, mark] using hs)

theorem plain_key {key : List Char} (h : IsKey key) (hr : atGap rest = true) :
    (clean m (key ++ ':' :: rest) tokens indent indents true).plain =
      .ok (atColon m key rest tokens indent indents) := by
  have hs : Plain.scan false (indent + 1).toNat ⟨m, key ++ ':' :: rest⟩ =
      .ok ⟨key, false, ⟨m.right key.length, ':' :: rest⟩⟩ := Plain.scan_key h hr
  rw [plain, addCandidate_clean]
  change Plain.scan false (indent + 1).toNat ⟨m, key ++ ':' :: rest⟩ >>= _ = _
  rw [hs]
  rfl

/-- A key is cut off as a scalar, -/
theorem leads_key {key : List Char} (h : IsKey key) (hr : atGap rest = true)
    (hi : indent ≤ m.column) :
    Leads (clean m (key ++ ':' :: rest) tokens indent indents true)
      (atColon m key rest tokens indent indents) := by
  obtain ⟨c, cs, he⟩ := List.exists_cons_of_ne_nil h.nonempty
  have hk : (c.isAlphanum || c = '_') = true := h.plain c (by rw [he]; exact List.mem_cons_self ..)
  have hn := Plain.ne_of_isKeyChar hk
  let x := clean m (c :: (cs ++ ':' :: rest)) tokens indent indents true
  have ht : x.token c (cs ++ ':' :: rest) = x.plain := by
    refine token_plain ?_ ?_ rfl (isLeadIndicator_of_isKeyChar hk) (Plain.isGap_of_isKeyChar hk) ?_
    · simp [x, Cursor.atMark, clean, hn '-' (by decide)]
    · simp [x, Cursor.atMark, clean, hn '.' (by decide)]
    · simp [hn '?' (by decide), hn ':' (by decide), hn '-' (by decide)]
  have hs : (clean m (key ++ ':' :: rest) tokens indent indents true).step =
      .ok (atColon m key rest tokens indent indents) := by
    have hp : (clean m (key ++ ':' :: rest) tokens indent indents true).plain =
        .ok (atColon m key rest tokens indent indents) := plain_key h hr
    rw [he, List.cons_append] at hp ⊢
    rw [step_clean (atToken_key hk _) hi, ht, hp, ← he]
    exact dropStale_atColon h.short
  exact .of_step hs rfl (by simp [clean, atColon, h.nonempty, List.length_pos_iff])

theorem step_atColon {key : List Char} (h : key.length ≤ 1024) (hr : atGap rest = true)
    (hi : indent ≤ m.column) :
    (atColon m key rest tokens indent indents).step =
      (atColon m key rest tokens indent indents).value >>= dropStale := by
  have ha : (atColon m key rest tokens indent indents).advance =
      atColon m key rest tokens indent indents := by
    simp only [advance, atColon, flow, mark, List.isEmpty_nil, Bool.not_true]
    rw [toToken_atToken]
    rintro c ⟨⟩
    decide
  have hi' : ¬((m.right key.length).column : Int) < indent := by
    rw [Mark.right_column]
    omega
  have hs : (atColon m key rest tokens indent indents).settled =
      .ok (atColon m key rest tokens indent indents) := by
    rw [settled, ha, dropStale_atColon h]
    simp only [Except.map, closeTo, atColon, flow, List.isEmpty_nil, Bool.not_true,
      Bool.false_eq_true, if_false, mark]
    cases indents with
    | nil => rfl
    | cons i is => rw [close, if_neg hi']
  have ht : (atColon m key rest tokens indent indents).token ':' rest =
      (atColon m key rest tokens indent indents).value := by
    simp [token, atColon, flow, Cursor.atMark, hr]
  rw [step_eq, hs]
  exact congrArg (· >>= dropStale) ht

/-- and known as one at the colon. -/
theorem leads_colon {key : List Char} {tokens' : List Token} {indent' : Int} {indents' : List Int}
    (h : key.length ≤ 1024) (hr : atGap rest = true) (hi : indent ≤ m.column)
    (hv : (atColon m key rest tokens indent indents).value =
      .ok (clean (m.right (key.length + 1)) rest
        (⟨.value, m.right key.length, m.right (key.length + 1)⟩ :: tokens') indent' indents' false)) :
    Leads (atColon m key rest tokens indent indents)
      (clean (m.right (key.length + 1)) rest
        (⟨.value, m.right key.length, m.right (key.length + 1)⟩ :: tokens') indent' indents'
        false) := by
  refine .of_step ?_ rfl (by simp [clean, atColon])
  rw [step_atColon h hr hi, hv]
  rfl

/-- It is the key of a mapping that is open, -/
theorem leads_value {key : List Char} (h : key.length ≤ 1024) (hr : atGap rest = true)
    (hi : indent = m.column) :
    Leads (atColon m key rest tokens indent indents)
      (clean (m.right (key.length + 1)) rest
        (⟨.value, m.right key.length, m.right (key.length + 1)⟩ ::
          ⟨.scalar (String.ofList key) .plain, m, m.right key.length⟩ :: ⟨.key, m, m⟩ :: tokens)
        indent indents false) := by
  refine leads_colon h hr (Int.le_of_eq hi) ?_
  simp [value, atColon, clean, insert, deepen, sign, push, flow, mark, hi, Cursor.right]

/-- or the first key of a mapping that opens with it. -/
theorem leads_first_value {key : List Char} (h : key.length ≤ 1024) (hr : atGap rest = true)
    (hi : indent < m.column) :
    Leads (atColon m key rest tokens indent indents)
      (clean (m.right (key.length + 1)) rest
        (⟨.value, m.right key.length, m.right (key.length + 1)⟩ ::
          ⟨.scalar (String.ofList key) .plain, m, m.right key.length⟩ :: ⟨.key, m, m⟩ ::
            ⟨.blockMapping, m, m⟩ :: tokens)
        m.column (indent :: indents) false) := by
  refine leads_colon h hr (Int.le_of_lt hi) ?_
  have hn : tokens.length + 1 + 1 - tokens.length = 2 := by omega
  simp [value, atColon, clean, insert, deepen, sign, push, flow, mark, hi, hn, Cursor.right]

end Lexer
end Yaml
end Retarget
