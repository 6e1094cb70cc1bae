/-
# Steps of the lexer between tokens

A text that was written is cut without brackets around it and without a key in doubt, but
for a moment: between two tokens the lexer is *clean* (`Lexer.clean`).  The lemmas on it lead
from one clean lexer to the next (`Leads`); those here lead over blanks and breaks, out of
the collections that end before the next line, and to the end of the text.  `Leads` counts
the steps, so that the fuel lasts.

A *candidate* is a token that may turn out to be a key.  It is given up on a later line, and
where it is too far away.
-/

import Retarget.Proofs.Yaml.Scalar.Gap

namespace Retarget
namespace Yaml

open Written (spaces)

namespace Lexer

/-- Where cutting the text from `y` on succeeds, cutting it from `x` on comes to the same, with
no more steps between the two than characters. -/
def Leads (x y : Lexer) : Prop :=
  ∃ k, k + y.cursor.rest.length ≤ x.cursor.rest.length ∧
    ∀ n tokens, y.run (n + 1) = ⟨tokens, none⟩ → x.run (n + k + 1) = ⟨tokens, none⟩

namespace Leads

variable {x y z : Lexer}

theorem trans (h : Leads x y) (h' : Leads y z) : Leads x z := by
  obtain ⟨k, hk, h⟩ := h
  obtain ⟨k', hk', h'⟩ := h'
  refine ⟨k' + k, by omega, fun n tokens hn => ?_⟩
  rw [← Nat.add_assoc]
  exact h _ _ (h' _ _ hn)

theorem of_step (h : x.step = .ok y) (hd : y.isDone = false)
    (hl : y.cursor.rest.length < x.cursor.rest.length) : Leads x y := by
  refine ⟨1, by omega, fun n tokens hn => ?_⟩
  rw [run, h]
  simp only [hd, Bool.false_eq_true, if_false]
  exact hn

theorem of_step_eq (h : x.step = y.step) (hl : y.cursor.rest.length ≤ x.cursor.rest.length) :
    Leads x y := by
  refine ⟨0, by omega, fun n tokens hn => ?_⟩
  rw [run] at hn
  rw [run, h]
  cases hs : y.step with
  | error e => rw [hs] at hn; simp at hn
  | ok z => rw [hs] at hn; exact hn

end Leads

/-- A lexer between two tokens, outside brackets and without a candidate. -/
def clean (m : Mark) (rest : List Char) (tokens : List Token) (indent : Int) (indents : List Int)
    (keyAllowed : Bool) : Lexer :=
  ⟨⟨m, rest⟩, tokens, tokens.length, indent, indents, none, [], keyAllowed⟩

/-- The text is at a token or at its end. -/
def AtToken (rest : List Char) : Prop := ∀ c ∈ rest.head?, isGap c = false ∧ c ≠ '#' ∧ c ≠ '\ufeff'

/-- The lexer at the next token, with the collections closed that do not reach it. -/
def settled (x : Lexer) : Except Flaw Lexer :=
  x.advance.dropStale.map fun x => x.closeTo x.mark.column

theorem step_eq (x : Lexer) : x.step = x.settled >>= fun x => (match x.cursor.rest with
    | [] => x.endStream
    | c :: next => x.token c next) >>= dropStale := by
  rw [step, settled]
  cases x.advance.dropStale with
  | error e => rfl
  | ok x =>
    change (match (x.closeTo x.mark.column).cursor.rest with
      | [] => (x.closeTo x.mark.column).endStream >>= dropStale
      | c :: next => (x.closeTo x.mark.column).token c next >>= dropStale) =
        (match (x.closeTo x.mark.column).cursor.rest with
          | [] => (x.closeTo x.mark.column).endStream
          | c :: next => (x.closeTo x.mark.column).token c next) >>= dropStale
    cases (x.closeTo x.mark.column).cursor.rest <;> rfl

theorem step_eq_of_settled {x y : Lexer} (h : x.settled = y.settled) : x.step = y.step := by
  rw [step_eq, step_eq, h]

variable {m : Mark} {rest : List Char} {tokens : List Token} {indent : Int} {indents : List Int}
  {allowed : Bool}

theorem atToken_cons {c : Char} (hg : isGap c = false) (hs : c ≠ '#') (hb : c ≠ '\ufeff')
    (cs : List Char) : AtToken (c :: cs) := by
  rintro d ⟨⟩
  exact ⟨hg, hs, hb⟩

theorem AtToken.notGap (h : AtToken rest) : ∀ c ∈ rest.head?, isGap c = false :=
  fun c hc => (h c hc).1

theorem isStale_right {n i : Nat} {needed : Bool} (h : i ≤ 1024) :
    isStale (m.right i) ⟨n, m, needed⟩ = false := by
  simp [isStale, h]

theorem fresh_of_near {k : Option Candidate} (h : ∀ j ∈ k, isStale m j = false) :
    fresh m k = .ok k := by
  cases k with
  | none => rfl
  | some j => exact if_pos (by rw [h j rfl]; rfl)

/-- Where no candidate is too far away, none is given up. -/
theorem dropStale_of_near {x : Lexer}
    (h : ∀ k ∈ x.candidate :: x.outer, ∀ j ∈ k, isStale x.mark j = false) :
    x.dropStale = .ok x := by
  obtain ⟨hc, ho⟩ := List.forall_mem_cons.1 h
  have hm : ∀ ks : List (Option Candidate), (∀ k ∈ ks, ∀ j ∈ k, isStale x.mark j = false) →
      ks.mapM (fresh x.mark) = .ok ks := by
    intro ks hk
    induction ks with
    | nil => rfl
    | cons k ks ih =>
      obtain ⟨hk, hks⟩ := List.forall_mem_cons.1 hk
      rw [List.mapM_cons, fresh_of_near hk, ih hks]
      rfl
  rw [dropStale, hm _ (by simpa using ho), fresh_of_near hc]
  change Except.ok { x with outer := x.outer.reverse.reverse } = .ok x
  rw [List.reverse_reverse]

theorem dropStale_of_none {x : Lexer} (hc : x.candidate = none) (ho : x.outer = []) :
    x.dropStale = .ok x :=
  dropStale_of_near (by simp [hc, ho])

theorem fresh_of_stale {k : Candidate} (hs : isStale m k = true) (hn : k.needed = false) :
    fresh m (some k) = .ok none := by
  rw [fresh, hs, hn]
  rfl

theorem dropStale_of_stale {x : Lexer} {k : Candidate} (hc : x.candidate = some k)
    (ho : x.outer = []) (hs : isStale x.mark k = true) (hn : k.needed = false) :
    x.dropStale = .ok { x with candidate := none } := by
  cases x
  subst hc ho
  simp only [dropStale, fresh_of_stale hs hn]
  rfl

/-- A candidate that may be given up, on a line up to this one. -/
def GivenUp (line : Nat) (candidate : Option Candidate) : Prop :=
  ∀ k ∈ candidate, k.needed = false ∧ k.mark.line ≤ line

theorem GivenUp.mono {line line' : Nat} {k : Option Candidate} (h : GivenUp line k)
    (hl : line ≤ line') : GivenUp line' k :=
  fun j hj => ⟨(h j hj).1, Nat.le_trans (h j hj).2 hl⟩

/-- What may be given up is given up or is not. -/
theorem exists_dropStale {x : Lexer} {line : Nat} (h : GivenUp line x.candidate)
    (ho : x.outer = []) :
    ∃ k, GivenUp line k ∧ x.dropStale = .ok { x with candidate := k } := by
  cases hc : x.candidate with
  | none => exact ⟨none, fun _ h => absurd h (by simp), by rw [dropStale_of_none hc ho, ← hc]⟩
  | some k =>
    cases hs : isStale x.mark k with
    | true => exact ⟨none, fun _ h => absurd h (by simp), dropStale_of_stale hc ho hs (h k hc).1⟩
    | false => exact ⟨some k, hc ▸ h, by rw [dropStale_of_near (by simp [hc, ho, hs]), ← hc]⟩

/-- On a later line it is. -/
theorem dropStale_below {x : Lexer} {line : Nat} (h : GivenUp line x.candidate) (ho : x.outer = [])
    (hl : line < x.mark.line) : x.dropStale = .ok { x with candidate := none } := by
  cases hc : x.candidate with
  | none => rw [dropStale_of_none hc ho, ← hc]
  | some k =>
    obtain ⟨hn, hk⟩ := h k hc
    have hs : isStale x.mark k = true := by
      rw [isStale, decide_eq_true (Nat.lt_of_le_of_lt hk hl), Bool.true_or]
    exact dropStale_of_stale hc ho hs hn

/-- The sign that may be the start of a key is counted as such where a key may stand. -/
theorem addCandidate_clean : (clean m rest tokens indent indents allowed).addCandidate =
    .ok { clean m rest tokens indent indents allowed with
      candidate := if allowed then some ⟨tokens.length, m, indent == m.column⟩ else none } := by
  cases allowed <;> rfl

/-- Where a clean lexer is at a token, only collections are closed. -/
theorem settled_clean (h : toToken false false allowed m rest = (allowed, ⟨m, rest⟩)) :
    (clean m rest tokens indent indents allowed).settled =
      .ok ((clean m rest tokens indent indents allowed).closeTo m.column) := by
  have ha : (clean m rest tokens indent indents allowed).advance =
      clean m rest tokens indent indents allowed := by
    simp only [advance, clean, flow, mark, List.isEmpty_nil, Bool.not_true, h]
  rw [settled, ha, dropStale_of_none rfl rfl]
  rfl

theorem toToken_atToken (h : AtToken rest) :
    toToken false false allowed m rest = (allowed, ⟨m, rest⟩) := by
  cases rest with
  | nil => rfl
  | cons c cs =>
    obtain ⟨hg, hs, hb⟩ := h c rfl
    obtain ⟨h1, h2, h3⟩ := isGap_eq_false_iff.1 hg
    simp [toToken, h1, h2, h3, hs, hb]

theorem toToken_spaces (n : Nat) :
    toToken false false allowed m (spaces n ++ rest) =
      toToken false false allowed (m.right n) rest := by
  induction n generalizing m with
  | zero => rfl
  | succ n ih =>
    have hb : isBreak ' ' = false := rfl
    rw [spaces, List.replicate_succ, List.cons_append, toToken]
    simp only [hb, Bool.false_eq_true, if_false, Char.reduceEq, decide_false, Bool.and_false,
      decide_true, Bool.true_or, if_true]
    rw [← spaces, ih, Mark.right_right, Nat.add_comm]

theorem toToken_feed (n : Nat) :
    toToken false false allowed m ('\n' :: (spaces n ++ rest)) =
      toToken false false true (m.down.right n) rest := by
  rw [toToken, if_pos (show isBreak '\n' = true from rfl), Bool.not_false, Bool.or_true,
    toToken_spaces]

/-- Spaces within a line are passed over. -/
theorem leads_spaces (n : Nat) :
    Leads (clean m (spaces n ++ rest) tokens indent indents allowed)
      (clean (m.right n) rest tokens indent indents allowed) := by
  refine .of_step_eq (step_eq_of_settled ?_) (by simp [clean])
  simp only [settled, advance, clean, flow, mark, List.isEmpty_nil, Bool.not_true, toToken_spaces]

/-- The next line begins with all that was in doubt given up. -/
theorem leads_feed {x : Lexer} {n : Nat} (hr : x.cursor.rest = '\n' :: (spaces n ++ rest))
    (ht : AtToken rest) (ho : x.outer = []) (hn : x.count = x.tokens.length)
    (hc : GivenUp x.mark.line x.candidate) :
    Leads x (clean (x.mark.down.right n) rest x.tokens x.indent x.indents true) := by
  obtain ⟨⟨m, r⟩, tokens, count, indent, indents, candidate, outer, allowed⟩ := x
  dsimp only [mark] at hr ho hn hc ⊢
  subst hr ho hn
  refine .of_step_eq (step_eq_of_settled ?_) (by simp [clean]; omega)
  have ha : (Lexer.mk ⟨m, '\n' :: (spaces n ++ rest)⟩ tokens tokens.length indent indents
      candidate [] allowed).advance =
        ⟨⟨m.down.right n, rest⟩, tokens, tokens.length, indent, indents, candidate, [], true⟩ := by
    simp only [advance, flow, mark, List.isEmpty_nil, Bool.not_true, toToken_feed, toToken_atToken ht]
  rw [settled_clean (toToken_atToken ht), settled, ha, dropStale_below hc rfl (Nat.lt_succ_self _)]
  rfl

/-- A collection is closed by a line that does not reach it. -/
theorem leads_close {line column : Nat} {i : Int} (ht : AtToken rest) (hi : column < indent) :
    Leads (clean ⟨line, column⟩ rest tokens indent (i :: indents) allowed)
      (clean ⟨line, column⟩ rest (⟨.blockEnd, ⟨line, column⟩, ⟨line, column⟩⟩ :: tokens)
        i indents allowed) := by
  refine .of_step_eq (step_eq_of_settled ?_) (Nat.le_refl _)
  rw [settled_clean (toToken_atToken ht), settled_clean (toToken_atToken ht)]
  have hi : ((Mark.mk line column).column : Int) <
      (clean ⟨line, column⟩ rest tokens indent (i :: indents) allowed).indent := hi
  rw [closeTo, closeTo]
  simp only [clean, flow, List.isEmpty_nil, Bool.not_true, Bool.false_eq_true, if_false,
    close] at hi ⊢
  rw [if_pos hi]
  rfl

/-- Where no collection ends, the step of a clean lexer is that of its token. -/
theorem step_clean {c : Char} {cs : List Char} (ht : AtToken (c :: cs)) (hi : indent ≤ m.column) :
    (clean m (c :: cs) tokens indent indents allowed).step =
      (clean m (c :: cs) tokens indent indents allowed).token c cs >>= dropStale := by
  have hs : (clean m (c :: cs) tokens indent indents allowed).settled =
      .ok (clean m (c :: cs) tokens indent indents allowed) := by
    rw [settled_clean (toToken_atToken ht), closeTo]
    simp only [clean, flow, List.isEmpty_nil, Bool.not_true, Bool.false_eq_true, if_false]
    cases indents with
    | nil => rfl
    | cons i is => rw [close, if_neg (by simpa using hi)]
  rw [step_eq, hs]
  rfl

/-- At the end of a text the collection that is still open is closed. -/
theorem run_end (line n : Nat) :
    (clean ⟨line, 0⟩ [] tokens 0 [-1] allowed).run (n + 1) =
      ⟨tokens.reverse ++ [⟨.blockEnd, ⟨line, 0⟩, ⟨line, 0⟩⟩, ⟨.streamEnd, ⟨line, 0⟩, ⟨line, 0⟩⟩],
        none⟩ := by
  have hs : (clean ⟨line, 0⟩ [] tokens 0 [-1] allowed).step = .ok (clean ⟨line, 0⟩ []
      (⟨.streamEnd, ⟨line, 0⟩, ⟨line, 0⟩⟩ :: ⟨.blockEnd, ⟨line, 0⟩, ⟨line, 0⟩⟩ :: tokens)
      (-1) [] false) := rfl
  rw [run, hs]
  simp [isDone, clean]

end Lexer
end Yaml
end Retarget
