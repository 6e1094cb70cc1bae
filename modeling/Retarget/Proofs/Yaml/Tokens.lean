/-
# The tokens of a tree that was written

A tree is cut into the signs `Tree.signs`: its texts as scalars, and around its lists and
records the signs at which they begin and end.  Only the list of a member has none, since
its lines are indented like the member itself.

The induction over the tree treats a value where it may stand: behind the colon of a member
(`AsMember`) and behind the dash of an item (`AsItem`).  In both the lexer is at the column
of the collection around the value, and the next line goes no deeper.
-/

import Retarget.Proofs.Yaml.Lexer.Values
import Retarget.Yaml.Printer

namespace Retarget
namespace Yaml

/-- The name can be written as it is, and means a text. -/
structure IsName (key : String) : Prop where
  word : Plain.IsKey key.toList
  text : (Resolve.untagged key).isText = true

end Yaml

/-- All members of the tree have names that can be written as they are. -/
inductive Tree.Named : Tree → Prop
  | text (s : String) : Named (.text s)
  | flag (b : Bool) : Named (.flag b)
  | list {ts : List Tree} (h : ∀ t ∈ ts, Named t) : Named (.list ts)
  | record {ms : List (String × Tree)} (hk : ∀ m ∈ ms, Yaml.IsName m.1) (h : ∀ m ∈ ms, Named m.2) :
      Named (.record ms)

namespace Tree.Named

theorem item {t : Tree} {ts : List Tree} (h : (Tree.list ts).Named) (ht : t ∈ ts) : t.Named := by
  cases h with
  | list h => exact h t ht

theorem member {m : String × Tree} {ms : List (String × Tree)}
    (h : (Tree.record ms).Named) (hm : m ∈ ms) :
    m.2.Named := by
  cases h with
  | record _ h => exact h m hm

end Tree.Named

namespace Yaml

open Written (spaces)

/-- How a flag is written. -/
def flagText (b : Bool) : String := if b then "true" else "false"

mutual

/-- The signs of a tree; `bare` tells whether it is the value of a member. -/
def signs (bare : Bool) : Tree → List Sign
  | .text s => [.scalar s (Written.style s)]
  | .flag b => [.scalar (flagText b) .plain]
  | .list [] => [.flowSequence, .flowSequenceEnd]
  | .list (t :: ts) =>
    if bare then .blockEntry :: (signs false t ++ itemSigns ts)
    else .blockSequence :: .blockEntry :: (signs false t ++ itemSigns ts) ++ [.blockEnd]
  | .record [] => [.flowMapping, .flowMappingEnd]
  | .record ((key, t) :: ms) =>
    .blockMapping :: .key :: .scalar key .plain :: .value ::
      (signs true t ++ memberSigns ms) ++ [.blockEnd]

/-- The signs of the further items of a list. -/
def itemSigns : List Tree → List Sign
  | [] => []
  | t :: ts => .blockEntry :: (signs false t ++ itemSigns ts)

/-- The signs of the further members of a record. -/
def memberSigns : List (String × Tree) → List Sign
  | [] => []
  | (key, t) :: ms => .key :: .scalar key .plain :: .value :: (signs true t ++ memberSigns ms)

end

namespace Lexer

/-- The lexer comes to the next line with tokens of these signs. -/
def Cuts (x : Lexer) (ss : List Sign) (column : Nat) (rest : List Char) (indent : Int)
    (indents : List Int) : Prop :=
  ∃ line, ∃ ts : List Token, ts.map (·.sign) = ss ∧
    Leads x (clean ⟨line, column⟩ rest (ts.reverse ++ x.tokens) indent indents true)

namespace Cuts

variable {x y : Lexer} {ss ss' : List Sign} {column column' : Nat} {rest rest' : List Char}
  {indent indent' : Int} {indents indents' : List Int}

theorem done {line : Nat} {tokens : List Token} :
    Cuts (clean ⟨line, column⟩ rest tokens indent indents true) [] column rest indent indents :=
  ⟨line, [], rfl, 0, Nat.le_of_eq (Nat.zero_add _), fun _ _ h => h⟩

/-- Tokens that are cut off before come first. -/
theorem cons_leads (ts : List Token) (h : Cuts y ss column rest indent indents) (hl : Leads x y)
    (ht : y.tokens = ts.reverse ++ x.tokens) :
    Cuts x (ts.map (·.sign) ++ ss) column rest indent indents := by
  obtain ⟨line, us, rfl, h⟩ := h
  refine ⟨line, ts ++ us, List.map_append, ?_⟩
  rw [List.reverse_append, List.append_assoc, ← ht]
  exact hl.trans h

/-- One line goes on where another has ended. -/
theorem trans (h : Cuts x ss column rest indent indents)
    (h' : ∀ line tokens,
      Cuts (clean ⟨line, column⟩ rest tokens indent indents true) ss' column' rest' indent' indents') :
    Cuts x (ss ++ ss') column' rest' indent' indents' := by
  obtain ⟨line, ts, rfl, h⟩ := h
  exact (h' line _).cons_leads ts h rfl

end Cuts

variable {m : Mark} {rest : List Char} {tokens : List Token} {indents : List Int}
    {allowed : Bool} {column c : Nat}

/-- The value of a member at column `c` is cut into its signs. -/
def AsMember (t : Tree) : Prop :=
  ∀ {m : Mark} {rest : List Char} {tokens : List Token} {indents : List Int} {column c : Nat},
    c < m.column → column ≤ c → AtToken rest →
      Cuts (clean m ((lead c t).2 ++ write (lead c t).1 t (spaces column ++ rest))
        tokens c indents false)
        (signs true t) column rest c indents

/-- An item of a list at column `c` is cut into its signs. -/
def AsItem (t : Tree) : Prop :=
  ∀ {line : Nat} {rest : List Char} {tokens : List Token} {indents : List Int} {column c : Nat},
    column ≤ c → AtToken rest →
      Cuts (clean ⟨line, c + 2⟩ (write (c + 2) t (spaces column ++ rest)) tokens c indents true)
        (signs false t) column rest c indents

/-! ### Texts, flags and what is empty -/

theorem cuts_text (s : String) (hm : c < m.column) (hc : column ≤ c) (ht : AtToken rest) :
    Cuts (clean m (ended (Written.scalar (c + 2) s) ++ (spaces column ++ rest))
      tokens c indents allowed)
      [.scalar s (Written.style s)] column rest c indents := by
  obtain ⟨line, stop, h⟩ := leads_scalar s hm hc ht
  exact ⟨line, [_], rfl, h⟩

theorem cuts_flag (b : Bool) (hm : c < m.column) (hc : column ≤ c) (ht : AtToken rest) :
    Cuts (clean m ((if b then "true\n" else "false\n").toList ++ (spaces column ++ rest))
      tokens c indents allowed)
      [.scalar (flagText b) .plain] column rest c indents := by
  have hp : Written.plainAllowed (flagText b).toList = true := by cases b <;> decide
  have hn : (flagText b).toList ≠ [] := by cases b <;> decide
  have he : (if b then "true\n" else "false\n").toList =
      (flagText b).toList ++ ['\n'] := by cases b <;> rfl
  have hd : m.down.right column = ⟨m.line + 1, column⟩ := by simp [Mark.down, Mark.right]
  refine ⟨m.line + 1, [⟨.scalar (flagText b) .plain, m, m.down.right column⟩], rfl, ?_⟩
  rw [he, List.append_assoc, ← hd]
  exact leads_plain hp hn (Int.ofNat_lt.2 hm) (Int.ofNat_le.2 hc) ht

theorem cuts_brackets {o e : Char} {so se : Sign} (h : Brackets o so e se)
    (hm : c < m.column) (ht : AtToken rest) :
    Cuts (clean m (o :: e :: '\n' :: (spaces column ++ rest)) tokens c indents allowed)
      [so, se] column rest c
      indents := by
  have hd : m.down.right column = ⟨m.line + 1, column⟩ := by simp [Mark.down, Mark.right]
  refine ⟨m.line + 1, [⟨so, m, m.right 1⟩, ⟨se, m.right 1, m.right 2⟩], rfl, ?_⟩
  rw [← hd]
  exact leads_brackets h (Int.ofNat_lt.2 hm) ht

/-- A text, a flag, or a list or record with nothing in it. -/
inductive IsLeaf : Tree → Prop
  | text (s : String) : IsLeaf (.text s)
  | flag (b : Bool) : IsLeaf (.flag b)
  | list : IsLeaf (.list [])
  | record : IsLeaf (.record [])

theorem cuts_leaf {t : Tree} (h : IsLeaf t) (bare : Bool) (hm : c < m.column)
    (hc : column ≤ c) (ht : AtToken rest) :
    Cuts (clean m (write (c + 2) t (spaces column ++ rest)) tokens c indents allowed)
      (signs bare t) column rest c
      indents := by
  cases h with
  | text s =>
    have hi : max (c + 2) 2 = c + 2 := by omega
    rw [write, signs, hi]
    exact cuts_text s hm hc ht
  | flag b =>
    rw [write, signs]
    exact cuts_flag b hm hc ht
  | list =>
    rw [write, signs]
    exact cuts_brackets .list hm ht
  | record =>
    rw [write, signs]
    exact cuts_brackets .record hm ht

theorem asItem_leaf {t : Tree} (h : IsLeaf t) : AsItem t := fun hc ht =>
  cuts_leaf h false (Nat.lt_add_of_pos_right (by decide)) hc ht

theorem asMember_leaf {t : Tree} (h : IsLeaf t) : AsMember t := by
  intro m rest tokens indents column c hm hc ht
  have hl : lead c t = (c + 2, [' ']) := by cases h <;> rfl
  rw [hl]
  exact (cuts_leaf h true (Nat.lt_succ_of_lt hm) hc ht).cons_leads [] (leads_spaces 1) rfl

/-! ### Lists -/

/-- A dash before an item of a list that is open, -/
theorem cuts_entry {line : Nat} {ss : List Sign} {i : Int} {is : List Int} {xs : List Char}
    (h : ∀ tokens, Cuts (clean ⟨line, c + 2⟩ xs tokens c indents true) ss column rest i is) :
    Cuts (clean ⟨line, c⟩ ('-' :: ' ' :: xs) tokens c indents true)
      (.blockEntry :: ss) column rest i is :=
  (h _).cons_leads [⟨.blockEntry, ⟨line, c⟩, ⟨line, c + 1⟩⟩] (leads_entry rfl) rfl

/-- and before the first one of a list that opens with it. -/
theorem cuts_first_entry {line : Nat} {ss : List Sign} {i j : Int} {is : List Int}
    {xs : List Char} (hj : j < c)
    (h : ∀ tokens, Cuts (clean ⟨line, c + 2⟩ xs tokens c (j :: indents) true) ss column rest i is) :
    Cuts (clean ⟨line, c⟩ ('-' :: ' ' :: xs) tokens j indents true)
      (.blockSequence :: .blockEntry :: ss) column rest
      i is :=
  (h _).cons_leads [⟨.blockSequence, ⟨line, c⟩, ⟨line, c⟩⟩, ⟨.blockEntry, ⟨line, c⟩, ⟨line, c + 1⟩⟩]
    (leads_first_entry hj) rfl

/-- Items on lines of their own, from behind the first dash on. -/
theorem cuts_items {line : Nat} {t : Tree} {ts : List Tree}
    (h : ∀ u ∈ t :: ts, AsItem u) (hc : column ≤ c)
    (ht : AtToken rest) :
    Cuts (clean ⟨line, c + 2⟩ (write (c + 2) t (writeItems c ts (spaces column ++ rest)))
      tokens c indents true)
      (signs false t ++ itemSigns ts) column rest c indents := by
  induction ts generalizing t line tokens with
  | nil =>
    rw [writeItems, itemSigns, List.append_nil]
    exact h t (List.mem_cons_self ..) hc ht
  | cons u us ih =>
    obtain ⟨h, hs⟩ := List.forall_mem_cons.1 h
    rw [writeItems, itemSigns]
    exact (h (Nat.le_refl c) (atToken_dash _)).trans fun line tokens =>
      cuts_entry fun tokens => ih hs

/-- The collection of the last lines is closed by the next line. -/
theorem Cuts.closed {x : Lexer} {ss : List Sign} {d : Nat} {i : Int}
    (h : Cuts x ss column rest d (i :: indents))
    (hc : column < d) (ht : AtToken rest) : Cuts x (ss ++ [.blockEnd]) column rest i indents :=
  h.trans fun _ _ => Cuts.done.cons_leads [_] (leads_close ht (Int.ofNat_lt.2 hc)) rfl

/-- The line ends behind a colon. -/
theorem leads_feed_clean {i : Int} (n : Nat) (ht : AtToken rest) :
    Leads (clean m ('\n' :: (spaces n ++ rest)) tokens i indents allowed)
      (clean (m.down.right n) rest tokens i indents true) :=
  leads_feed rfl ht rfl rfl fun _ h => absurd h (by simp [clean])

theorem asMember_list {t : Tree} {ts : List Tree} (h : ∀ u ∈ t :: ts, AsItem u) :
    AsMember (.list (t :: ts)) := by
  intro m rest tokens indents column c hm hc ht
  have hd : m.down.right c = ⟨m.line + 1, c⟩ := by simp [Mark.down, Mark.right]
  rw [lead, signs, if_pos rfl, write]
  refine Cuts.cons_leads [] ?_ (leads_feed_clean c (atToken_dash _)) rfl
  rw [hd]
  exact cuts_entry fun tokens => cuts_items h hc ht

theorem asItem_list {t : Tree} {ts : List Tree} (h : ∀ u ∈ t :: ts, AsItem u) :
    AsItem (.list (t :: ts)) := by
  intro line rest tokens indents column c hc ht
  rw [signs, if_neg Bool.false_ne_true, write]
  have hl : (c : Int) < (c + 2 : Nat) := by omega
  exact Cuts.closed (d := c + 2)
    (cuts_first_entry hl fun tokens => cuts_items h (Nat.le_add_right_of_le hc) ht)
    (by omega) ht

/-! ### Records -/

/-- A key with its colon in a record that is open, -/
theorem cuts_key {line : Nat} {key : String} {ss : List Sign} {i : Int}
    {is : List Int} {xs : List Char}
    (hk : Plain.IsKey key.toList) (hx : atGap xs = true)
    (h : ∀ m tokens, c < m.column → Cuts (clean m xs tokens c indents false) ss column rest i is) :
    Cuts (clean ⟨line, c⟩ (key.toList ++ ':' :: xs) tokens c indents true)
      (.key :: .scalar key .plain :: .value :: ss) column rest i is := by
  let m : Mark := ⟨line, c⟩
  let n := key.toList.length
  have hl : Leads (clean m (key.toList ++ ':' :: xs) tokens c indents true) _ :=
    (leads_key hk hx (Int.le_refl c)).trans (leads_value hk.short hx rfl)
  rw [String.ofList_toList] at hl
  exact (h (m.right (n + 1)) _ (Nat.lt_add_of_pos_right (Nat.succ_pos n))).cons_leads
    [⟨.key, m, m⟩, ⟨.scalar key .plain, m, m.right n⟩, ⟨.value, m.right n, m.right (n + 1)⟩] hl rfl

/-- and the first one of a record that opens with it. -/
theorem cuts_first_key {line : Nat} {key : String} {ss : List Sign} {i j : Int}
    {is : List Int} {xs : List Char}
    (hk : Plain.IsKey key.toList) (hx : atGap xs = true) (hj : j < c)
    (h : ∀ m tokens, c < m.column →
      Cuts (clean m xs tokens c (j :: indents) false) ss column rest i is) :
    Cuts (clean ⟨line, c⟩ (key.toList ++ ':' :: xs) tokens j indents true)
      (.blockMapping :: .key :: .scalar key .plain :: .value :: ss) column rest i is := by
  let m : Mark := ⟨line, c⟩
  let n := key.toList.length
  have hl : Leads (clean m (key.toList ++ ':' :: xs) tokens j indents true) _ :=
    (leads_key hk hx (Int.le_of_lt hj)).trans (leads_first_value hk.short hx hj)
  rw [String.ofList_toList] at hl
  exact (h (m.right (n + 1)) _ (Nat.lt_add_of_pos_right (Nat.succ_pos n))).cons_leads
    [⟨.blockMapping, m, m⟩, ⟨.key, m, m⟩, ⟨.scalar key .plain, m, m.right n⟩,
      ⟨.value, m.right n, m.right (n + 1)⟩] hl rfl

theorem atGap_lead (c : Nat) (t : Tree) (xs : List Char) : atGap ((lead c t).2 ++ xs) = true := by
  cases t with
  | text s => rfl
  | flag b => rfl
  | list ts => cases ts <;> rfl
  | record ms => cases ms <;> rfl

theorem atToken_name {key : String} (h : Plain.IsKey key.toList) (xs : List Char) :
    AtToken (key.toList ++ xs) := by
  obtain ⟨d, ds, he⟩ := List.exists_cons_of_ne_nil h.nonempty
  rw [he]
  exact atToken_key (h.plain d (by rw [he]; exact List.mem_cons_self ..)) _

/-- Members on lines of their own, from behind the first colon on. -/
theorem cuts_members {t : Tree} {ms : List (String × Tree)} (h : AsMember t)
    (hk : ∀ m ∈ ms, Plain.IsKey m.1.toList)
    (hs : ∀ m ∈ ms, AsMember m.2) (hm : c < m.column) (hc : column ≤ c) (ht : AtToken rest) :
    Cuts (clean m ((lead c t).2 ++ write (lead c t).1 t
      (writeMembers c ms (spaces column ++ rest))) tokens c
      indents false) (signs true t ++ memberSigns ms) column rest c indents := by
  induction ms generalizing t m tokens with
  | nil =>
    rw [writeMembers, memberSigns, List.append_nil]
    exact h hm hc ht
  | cons member ms ih =>
    obtain ⟨key, u⟩ := member
    obtain ⟨hu, hs⟩ := List.forall_mem_cons.1 hs
    obtain ⟨hk, hks⟩ := List.forall_mem_cons.1 hk
    rw [writeMembers, memberSigns, List.append_assoc, List.append_assoc, List.cons_append]
    refine (h hm (Nat.le_refl c) (atToken_name hk _)).trans fun line tokens => ?_
    exact cuts_key hk (atGap_lead c u _) fun m tokens hm => ih hu hks hs hm

/-- A record that opens at a column, up to the next line, which need not close it. -/
theorem cuts_record {line : Nat} {j : Int} {key : String} {t : Tree} {ms : List (String × Tree)}
    (hk : ∀ m ∈ (key, t) :: ms, Plain.IsKey m.1.toList)
    (h : ∀ m ∈ (key, t) :: ms, AsMember m.2) (hj : j < c)
    (hc : column ≤ c) (ht : AtToken rest) :
    Cuts (clean ⟨line, c⟩ (write c (.record ((key, t) :: ms)) (spaces column ++ rest))
      tokens j indents true)
      (.blockMapping :: .key :: .scalar key .plain :: .value :: (signs true t ++ memberSigns ms))
      column rest c (j :: indents) := by
  obtain ⟨hk, hks⟩ := List.forall_mem_cons.1 hk
  obtain ⟨h, hs⟩ := List.forall_mem_cons.1 h
  rw [write, List.append_assoc, List.cons_append]
  exact cuts_first_key hk (atGap_lead c t _) hj fun m tokens hm => cuts_members h hks hs hm hc ht

theorem asMember_record {key : String} {t : Tree} {ms : List (String × Tree)}
    (hk : ∀ m ∈ (key, t) :: ms, Plain.IsKey m.1.toList) (h : ∀ m ∈ (key, t) :: ms, AsMember m.2) :
    AsMember (.record ((key, t) :: ms)) := by
  intro m rest tokens indents column c hm hc ht
  have hd : m.down.right (c + 2) = ⟨m.line + 1, c + 2⟩ := by simp [Mark.down, Mark.right]
  have hj : (c : Int) < (c + 2 : Nat) := by omega
  have hn : ∃ xs, write (c + 2) (.record ((key, t) :: ms)) (spaces column ++ rest) =
      key.toList ++ xs :=
    ⟨_, by rw [write, List.append_assoc]⟩
  have ha : AtToken (write (c + 2) (.record ((key, t) :: ms)) (spaces column ++ rest)) := by
    obtain ⟨xs, hx⟩ := hn
    rw [hx]
    exact atToken_name (hk _ (List.mem_cons_self ..)) xs
  rw [lead, signs]
  refine Cuts.cons_leads [] ?_ (leads_feed_clean (c + 2) ha) rfl
  rw [hd]
  exact Cuts.closed (d := c + 2) (cuts_record hk h hj (Nat.le_add_right_of_le hc) ht) (by omega) ht

theorem asItem_record {key : String} {t : Tree} {ms : List (String × Tree)}
    (hk : ∀ m ∈ (key, t) :: ms, Plain.IsKey m.1.toList) (h : ∀ m ∈ (key, t) :: ms, AsMember m.2) :
    AsItem (.record ((key, t) :: ms)) := by
  intro line rest tokens indents column c hc ht
  have hj : (c : Int) < (c + 2 : Nat) := by omega
  rw [signs]
  exact Cuts.closed (d := c + 2) (cuts_record hk h hj (Nat.le_add_right_of_le hc) ht) (by omega) ht

/-- A tree is cut into its signs wherever it stands. -/
theorem cuts_tree {t : Tree} (h : t.Named) : AsMember t ∧ AsItem t := by
  induction h with
  | text s => exact ⟨asMember_leaf (.text s), asItem_leaf (.text s)⟩
  | flag b => exact ⟨asMember_leaf (.flag b), asItem_leaf (.flag b)⟩
  | @list ts _ ih =>
    cases ts with
    | nil => exact ⟨asMember_leaf .list, asItem_leaf .list⟩
    | cons t ts => exact ⟨asMember_list fun u hu => (ih u hu).2,
        asItem_list fun u hu => (ih u hu).2⟩
  | @record ms hk _ ih =>
    cases ms with
    | nil => exact ⟨asMember_leaf .record, asItem_leaf .record⟩
    | cons m ms =>
      have hk : ∀ n ∈ m :: ms, Plain.IsKey n.1.toList := fun n hn => (hk n hn).word
      exact ⟨asMember_record hk fun u hu => (ih u hu).1, asItem_record hk fun u hu => (ih u hu).1⟩

end Lexer

/-! ### The whole text -/

theorem isPrintable_of_isKeyChar {c : Char} (h : (c.isAlphanum || c = '_') = true) :
    Written.isPrintable c = true := by
  have hn : 0x20 ≤ c.toNat ∧ c.toNat ≤ 0x7E := by
    change (decide ('A'.val ≤ c.val ∧ c.val ≤ 'Z'.val) || ('a'.val ≤ c.val && c.val ≤ 'z'.val)
      || ('0'.val ≤ c.val && c.val ≤ '9'.val) || c = '_') = true at h
    simp only [Bool.or_eq_true, Bool.and_eq_true, decide_eq_true_eq, UInt32.le_iff_toNat_le] at h
    rcases h with ((⟨h, h'⟩ | ⟨h, h'⟩) | ⟨h, h'⟩) | rfl
    · exact ⟨Nat.le_trans (by decide) h, Nat.le_trans h' (by decide)⟩
    · exact ⟨Nat.le_trans (by decide) h, Nat.le_trans h' (by decide)⟩
    · exact ⟨Nat.le_trans (by decide) h, Nat.le_trans h' (by decide)⟩
    · decide
  simp [Written.isPrintable, hn]

theorem printable_ended {cs : List Char} (h : Printable cs) : Printable (ended cs) := by
  rw [ended]
  split
  · exact h
  · exact h.append (.cons (by decide) .nil)

theorem printable_lead (c : Nat) (t : Tree) : Printable (lead c t).2 := by
  have hs : Printable [' '] := .cons (by decide) .nil
  have hn (n : Nat) : Printable ('\n' :: spaces n) := .cons (by decide) (.spaces n)
  cases t with
  | text s => exact hs
  | flag b => exact hs
  | list ts =>
    cases ts with
    | nil => exact hs
    | cons t ts => exact hn c
  | record ms =>
    cases ms with
    | nil => exact hs
    | cons m ms => exact hn (c + 2)

theorem printable_key {key : String} (h : Plain.IsKey key.toList) : Printable key.toList :=
  fun c hc => isPrintable_of_isKeyChar (h.plain c hc)

theorem printable_writeItems {ts : List Tree} {c : Nat} {rest : List Char} (hr : Printable rest)
    (h : ∀ t ∈ ts, ∀ c {rest}, Printable rest → Printable (write c t rest)) :
    Printable (writeItems c ts rest) := by
  induction ts with
  | nil => exact hr
  | cons t ts ih =>
    obtain ⟨h, hs⟩ := List.forall_mem_cons.1 h
    rw [writeItems]
    exact (Printable.spaces c).append (.cons (by decide) (.cons (by decide) (h _ (ih hs))))

theorem printable_member {key : String} {t : Tree} {c : Nat} {rest : List Char}
    (hk : Plain.IsKey key.toList)
    (h : ∀ c {rest}, Printable rest → Printable (write c t rest)) (hr : Printable rest) :
    Printable (key.toList ++ (':' :: (lead c t).2 ++ write (lead c t).1 t rest)) :=
  .append (printable_key hk) (.append (.cons (by decide) (printable_lead c t)) (h _ hr))

theorem printable_writeMembers {ms : List (String × Tree)} {c : Nat}
    {rest : List Char} (hr : Printable rest)
    (hk : ∀ m ∈ ms, Plain.IsKey m.1.toList)
    (h : ∀ m ∈ ms, ∀ c {rest}, Printable rest → Printable (write c m.2 rest)) :
    Printable (writeMembers c ms rest) := by
  induction ms with
  | nil => exact hr
  | cons m ms ih =>
    obtain ⟨h, hs⟩ := List.forall_mem_cons.1 h
    obtain ⟨hk, hks⟩ := List.forall_mem_cons.1 hk
    rw [writeMembers, List.append_assoc, List.append_assoc]
    exact (Printable.spaces c).append (printable_member hk h (ih hks hs))

theorem printable_write {t : Tree} (h : t.Named) (c : Nat) {rest : List Char}
    (hr : Printable rest) :
    Printable (write c t rest) := by
  have hchars {cs : List Char} (h : cs.all Written.isPrintable = true) :
    Printable cs := List.all_eq_true.1 h
  induction h generalizing c rest with
  | text s => exact (printable_ended (Written.printable_scalar _ s)).append hr
  | flag b =>
    rw [write]
    exact Printable.append (hchars (by cases b <;> decide)) hr
  | @list ts _ ih =>
    cases ts with
    | nil => exact Printable.append (hchars (by decide)) hr
    | cons t ts =>
      obtain ⟨h, hs⟩ := List.forall_mem_cons.1 ih
      rw [write]
      exact .cons (by decide) (.cons (by decide) (h _ (printable_writeItems hr hs)))
  | @record ms hk _ ih =>
    cases ms with
    | nil => exact Printable.append (hchars (by decide)) hr
    | cons m ms =>
      obtain ⟨h, hs⟩ := List.forall_mem_cons.1 ih
      obtain ⟨hk, hks⟩ := List.forall_mem_cons.1 hk
      rw [write, List.append_assoc]
      exact printable_member hk.word h (printable_writeMembers hr (fun m hm => (hks m hm).word) hs)

/-- **A record that was written is cut into its signs**, with those of a text around them. -/
theorem ofText_write {m : String × Tree} {ms : List (String × Tree)}
    (h : (Tree.record (m :: ms)).Named) :
    ∃ ts : List Token, Tokens.ofText (write 0 (.record (m :: ms)) []) = ⟨ts, none⟩ ∧
      ts.map (·.sign) = .streamStart :: signs false (.record (m :: ms)) ++ [.streamEnd] := by
  have hp := printable_write h 0 .nil
  obtain ⟨key, t⟩ := m
  cases h with
  | record hk h =>
    let start : Token := ⟨.streamStart, .origin, .origin⟩
    obtain ⟨line, ts, hs, k, hl, hrun⟩ :
        Lexer.Cuts (Lexer.clean ⟨0, 0⟩ (write 0 (.record ((key, t) :: ms)) (spaces 0 ++ []))
          [start] (-1) [] true)
          _ 0 [] (0 : Nat) [-1] :=
      Lexer.cuts_record (fun m hm => (hk m hm).word) (fun m hm => (Lexer.cuts_tree (h m hm)).1)
        (by decide) (Nat.le_refl 0)
        fun c hc => absurd hc (by simp)
    have hk : k ≤ (write 0 (.record ((key, t) :: ms)) []).length := hl
    have hn : (write 0 (.record ((key, t) :: ms)) []).length + 2 =
        (write 0 (.record ((key, t) :: ms)) []).length + 1 - k + k + 1 := by omega
    have hend := hrun ((write 0 (.record ((key, t) :: ms)) []).length + 1 - k) _
      (Lexer.run_end line _)
    rw [Tokens.ofText_eq hp, hn]
    refine ⟨_, hend, ?_⟩
    simp [hs, signs, start, Lexer.clean]

end Yaml
end Retarget
