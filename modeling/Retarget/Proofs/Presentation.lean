/-
# How a declaration is written does not matter

The guard reads a declaration as a list of tokens.  What it finds is the same however the tokens
are presented:

| edit of the declared text | what the guard finds |
| --- | --- |
| `a` and `b` joined by a semicolon | what it finds in `a`, or else in `b` |
| ASCII letters in the other case | the same kind |
| white space added at the ends of tokens | the same kind |
| tokens in another order, repeated, idle ones added or removed | a kind where there was one |

A token is *idle* if it names no kind.  The order of the tokens decides which kind is found where
several are named, so the last row speaks only of whether there is one.

The guard cuts, trims and looks up; each of the three can be done before or after all letters are
folded (`Text.pieces_map`, `Text.trim_map`, `unsupportedKind?_map_fold`), so the folded text alone
decides (`kindDeclaredBy_eq_folded`).
-/

import Retarget.Proofs.Guard
import Mathlib.Logic.Relation

namespace Retarget

/-- The leftmost token decides that names a kind after trimming. -/
theorem kindDeclaredBy_eq_findSome? (declared : String) :
    kindDeclaredBy declared =
      (Text.pieces ';' declared.toList).findSome? fun t => unsupportedKind? (Text.trim t) := by
  rw [kindDeclaredBy, List.findSome?_map]
  rfl

/-- **The two sides of a semicolon are declarations of their own**, the left one first. -/
theorem kindDeclaredBy_append_semicolon (a b : String) :
    kindDeclaredBy (a ++ ";" ++ b) = (kindDeclaredBy a).or (kindDeclaredBy b) := by
  have hs : (a ++ ";" ++ b).toList = a.toList ++ ';' :: b.toList := by simp
  simp only [kindDeclaredBy_eq_findSome?, hs, Text.pieces_append_sep, List.findSome?_append]

/-! ### Letter case -/

/-- The lookup folds letters itself. -/
theorem unsupportedKind?_map_fold (guid : List Char) :
    unsupportedKind? (guid.map Text.fold) = unsupportedKind? guid := by
  have hf : (guid.map Text.fold).map Text.fold = guid.map Text.fold := by
    rw [List.map_map, show Text.fold ∘ Text.fold = Text.fold from funext Text.fold_fold]
  simp only [unsupportedKind?, Text.agrees, hf]

/-- The text with all letters folded decides. -/
theorem kindDeclaredBy_eq_folded (declared : String) :
    kindDeclaredBy declared = (Text.pieces ';' (declared.toList.map Text.fold)).findSome? fun t =>
      unsupportedKind? (Text.trim t) := by
  rw [Text.pieces_map Text.fold_eq_semicolon_iff, List.findSome?_map, kindDeclaredBy_eq_findSome?]
  congr
  funext t
  rw [Function.comp_apply, Text.trim_map Text.isBlank_fold, unsupportedKind?_map_fold]

/-! ### The tokens as a set -/

variable {tokens others : List (List Char)}

/-- The second list of tokens is made from the first in one step: the tokens are put in another
order, one is repeated, or one is added that names no kind. -/
inductive Rearranged : List (List Char) → List (List Char) → Prop
  | reorder {ts us} (h : ts.Perm us) : Rearranged ts us
  | duplicate {t ts} (h : t ∈ ts) : Rearranged ts (t :: ts)
  | idle {t ts} (h : ∀ kind, ¬ NamesKind t kind) : Rearranged ts (t :: ts)

/-- Any number of such steps, each made or taken back, leads from the one list to the other. -/
def SameTokens : List (List Char) → List (List Char) → Prop := Relation.EqvGen Rearranged

/-- Some token names a kind. -/
def SomeNames (tokens : List (List Char)) : Prop := ∃ t ∈ tokens, ∃ kind, NamesKind t kind

theorem Rearranged.someNames_iff (h : Rearranged tokens others) :
    SomeNames tokens ↔ SomeNames others := by
  cases h with
  | reorder h => exact exists_congr fun t => and_congr_left fun _ => h.mem_iff
  | duplicate h =>
    refine exists_congr fun u => and_congr_left fun _ => ?_
    rw [List.mem_cons]
    exact ⟨.inr, fun hu => hu.elim (fun he => he ▸ h) id⟩
  | idle h =>
    refine exists_congr fun u => and_congr_left fun hu => ?_
    rw [List.mem_cons]
    exact ⟨.inr, fun hm => hm.resolve_left fun he => hu.elim fun kind hk => h kind (he ▸ hk)⟩

/-- A kind is named in the one list where one is named in the other. -/
theorem SameTokens.someNames_iff (h : SameTokens tokens others) :
    SomeNames tokens ↔ SomeNames others :=
  -- what single steps keep is a function on the quotient by them
  iff_of_eq <| congrArg (Quot.lift SomeNames fun _ _ h => propext h.someNames_iff)
    (Quot.eqvGen_sound h)

/-- A kind is found where some token names one. -/
theorem isSome_kindDeclaredBy_iff {declared : String}
    (hc : Text.IsCut ';' declared.toList tokens) :
    (kindDeclaredBy declared).isSome ↔ SomeNames tokens := by
  rw [kindDeclaredBy_eq_findSome?, ← Text.isCut_iff.1 hc, List.findSome?_isSome_iff, SomeNames]
  simp only [Option.isSome_iff_exists, unsupportedKind?_trim_iff]

/-! ### All edits together -/

/-- **The guard is insensitive to how a declaration is written.**  Its answer depends only on the
text of the project's declaration.  For two texts joined by a semicolon it is the answer for the
first, if that is a kind, and otherwise that for the second.  The case of ASCII letters and white
space at the ends of tokens do not change it.  The order of the tokens, their repetition, and
tokens that name no kind do not change whether there is one. -/
theorem guard_ignores_presentation :
    (∀ (p : Project) (e : Element), p.IsDeclaration e →
      p.unsupportedKind = kindDeclaredBy e.value) ∧
    (∀ a b, kindDeclaredBy (a ++ ";" ++ b) = (kindDeclaredBy a).or (kindDeclaredBy b)) ∧
    (∀ s t : String, List.Forall₂ Text.SameLetter s.toList t.toList →
      kindDeclaredBy t = kindDeclaredBy s) ∧
    (∀ (s t : String) (tokens padded : List (List Char)), Text.IsCut ';' s.toList tokens →
      List.Forall₂ Text.IsPadded tokens padded → t.toList = Text.joinedWith ';' padded →
        kindDeclaredBy t = kindDeclaredBy s) ∧
    (∀ (s t : String) (tokens others : List (List Char)), Text.IsCut ';' s.toList tokens →
      Text.IsCut ';' t.toList others → SameTokens tokens others →
        (kindDeclaredBy t).isSome = (kindDeclaredBy s).isSome) := by
  refine ⟨fun p e h => ?_, kindDeclaredBy_append_semicolon, fun s t h => ?_,
    fun s t tokens padded hc hp ht => ?_, fun s t tokens others hc ho hr => ?_⟩
  · exact Project.unsupportedKind_of_findElement (Project.findElement_kindsElement_iff.2 h)
  · have hf : s.toList.map Text.fold = t.toList.map Text.fold :=
      Text.agrees_iff.1 (Text.agrees_iff_forall₂.2 h)
    rw [kindDeclaredBy_eq_folded, kindDeclaredBy_eq_folded, hf]
  · have hpieces : Text.pieces ';' t.toList = padded := by
      rw [ht]
      exact (Text.isCut_iff.1 (Text.isCut_padded (by decide) hc hp)).symm
    rw [kindDeclaredBy, kindDeclaredBy, hpieces, Text.map_trim_padded hp, Text.isCut_iff.1 hc]
  · rw [Bool.eq_iff_iff, isSome_kindDeclaredBy_iff hc, isSome_kindDeclaredBy_iff ho]
    exact hr.someNames_iff.symm

/-- A project with a declaration of this text, and nothing else. -/
def Project.declaring (declared : String) : Project :=
  .ofDocument ⟨⟨⟨.classic, "Project"⟩, [.element ⟨.classic, kindsElement⟩ [.text declared]]⟩⟩
    .classic

/-- One GUID in small letters, then with white space around it, then twice after an idle token. -/
theorem guard_ignores_presentation_small :
    let guid := braced "603C0E0B-DB56-11DC-BE95-000D561079B0"
    let small := braced "603c0e0b-db56-11dc-be95-000d561079b0"
    let spaced := "\u2003" ++ small ++ "\n"
    let kind : ProjectKind := ⟨guid, "ASP.NET MVC 1"⟩
    kindDeclaredBy small = some kind ∧ kindDeclaredBy spaced = some kind ∧
      (kindDeclaredBy ("A;" ++ small ++ ";" ++ small)).isSome ∧
      (Project.declaring spaced).unsupportedKind = some kind := by
  intro guid small spaced kind
  obtain ⟨hp, -, hletters, hspaces, htokens⟩ := guard_ignores_presentation
  have hguid : kindDeclaredBy guid = some kind := by decide +kernel
  have hsmall : kindDeclaredBy small = some kind :=
    (hletters guid small (Text.agrees_iff_forall₂.1 (by decide +kernel))).trans hguid
  have hcut : Text.IsCut ';' small.toList [small.toList] := Text.isCut_iff.2 (by decide +kernel)
  have hspaced : kindDeclaredBy spaced = some kind :=
    (hspaces small spaced _ [['\u2003'] ++ small.toList ++ ['\n']] hcut
      (.cons ⟨_, _, rfl, List.forall_mem_singleton.2 rfl, List.forall_mem_singleton.2 rfl⟩ .nil)
      (by decide +kernel)).trans hsmall
  have hidle : ∀ kind, ¬ NamesKind ['A'] kind := fun kind hk => by
    have hnone : unsupportedKind? (Text.trim ['A']) = none := by decide +kernel
    exact absurd (hnone.symm.trans (unsupportedKind?_trim_iff.2 hk)) nofun
  refine ⟨hsmall, hspaced, ?_, ?_⟩
  · rw [htokens small _ _ [['A'], small.toList, small.toList] hcut
      (Text.isCut_iff.2 (by decide +kernel))
      (.trans _ _ _ (.rel _ _ (.duplicate (List.mem_singleton_self _))) (.rel _ _ (.idle hidle))),
      hsmall]
    rfl
  · have hd : (Project.declaring spaced).IsDeclaration
        ⟨⟨.classic, kindsElement⟩, [.text spaced]⟩ :=
      ⟨[⟨⟨.classic, "Project"⟩, _⟩], [], rfl, rfl, by decide +kernel⟩
    rw [hp _ _ hd, ← hspaced]
    exact congrArg kindDeclaredBy (String.append_empty ..)

end Retarget
