/-
# Arguments in any order

What a user gives is a project file, values for options, and flags.  Each thing given is one or
two words of the command line:

| given | words |
| --- | --- |
| a project file | the path |
| a value for an option | `--name=value`, or `--name` and then `value` |
| a flag | `--name`, for `verbose` also `-v` |

A value that is a word of its own does not start with a hyphen, so that it is never taken for an
option; and a word that does not start with a hyphen is a value exactly if an option waits for
one.  The reader is one word behind with values, but *settled* it holds what has been given so
far, whatever the order (`Given.taken`): one thing given takes it from one such state to the next
(`Given.takes_words`), and a whole command line ends in what was asked for
(`Given.arguments_in_any_order`).
-/

import Retarget.Arguments
import Mathlib.Data.List.Induction
import Mathlib.Data.List.TakeWhile

namespace Retarget

/-- The name of the option that takes the value; the project file has none. -/
def ValueArgument.optionName? : ValueArgument → Option String
  | projectFile => none
  | options => some "options"
  | framework => some "target-framework"
  | format => some "format"

/-- The name of the flag. -/
def FlagArgument.name : FlagArgument → String
  | noAppend => "no-append-target-framework"
  | dryRun => "dry-run"
  | verbose => "verbose"
  | help => "help"

/-- One thing that is given on a command line: a value, perhaps attached to the name of its option,
or a flag, perhaps by its letter. -/
inductive Given where
  | value (a : ValueArgument) (v : String) (attached : Bool)
  | flag (f : FlagArgument) (letter : Bool)
  deriving DecidableEq, Repr

namespace Given

/-- The words in which it is given. -/
def words : Given → List String
  | value a v attached =>
    match a.optionName? with
    | none => [v]
    | some name => if attached then ["--" ++ name ++ "=" ++ v] else ["--" ++ name, v]
  | flag f letter => [if letter then "-v" else "--" ++ f.name]

/-- The command line on which these are given one after the other. -/
def line (gs : List Given) : List String := gs.flatMap words

/-- A word that is a value does not start with a hyphen, no value is empty, and a format is a known
one.  The flags are those of a run, and only `verbose` has a letter. -/
def Sound : Given → Prop
  | value a v attached =>
    v ≠ "" ∧ (a = .format → ∃ f : ReportFormat, v = f.label) ∧
      (a = .projectFile ∨ attached = false → v.toList.head? ≠ some '-')
  | flag f letter => f ≠ .help ∧ (letter = true → f = .verbose)

/-- The value that is given for the argument. -/
def valueFor? (a : ValueArgument) : Given → Option String
  | value b v _ => if b = a then some v else none
  | flag _ _ => none

/-- The flag that is given. -/
def flag? : Given → Option FlagArgument
  | value _ _ _ => none
  | flag f _ => some f

/-- The values that are given for the argument, in order. -/
def valuesFor (a : ValueArgument) (gs : List Given) : List String := gs.filterMap (valueFor? a)

/-- The flags that are given, in order. -/
def flags (gs : List Given) : List FlagArgument := gs.filterMap flag?

/-- Nothing but frameworks is given more than once. -/
structure Allowed (gs : List Given) : Prop where
  sound : ∀ g ∈ gs, g.Sound
  once : ∀ a, a ≠ .framework → (valuesFor a gs).length ≤ 1
  nodup : (flags gs).Nodup

/-- What is asked for by these: each argument by its own value alone. -/
def asked (path : String) (gs : List Given) : Arguments where
  projectFile := path
  options := (valuesFor .options gs).head?
  frameworks := valuesFor .framework gs
  noAppend := (flags gs).contains .noAppend
  format := ((valuesFor .format gs).head?.bind ReportFormat.ofLabel?).getD .console
  dryRun := (flags gs).contains .dryRun
  verbose := (flags gs).contains .verbose

/-- The reader that has taken these, the last value included. -/
def taken (gs : List Given) : ArgumentReader where
  projectFile := (valuesFor .projectFile gs).head?
  options := (valuesFor .options gs).head?
  frameworks := valuesFor .framework gs
  format := (valuesFor .format gs).head?.bind ReportFormat.ofLabel?
  flags := (flags gs).reverse
  pending := none
  awaiting := false
  seenFile := !(valuesFor .projectFile gs).isEmpty
  onlyFiles := false

variable {a b : ValueArgument} {v : String} {f : FlagArgument} {attached letter : Bool}
  {g : Given} {gs : List Given}

/-! ### One more thing given -/

theorem valuesFor_concat_value :
    valuesFor b (gs ++ [value a v attached]) = valuesFor b gs ++ if a = b then [v] else [] := by
  rw [valuesFor, List.filterMap_append]
  by_cases h : a = b <;> simp [valuesFor, valueFor?, h]

theorem valuesFor_concat_flag : valuesFor b (gs ++ [flag f letter]) = valuesFor b gs := by
  simp [valuesFor, valueFor?]

theorem flags_concat_value : flags (gs ++ [value a v attached]) = flags gs := by
  simp [flags, flag?]

theorem flags_concat_flag : flags (gs ++ [flag f letter]) = flags gs ++ [f] := by
  simp [flags, flag?]

theorem Allowed.of_concat (h : Allowed (gs ++ [g])) : Allowed gs where
  sound g hg := h.sound g (List.mem_append_left _ hg)
  once a ha := by
    have := h.once a ha
    rw [valuesFor, List.filterMap_append, List.length_append] at this
    exact Nat.le_of_add_right_le this
  nodup := by
    have := h.nodup
    rw [flags, List.filterMap_append] at this
    exact (List.nodup_append.1 this).1

theorem Allowed.sound_last (h : Allowed (gs ++ [g])) : g.Sound :=
  h.sound g (List.mem_append_right _ (List.mem_singleton_self g))

/-- No value has been given before the one that may be given only once. -/
theorem Allowed.valuesFor_eq_nil (h : Allowed (gs ++ [value a v attached])) (ha : a ≠ .framework) :
    valuesFor a gs = [] := by
  have := h.once a ha
  rw [valuesFor_concat_value, if_pos rfl, List.length_append, List.length_singleton] at this
  exact List.length_eq_zero_iff.1 (by omega)

theorem Allowed.not_mem_flags (h : Allowed (gs ++ [flag f letter])) : f ∉ flags gs := by
  have := h.nodup
  rw [flags_concat_flag] at this
  exact fun hf => (List.nodup_append.1 this).2.2 f hf f (List.mem_singleton_self f) rfl

/-! ### Words -/

section Words

variable {r : ArgumentReader}

/-- A word that does not start with a hyphen is the value that is waited for, or a project file. -/
theorem take_of_head? (ho : r.onlyFiles = false) (hv : v.toList.head? ≠ some '-') :
    r.take v =
      match r.awaiting, r.pending with
      | true, some (a, _) => .ok { r with pending := some (a, some v), awaiting := false }
      | _, _ => r.file v := by
  rw [ArgumentReader.take, ho, if_neg Bool.false_ne_true]
  split
  · rename_i h
    exact absurd (h ▸ rfl) hv
  · rename_i h
    exact absurd (h ▸ rfl) hv
  · rename_i h
    exact absurd (h ▸ rfl) hv
  · rfl

/-- Two hyphens are followed by a name. -/
theorem take_long {cs : List Char} (ho : r.onlyFiles = false) (hv : v.toList = '-' :: '-' :: cs)
    (hc : cs ≠ []) : r.take v = r.long cs := by
  obtain ⟨c, cs, rfl⟩ := List.exists_cons_of_ne_nil hc
  rw [ArgumentReader.take, ho, if_neg Bool.false_ne_true, hv]
  rfl

/-- The name of an option is known. -/
theorem option?_of_optionName? {name : String} (hn : a.optionName? = some name) :
    ArgumentReader.option? name = some a := by
  cases a <;> cases hn <;> decide

theorem ne_nil_of_optionName? {name : String} (hn : a.optionName? = some name) :
    name.toList ≠ [] := by
  cases a <;> cases hn <;> decide

/-- No name of an option has the sign that attaches a value to it. -/
theorem ne_equals_of_optionName? {name : String} (hn : a.optionName? = some name) :
    ∀ c ∈ name.toList, decide (c ≠ '=') = true := by
  refine List.all_eq_true.1 ?_
  cases a <;> cases hn <;> decide

/-- An option with its value attached. -/
theorem long_attached {name : String} (hn : a.optionName? = some name) :
    r.long (name.toList ++ '=' :: v.toList) =
      r.settle.bind fun r => (r.give a v).map fun r => { r with awaiting := false } := by
  have hi := ne_equals_of_optionName? hn
  have hname : (name.toList ++ '=' :: v.toList).takeWhile (· ≠ '=') = name.toList := by
    rw [List.takeWhile_append_of_pos hi, List.takeWhile_cons_of_neg (by decide), List.append_nil]
  have hvalue : (name.toList ++ '=' :: v.toList).dropWhile (· ≠ '=') = '=' :: v.toList := by
    rw [List.dropWhile_append_of_pos hi, List.dropWhile_cons_of_neg (by decide)]
  have hmem : (name.toList ++ '=' :: v.toList).contains '=' = true := by simp
  simp only [ArgumentReader.long, hname, hvalue, hmem, if_pos, List.tail_cons,
    String.ofList_toList, option?_of_optionName? hn]
  rfl

/-- An option that waits for its value. -/
theorem long_separate {name : String} (hn : a.optionName? = some name) :
    r.long name.toList =
      r.settle.map fun r => { r with pending := some (a, none), awaiting := true } := by
  have hi := ne_equals_of_optionName? hn
  have hname : name.toList.takeWhile (· ≠ '=') = name.toList := List.takeWhile_eq_self_iff.2 hi
  have hmem : name.toList.contains '=' = false := by
    simpa using fun hc => of_decide_eq_true (hi _ hc) rfl
  simp only [ArgumentReader.long, hname, hmem, String.ofList_toList, option?_of_optionName? hn]
  rfl

/-- A flag. -/
theorem long_flag : r.long f.name.toList = r.raise f := by
  cases f <;> rfl

end Words

/-! ### One step -/

/-- A value for an option goes where it is asked for. -/
theorem give_taken (h : Allowed (gs ++ [value a v attached])) (ha : a ≠ .projectFile) :
    (taken gs).give a v = .ok (taken (gs ++ [value a v attached])) := by
  obtain ⟨hv, hf, -⟩ := h.sound_last
  have hsome : ArgumentReader.someText a v = .ok v := if_neg (by simpa using hv)
  cases a with
  | projectFile => exact absurd rfl ha
  | options =>
    have hnil := h.valuesFor_eq_nil (by decide)
    simp [ArgumentReader.give, taken, hnil, hsome, valuesFor_concat_value, flags_concat_value,
      Except.map]
  | framework =>
    simp [ArgumentReader.give, taken, valuesFor_concat_value, flags_concat_value]
  | format =>
    obtain ⟨f, rfl⟩ := hf rfl
    have hnil := h.valuesFor_eq_nil (by decide)
    have hformat : ArgumentReader.formatOf f.label = .ok f := by
      rw [ArgumentReader.formatOf, ReportFormat.ofLabel?_label]
    simp [ArgumentReader.give, taken, hnil, hformat, valuesFor_concat_value, flags_concat_value,
      ReportFormat.ofLabel?_label, Except.map]

/-- A path is the project file as soon as it is settled. -/
theorem give_projectFile (h : Allowed (gs ++ [value .projectFile v attached])) :
    { taken gs with seenFile := true }.give .projectFile v =
      .ok (taken (gs ++ [value .projectFile v attached])) := by
  have hnil := h.valuesFor_eq_nil (by decide)
  have hsome : ArgumentReader.someText .projectFile v = .ok v :=
    if_neg (by simpa using h.sound_last.1)
  simp [ArgumentReader.give, taken, hnil, hsome, valuesFor_concat_value, flags_concat_value,
    Except.map]

/-- A flag is raised once. -/
theorem raise_taken {r : ArgumentReader} (hr : r.settle = .ok (taken gs))
    (h : Allowed (gs ++ [flag f letter])) :
    r.raise f = .ok (taken (gs ++ [flag f letter])) := by
  have hmem : ((taken gs).flags.contains f) = false := by
    simpa [taken] using h.not_mem_flags
  rw [ArgumentReader.raise, hr]
  simp only [bind, Except.bind, if_neg h.sound_last.1, hmem]
  simp [taken, valuesFor_concat_flag, flags_concat_flag, pure, Except.pure]

/-- A value is put in its place without a look at what comes next. -/
theorem give_keeps {r s : ArgumentReader} (h : r.give a v = .ok s) :
    s.awaiting = r.awaiting ∧ s.seenFile = r.seenFile ∧ s.onlyFiles = r.onlyFiles := by
  have hmap {α : Type} {x : Except UsageError α} {put : α → ArgumentReader}
      (hx : x.map put = .ok s) : ∃ y, put y = s := by
    cases x with
    | error e => cases hx
    | ok y => exact ⟨y, Except.ok.inj hx⟩
  cases a <;> simp only [ArgumentReader.give] at h
  case projectFile =>
    obtain ⟨y, rfl⟩ := hmap h
    exact ⟨rfl, rfl, rfl⟩
  case framework =>
    obtain rfl := Except.ok.inj h
    exact ⟨rfl, rfl, rfl⟩
  all_goals
    split at h
    · cases h
    · obtain ⟨y, rfl⟩ := hmap h
      exact ⟨rfl, rfl, rfl⟩

/-- Nor does settling a reader change what it looks for. -/
theorem settle_keeps {r s : ArgumentReader} (h : r.settle = .ok s) :
    r.awaiting = s.awaiting ∧ r.seenFile = s.seenFile ∧ r.onlyFiles = s.onlyFiles := by
  rw [ArgumentReader.settle] at h
  split at h
  · obtain rfl := Except.ok.inj h
    exact ⟨rfl, rfl, rfl⟩
  · cases h
  · obtain ⟨hw, hf, ho⟩ := give_keeps h
    exact ⟨hw.symm, hf.symm, ho.symm⟩

section Step

variable {r : ArgumentReader} {name : String}

/-- The words take the reader to one that, settled, has taken these. -/
def Takes (r : ArgumentReader) (ws : List String) (gs : List Given) : Prop :=
  ∃ r', ws.foldlM ArgumentReader.take r = .ok r' ∧ r'.settle = .ok (taken gs)

theorem takes_word {r' : ArgumentReader} (h : r.take v = .ok r') (hs : r'.settle = .ok (taken gs)) :
    Takes r [v] gs := by
  refine ⟨r', ?_, hs⟩
  rw [List.foldlM_cons, h]
  rfl

theorem takes_projectFile (hr : r.settle = .ok (taken gs))
    (h : Allowed (gs ++ [value .projectFile v attached])) :
    Takes r [v] (gs ++ [value .projectFile v attached]) := by
  obtain ⟨hw, hf, ho⟩ := settle_keeps hr
  have hseen : r.seenFile = false := by
    rw [hf]
    simp [taken, h.valuesFor_eq_nil]
  have ht : r.take v =
      .ok { taken gs with pending := some (.projectFile, some v), seenFile := true } := by
    rw [take_of_head? ho (h.sound_last.2.2 (.inl rfl)), hw]
    change r.file v = _
    rw [ArgumentReader.file, hseen, hr]
    rfl
  exact takes_word ht (give_projectFile h)

theorem takes_attached (hr : r.settle = .ok (taken gs)) (hn : a.optionName? = some name)
    (h : Allowed (gs ++ [value a v true])) :
    Takes r ["--" ++ name ++ "=" ++ v] (gs ++ [value a v true]) := by
  have ha : a ≠ .projectFile := by
    rintro rfl
    cases hn
  have hword : ("--" ++ name ++ "=" ++ v).toList =
      '-' :: '-' :: (name.toList ++ '=' :: v.toList) := by
    simp
  have ht : r.take ("--" ++ name ++ "=" ++ v) = .ok (taken (gs ++ [value a v true])) := by
    rw [take_long (settle_keeps hr).2.2 hword (by simp), long_attached hn, hr]
    change ((taken gs).give a v).map _ = _
    rw [give_taken h ha]
    rfl
  exact takes_word ht rfl

/-- The name of the option is taken first, and then the word that it waits for. -/
theorem takes_separate (hr : r.settle = .ok (taken gs)) (hn : a.optionName? = some name)
    (h : Allowed (gs ++ [value a v false])) :
    Takes r ["--" ++ name, v] (gs ++ [value a v false]) := by
  have ha : a ≠ .projectFile := by
    rintro rfl
    cases hn
  let waiting : ArgumentReader := { taken gs with pending := some (a, none), awaiting := true }
  have hword : ("--" ++ name).toList = '-' :: '-' :: name.toList := by simp
  have hname : r.take ("--" ++ name) = .ok waiting := by
    rw [take_long (settle_keeps hr).2.2 hword (ne_nil_of_optionName? hn), long_separate hn, hr]
    rfl
  have hvalue : waiting.take v = .ok { taken gs with pending := some (a, some v) } :=
    take_of_head? rfl (h.sound_last.2.2 (.inr rfl))
  refine ⟨{ taken gs with pending := some (a, some v) }, ?_, give_taken h ha⟩
  rw [List.foldlM_cons, hname]
  change waiting.take v >>= _ = _
  rw [hvalue]
  rfl

theorem takes_flag (hr : r.settle = .ok (taken gs)) (h : Allowed (gs ++ [flag f letter])) :
    Takes r (flag f letter).words (gs ++ [flag f letter]) := by
  have ho : r.onlyFiles = false := (settle_keeps hr).2.2
  have hraise := raise_taken hr h
  cases letter with
  | true =>
    obtain rfl := h.sound_last.2 rfl
    have ht : r.take "-v" = (r.raise .verbose).bind (ArgumentReader.short []) := by
      rw [ArgumentReader.take, ho, if_neg Bool.false_ne_true]
      rfl
    rw [hraise] at ht
    exact takes_word ht rfl
  | false =>
    have hword : ("--" ++ f.name).toList = '-' :: '-' :: f.name.toList := by simp
    have ht : r.take ("--" ++ f.name) = .ok (taken (gs ++ [flag f false])) := by
      rw [take_long ho hword (by cases f <;> decide), long_flag, hraise]
    exact takes_word ht rfl

theorem takes_value (hr : r.settle = .ok (taken gs)) (hn : a.optionName? = some name)
    (h : Allowed (gs ++ [value a v attached])) :
    Takes r (value a v attached).words (gs ++ [value a v attached]) := by
  rw [words, hn]
  cases attached with
  | true => exact takes_attached hr hn h
  | false => exact takes_separate hr hn h

/-- **One more thing given is taken**, whatever has been given before it. -/
theorem takes_words (hr : r.settle = .ok (taken gs)) (h : Allowed (gs ++ [g])) :
    Takes r g.words (gs ++ [g]) := by
  cases g with
  | value a v attached =>
    cases a with
    | projectFile => exact takes_projectFile hr h
    | options => exact takes_value hr rfl h
    | framework => exact takes_value hr rfl h
    | format => exact takes_value hr rfl h
  | flag f letter => exact takes_flag hr h

end Step

/-! ### A whole command line -/

/-- What has been given so far is taken. -/
theorem takes_line (h : Allowed gs) : Takes .start (line gs) gs := by
  induction gs using List.reverseRecOn with
  | nil => exact ⟨.start, rfl, rfl⟩
  | append_singleton gs g ih =>
    obtain ⟨r, hr, hs⟩ := ih h.of_concat
    obtain ⟨r', hr', hs'⟩ := takes_words hs h
    refine ⟨r', ?_, hs'⟩
    rw [line, List.flatMap_append, List.flatMap_singleton, List.foldlM_append]
    change List.foldlM ArgumentReader.take .start (line gs) >>= _ = _
    rw [hr]
    exact hr'

/-- A complete command line is understood as what it asks for. -/
theorem ofList_line {path : String} (h : Allowed gs) (hp : valuesFor .projectFile gs = [path]) :
    Arguments.ofList (line gs) = .ok (asked path gs) := by
  obtain ⟨r, hr, hs⟩ := takes_line h
  have hf : (taken gs).projectFile = some path := by rw [taken, hp, List.head?_cons]
  rw [Arguments.ofList, hr]
  change r.finish = _
  rw [ArgumentReader.finish, hs]
  simp only [bind, Except.bind, hf, pure, Except.pure]
  simp only [taken, asked, List.contains_reverse]

section Reordered

variable {gs' : List Given}

/-- The values of what may be given once do not depend on the order. -/
theorem Allowed.valuesFor_eq_of_perm (h : Allowed gs) (hg : gs'.Perm gs) (ha : a ≠ .framework) :
    valuesFor a gs' = valuesFor a gs := by
  have hperm : (valuesFor a gs').Perm (valuesFor a gs) := hg.filterMap _
  have hlen := h.once a ha
  rcases hv : valuesFor a gs with _ | ⟨v, _ | ⟨w, vs⟩⟩
  · exact List.perm_nil.1 (hv ▸ hperm)
  · exact List.perm_singleton.1 (hv ▸ hperm)
  · rw [hv] at hlen
    exact absurd hlen (by simp)

theorem Allowed.of_perm (h : Allowed gs) (hg : gs'.Perm gs) : Allowed gs' where
  sound g hm := h.sound g (hg.mem_iff.1 hm)
  once a ha := by
    rw [h.valuesFor_eq_of_perm hg ha]
    exact h.once a ha
  nodup := (hg.filterMap flag?).nodup_iff.2 h.nodup

theorem Allowed.asked_eq_of_perm {path : String} (h : Allowed gs) (hg : gs'.Perm gs)
    (hf : valuesFor .framework gs' = valuesFor .framework gs) :
    asked path gs' = asked path gs := by
  have hflags (f : FlagArgument) : (flags gs').contains f = (flags gs).contains f :=
    (hg.filterMap flag?).contains_eq
  rw [asked, asked, hf, h.valuesFor_eq_of_perm hg (by decide),
    h.valuesFor_eq_of_perm hg (by decide), hflags, hflags, hflags]

end Reordered

/-- **Arguments may come in any order.**  A command line with one project file, frameworks, and
anything else at most once, each value attached to its option or in the next word, is understood.
The frameworks are those given, in their order and with repetitions, and each other argument has
the value that was given for it, or that of its absence.  In any other order in which the
frameworks follow one another as before, it comes to the same. -/
theorem arguments_in_any_order {path : String} (h : Allowed gs)
    (hp : valuesFor .projectFile gs = [path]) :
    Arguments.ofList (line gs) = .ok (asked path gs) ∧
    ∀ gs', gs'.Perm gs → valuesFor .framework gs' = valuesFor .framework gs →
      Arguments.ofList (line gs') = Arguments.ofList (line gs) := by
  have hline := ofList_line h hp
  refine ⟨hline, fun gs' hg hf => ?_⟩
  have hp' : valuesFor .projectFile gs' = [path] := by
    rw [h.valuesFor_eq_of_perm hg (by decide), hp]
  rw [hline, ofList_line (h.of_perm hg) hp', h.asked_eq_of_perm hg hf]

/-- Values of both kinds around a project file, one of them with the look of an option. -/
theorem arguments_in_any_order_mixed :
    Arguments.ofList ["--target-framework", "net472", "-v", "Legacy.yaml", "--format=json",
        "--target-framework=--dry-run=net6.0", "--no-append-target-framework"] =
      .ok ⟨"Legacy.yaml", none, ["net472", "--dry-run=net6.0"], true, .json, false, true⟩ ∧
    Arguments.ofList ["Legacy.yaml", "--target-framework", "net472", "--format=json",
        "--no-append-target-framework", "--target-framework=--dry-run=net6.0", "-v"] =
      .ok ⟨"Legacy.yaml", none, ["net472", "--dry-run=net6.0"], true, .json, false, true⟩ := by
  let first : Given := .value .framework "net472" false
  let second : Given := .value .framework "--dry-run=net6.0" true
  let file : Given := .value .projectFile "Legacy.yaml" false
  let json : Given := .value .format "json" true
  let gs : List Given := [first, .flag .verbose true, file, json, second, .flag .noAppend false]
  let gs' : List Given := [file, first, json, .flag .noAppend false, second, .flag .verbose true]
  have hsound : ∀ g ∈ gs, g.Sound := by
    simp only [gs, List.forall_mem_cons]
    exact ⟨⟨by decide, nofun, by decide⟩, ⟨nofun, fun _ => rfl⟩, ⟨by decide, nofun, by decide⟩,
      ⟨by decide, fun _ => ⟨.json, rfl⟩, by decide⟩, ⟨by decide, nofun, by decide⟩, ⟨nofun, nofun⟩,
      nofun⟩
  have honce : ∀ a, a ≠ .framework → (valuesFor a gs).length ≤ 1 := by
    intro a ha
    cases a with
    | framework => exact absurd rfl ha
    | _ => decide
  have hperm : gs'.Perm gs := by decide
  have hfile : valuesFor .projectFile gs = ["Legacy.yaml"] := by decide
  obtain ⟨hline, horder⟩ := arguments_in_any_order ⟨hsound, honce, by decide⟩ hfile
  exact ⟨hline, (horder gs' hperm (by decide)).trans hline⟩

end Given
end Retarget
