/-
# A run on its own output

A run that migrates a project writes it beside the project file.  Take the file it has written
as the project file of a second run, with the same options and the same overrides:

| | first run | second run |
| --- | --- | --- |
| project file | `legacy.json` | `legacy.migrated.json` |
| project | `p` | `p` with its settings made |
| changes | from `p` to that | none |
| written | `legacy.migrated.json` | `legacy.migrated.migrated.json` |
| text | that of the migrated project | the same |

The text is read back as the project that was written (`Scene.loads_again`).  The guard's verdict
on it is the same, and the settings are as the options want them, so no step changes anything
(`Pipeline.migrate_of_settled`).  Both names have one extension, so both texts are of one format.

Each run makes the name longer by the same piece.  A file may have the first name and be refused
the second; then the second run fails, when all that is left to do is the writing
(`Scene.refused_of_long`).
-/

import Retarget.Proofs.ChangeLog
import Retarget.Proofs.FilesKept
import Retarget.Proofs.FrameworkSteps

namespace Retarget

/-! ### Settled projects -/

/-- A run leaves the project settled by its options. -/
theorem Project.migrated_eq_settle (args : Arguments) (o : Options) (p : Project) :
    p.migrated args o = p.settle [args.effective o] := by
  unfold Project.migrated Project.settle Arguments.effective Options.override
  cases args.frameworks <;> cases o.frameworks <;> cases p.frameworks <;>
    cases args.noAppend <;> rfl

/-- A settled project is settled by the same options, whatever file it is in. -/
theorem Project.settle_migrated (args : Arguments) (o : Options) (p : Project) (path : String) :
    (p.migrated args o).settle [{ args with projectFile := path }.effective o] =
      p.migrated args o := by
  rw [migrated_eq_settle]
  exact p.settle_settle [args.effective o]

/-- **What a run makes of its own output is the same project.** -/
theorem Project.migrated_migrated (args : Arguments) (o : Options) (p : Project) (path : String) :
    (p.migrated args o).migrated { args with projectFile := path } o = p.migrated args o :=
  (migrated_eq_settle ..).trans (p.settle_migrated args o path)

namespace Pipeline

variable {steps : Pipeline} {p : Project}

/-- Steps that leave the project as it is have nothing to show. -/
theorem log_of_fixed (h : ∀ t ∈ steps, (t.apply p).project = p) :
    steps.log p = steps.names.map fun name => ⟨name, []⟩ := by
  induction steps with
  | nil => rfl
  | cons t steps ih =>
    obtain ⟨ht, hs⟩ := List.forall_mem_cons.1 h
    have hc : changes p p = [] := changes_eq_nil_iff.2 fun f => .refl f p
    rw [log, ht, hc, ih hs]
    rfl

/-- **A settled project is migrated without a change.** -/
theorem migrate_of_settled {o : Options} (hk : p.unsupportedKind = none) (hs : p.settle [o] = p) :
    (o.pipeline.migrate p).project = p ∧
      ∃ result, (o.pipeline.migrate p).outcome = .ok (.migrated result) ∧
        result.applied = o.pipeline.names.map fun name => ⟨name, []⟩ := by
  obtain ⟨hp, ho, -⟩ := migrate_steps [o] hk
  have hfixed : ∀ t ∈ o.pipeline, (t.apply p).project = p := by
    intro t ht
    obtain rfl := List.mem_singleton.1 ht
    exact (project_apply_step o p).trans hs
  exact ⟨hp.trans hs, _, ho, log_of_fixed hfixed⟩

end Pipeline

/-! ### Runs -/

namespace Scene

open FilePath FileTree OutputName

variable {args : Arguments} {s s' : Scene} {o : Options} {p : Project} {k : Nat}

/-- What a run prints is the report on the migration. -/
theorem printed_run (hl : s.Loads args o p) {result : Completed}
    (hr : ((args.effective o).pipeline.migrate p).outcome = .ok (.migrated result)) :
    ((world.run args).run s).2.printed =
      (s.reported args ((args.effective o).pipeline.migrate p) (.migrated result)).printed := by
  simp only [run_run, hl.options, hl.project, run_migrate, hr]
  cases args.dryRun with
  | true => rfl
  | false =>
    simp only [Bool.false_eq_true, if_false, run_saveMigrated]
    split <;> rfl

/-- **What a run has written is the project of the next**, with the same options. -/
theorem loads_again (hl : s.Loads args o p)
    (hw : s.files.write (candidate args.projectFile k) (migratedText args o p k) = .ok s'.files)
    (hkept : s.files.Keeps s'.files) :
    s'.Loads { args with projectFile := candidate args.projectFile k } o (p.migrated args o) := by
  refine ⟨loadedOptions_of_kept hkept hl.options, ?_⟩
  have hp := hl.project
  rw [loadedProject_eq] at hp ⊢
  rw [read_write hw]
  split at hp
  · cases hp
  · exact ofText_toText hp (isJson_candidate args.projectFile k) rfl

/-- **How a run ends on what another has written.**  If a file can have the name that it finds, it
writes the same text as the other. -/
theorem ends_again (hl : s.Loads args o p) (hk : p.unsupportedKind = none)
    (hd : args.dryRun = false)
    (hw : s.files.write (candidate args.projectFile k) (migratedText args o p k) = .ok s'.files)
    (hkept : s.files.Keeps s'.files) :
    let path := candidate args.projectFile k
    let second := (world.run { args with projectFile := path }).run s'
    ∃ j, IsFirstFree s'.files path j ∧
      let path' := candidate path j
      (fits path' = true ∧ second.1 = .ok true ∧
          s'.files.AddsBeside second.2.files path path'
            (bytesOf ((p.migrated args o).toText path)) ∨
        fits path' = false ∧ second.1 = .error (.output ⟨path', .nameTooLong⟩) ∧
          second.2.files = s'.files) := by
  intro path second
  have hl' := loads_again hl hw hkept
  have hk' : (p.migrated args o).unsupportedKind = none := hk
  obtain ⟨j, hn, hend⟩ := (ends_run { args with projectFile := path } s').of_supported hl' hk' hd
  refine ⟨j, hn, ?_⟩
  rcases hend with ⟨hfits, hr, hw'⟩ | ⟨hfits, -, hr, hf⟩
  · have ht : migratedText { args with projectFile := path } o (p.migrated args o) j =
        (p.migrated args o).toText path := by
      rw [migratedText, p.migrated_migrated]
      exact Project.toText_congr (isJson_candidate path j) _
    exact .inl ⟨hfits, hr, ht ▸ adds_of_write hl' hn hw'⟩
  · exact .inr ⟨hfits, hr, hf⟩

/-- **A second run fails where its output would have too long a name.**  A file can have the first
candidate of the project file, but not the first candidate of that. -/
theorem refused_of_long (hl : s.Loads args o p) (hk : p.unsupportedKind = none)
    (hd : args.dryRun = false) {path path' : String} (h1 : candidate args.projectFile 0 = path)
    (hfree : s.files.exists? path = false) (hfits : fits path = true)
    (h2 : candidate path 0 = path') (hlong : fits path' = false) :
    let first := (world.run args).run s
    first.1 = .ok true ∧
      (∃ content, s.files.AddsBeside first.2.files args.projectFile path content) ∧
      ∀ s' : Scene, s'.files = first.2.files →
        let second := (world.run { args with projectFile := path }).run s'
        second.1 = .error (.output ⟨path', .nameTooLong⟩) ∧ second.2.files = s'.files := by
  intro first
  subst h1 h2
  have hends : Ends args s first.1 first.2.files := ends_run args s
  obtain ⟨k, hn, hend⟩ := hends.of_supported hl hk hd
  obtain rfl : k = 0 := hn.unique (isFirstFree_zero hfree)
  rcases hend with ⟨-, hr, hw⟩ | ⟨hf, -⟩
  · refine ⟨hr, ⟨_, adds_of_write hl hn hw⟩, ?_⟩
    intro s' hs'
    have hkept : s.files.Keeps s'.files := hs' ▸ hends.keeps
    obtain ⟨j, hn', hend'⟩ := ends_again hl hk hd (hs' ▸ hw) hkept
    -- The first candidate of the output does not exist: no file can have that name.
    obtain ⟨dir, name, content, hf, he⟩ := (loads_again hl (hs' ▸ hw) hkept).exists_file
    obtain rfl : j = 0 := hn'.unique (isFirstFree_zero (not_exists_of_not_fits hf he hlong))
    rcases hend' with ⟨hf', -⟩ | ⟨-, hend'⟩
    · exact absurd (hf'.symm.trans hlong) (by simp)
    · exact hend'
  · exact absurd (hf.symm.trans hfits) (by simp)

/-! ### A name that grows too long -/

/-- The stem of a long name: 236 letters, and behind them what each output adds. -/
def longStem : (outputs : Nat) → List Char
  | 0 => List.replicate 236 'a'
  | outputs + 1 => longStem outputs ++ ".migrated".toList

/-- The name of the project file itself, of its output, of the output's output, and so on. -/
def longName (outputs : Nat) : String := String.ofList (longStem outputs ++ '.' :: "json".toList)

/-- Files with a project under the first of these names, in the working directory. -/
def longNameFiles : FileTree where
  workingDirectory := ["srv"]
  entries := [(["srv"], .directory),
    (["srv", longName 0], .file (bytesOf (Json.render Project.layered.tree)))]

theorem length_longStem (outputs : Nat) : (longStem outputs).length = 236 + 9 * outputs := by
  induction outputs with
  | zero => exact List.length_replicate
  | succ n ih =>
    have hm : ".migrated".toList.length = 9 := rfl
    rw [longStem, List.length_append, ih, hm]
    omega

theorem longStem_ne_nil (outputs : Nat) : longStem outputs ≠ [] := by
  intro h
  have hl := length_longStem outputs
  rw [h, List.length_nil] at hl
  omega

/-- What holds of the letter, and of the characters in `.migrated.json`, holds of all characters in
the names. -/
theorem of_mem_longName (property : Char → Bool) (ha : property 'a' = true)
    (hm : ".migrated.json".toList.all property = true) {outputs : Nat} {c : Char}
    (hc : c ∈ longStem outputs ++ '.' :: "json".toList) : property c = true := by
  have he : ".migrated.json".toList = ".migrated".toList ++ '.' :: "json".toList := rfl
  rw [he, List.all_append, Bool.and_eq_true] at hm
  have hs (n : Nat) : (longStem n).all property = true := by
    induction n with
    | zero => exact List.all_eq_true.2 fun c hc => List.eq_of_mem_replicate hc ▸ ha
    | succ n ih =>
      rw [longStem, List.all_append, hm.1, Bool.and_true]
      exact ih
  rcases List.mem_append.1 hc with hc | hc
  · exact List.all_eq_true.1 (hs outputs) c hc
  · exact List.all_eq_true.1 hm.2 c hc

theorem isName_longName (outputs : Nat) : IsName (longStem outputs ++ '.' :: "json".toList) := by
  have hs : '/' ∉ longStem outputs ++ '.' :: "json".toList := fun h =>
    absurd (of_mem_longName (· != '/') rfl rfl h) (by decide)
  have hl : 2 < (longStem outputs ++ '.' :: "json".toList).length := by
    rw [List.length_append, length_longStem]
    omega
  refine ⟨hs, ?_, ?_, ?_⟩ <;>
  · intro h
    rw [h] at hl
    exact absurd hl (by decide)

/-- An output has the next of the names. -/
theorem candidate_longName (outputs : Nat) :
    candidate (longName outputs) 0 = longName (outputs + 1) := by
  have ht : tag 0 ++ "json".toList = ".migrated".toList ++ '.' :: "json".toList := rfl
  rw [longName, candidate_of_isName (isName_longName outputs) (longStem_ne_nil outputs) (by decide),
    List.append_assoc, ht, longName, longStem, List.append_assoc]

/-- A file can have the first two of the names: they have 241 bytes, 250 bytes, 259 bytes, …. -/
theorem fits_longName (outputs : Nat) : fits (longName outputs) = true ↔ outputs ≤ 1 := by
  have hone : ∀ c ∈ longStem outputs ++ '.' :: "json".toList, c.utf8Size = 1 := fun c hc =>
    beq_iff_eq.1 (of_mem_longName (·.utf8Size == 1) rfl rfl hc)
  have hn : name? (longName outputs).toList = some (longStem outputs ++ '.' :: "json".toList) := by
    rw [longName, String.toList_ofList]
    exact name?_of_isName (isName_longName outputs)
  have hj : ('.' :: "json".toList).length = 5 := rfl
  rw [fits_iff hn, longName, utf8ByteSize_ofList hone, List.length_append, length_longStem, hj]
  omega

theorem longName_ne {i j : Nat} (h : i ≠ j) : longName i ≠ longName j := by
  intro he
  have hl := congrArg (fun name => name.toList.length) he
  simp only [longName, String.toList_ofList, List.length_append, length_longStem] at hl
  omega

theorem follow_longName {outputs : Nat} (h : outputs ≤ 1) :
    longNameFiles.follow (longName outputs) = .ok ["srv", longName outputs] := by
  have h0 : '\x00' ∉ longStem outputs ++ '.' :: "json".toList := fun hm =>
    absurd (of_mem_longName (· != '\x00') rfl rfl hm) (by decide)
  exact follow_name rfl (isName_longName outputs) h0 ((fits_longName outputs).2 h)

theorem loadedProject_longNameFiles :
    (ofFiles longNameFiles).loadedProject (longName 0) = .ok .layered := by
  have he : longNameFiles.entry? ["srv", longName 0] =
      some (.file (bytesOf (Json.render Project.layered.tree))) := by
    simp [longNameFiles, entry?, List.lookup_cons]
  have hj : isJson (longName 0) = true := by
    have hext : extension? (longName 0).toList = some "json".toList := by
      rw [longName, String.toList_ofList, extension?, name?_of_isName (isName_longName 0),
        Option.bind_some, split_append (longStem_ne_nil 0) (by decide)]
    rw [isJson, hext]
    decide
  exact loadedProject_of_file (follow_longName (Nat.zero_le 1)) he hj (by decide)

theorem exists?_longNameFiles : longNameFiles.exists? (longName 1) = false := by
  have hn : (longName 1 == longName 0) = false := beq_eq_false_iff_ne.2 (longName_ne (by decide))
  have he : longNameFiles.entry? ["srv", longName 1] = none := by
    simp [longNameFiles, entry?, List.lookup_cons, hn]
  rw [exists?, follow_longName (Nat.le_refl 1)]
  simp only [he, Option.isSome_none]

/-! ### The second run -/

/-- **A run on its own output writes the same again.**  Take a run that has migrated a project and
has written it, and run the program once more on the file that is new, with all other arguments
the same.  The second run reads the same options and the project that was written, and migrates
it: each step has an entry without changes, the project stays what it was, and the report says so.
The name it finds is neither that of the first output nor that of the first input.  Where a file
can have that name, the run succeeds and adds a file with the content of the first output, beside
it; where the name or its path is too long for a file, the run fails with that, and the files stay
as they are. -/
theorem second_run_writes_same (args : Arguments) (s : Scene) (hd : args.dryRun = false)
    (hr : ((world.run args).run s).1 = .ok true) :
    let first := (world.run args).run s
    ∃ o p k, s.Loads args o p ∧ IsFirstFree s.files args.projectFile k ∧
      let q := p.migrated args o
      let path := candidate args.projectFile k
      let content := bytesOf (q.toText path)
      s.files.AddsBeside first.2.files args.projectFile path content ∧
      ∀ s' : Scene, s'.files = first.2.files →
        let again := { args with projectFile := path }
        let second := (world.run again).run s'
        let ran := (again.effective o).pipeline.migrate q
        s'.Loads again o q ∧ ran.project = q ∧
        (∃ result, ran.outcome = .ok (.migrated result) ∧
          result.applied = (again.effective o).pipeline.names.map (fun name => ⟨name, []⟩) ∧
          second.2.printed = (s'.reported again ran (.migrated result)).printed) ∧
        ∃ j, let path' := candidate path j
          IsFirstFree s'.files path j ∧ path' ≠ path ∧ path' ≠ args.projectFile ∧
          (FilePath.fits path' = true ∧ second.1 = .ok true ∧
              s'.files.AddsBeside second.2.files path path' content ∨
            FilePath.fits path' = false ∧ second.1 = .error (.output ⟨path', .nameTooLong⟩) ∧
              second.2.files = s'.files) := by
  intro first
  have hends : Ends args s (.ok true) first.2.files := hr ▸ ends_run args s
  obtain ⟨o, p, k, hl, hk, hn, hw⟩ := hends.of_true hd
  refine ⟨o, p, k, hl, hn, adds_of_write hl hn hw, ?_⟩
  intro s' hs' again second ran
  have hkept : s.files.Keeps s'.files := hs' ▸ hends.keeps
  have hl' : s'.Loads again o (p.migrated args o) := loads_again hl (hs' ▸ hw) hkept
  -- Settled by the first run, the project is not changed by the second.
  obtain ⟨hproject, result, hout, happlied⟩ :=
    Pipeline.migrate_of_settled (p := p.migrated args o) hk (p.settle_migrated args o _)
  obtain ⟨j, hn', hend⟩ := ends_again hl hk hd (hs' ▸ hw) hkept
  have hfirst : s'.files.exists? again.projectFile = true := hl'.exists_project
  have hinput : s'.files.exists? args.projectFile = true := hkept.exists? hl.exists_project
  exact ⟨hl', hproject, ⟨result, hout, happlied, printed_run hl' hout⟩,
    j, hn', hn'.ne_of_exists hfirst, hn'.ne_of_exists hinput, hend⟩

/-- A project that is found by a path out of the working directory, written twice. -/
theorem second_run_writes_same_layered :
    let args : Arguments :=
      ⟨"../../srv/Legacy.json", some "/home/shared.yaml", [], true, .console, false, false⟩
    let path := "../../srv/Legacy.migrated.json"
    let s := ofFiles layeredFiles
    let first := (world.run args).run s
    let s' := ofFiles first.2.files
    let second := (world.run { args with projectFile := path }).run s'
    args.dryRun = false ∧ first.1 = .ok true ∧ second.1 = .ok true ∧
      ∃ content, s.files.AddsBeside first.2.files args.projectFile path content ∧
        s'.files.AddsBeside second.2.files path "../../srv/Legacy.migrated.migrated.json"
          content := by
  intro args path s
  have hd : args.dryRun = false := rfl
  have hl : s.Loads args sharedOptions .layered :=
    ⟨loadedOptions_layeredFiles (by decide), loadedProject_layeredFiles (by decide) (by decide)⟩
  have h1 : candidate args.projectFile 0 = path := by decide
  have h2 : candidate path 0 = "../../srv/Legacy.migrated.migrated.json" := by decide
  have hfree : s.files.exists? (candidate args.projectFile 0) = false := by decide
  have hr : ((world.run args).run s).1 = .ok true := by
    obtain ⟨k, hn, ⟨-, hr, -⟩ | ⟨hlong, -⟩⟩ :=
      (ends_run args s).of_supported hl unsupportedKind_layered hd
    · exact hr
    · obtain rfl : k = 0 := hn.unique (isFirstFree_zero hfree)
      exact absurd hlong (by decide)
  obtain ⟨o, p, k, -, hn, hadds, hagain⟩ := second_run_writes_same args s hd hr
  obtain rfl : k = 0 := hn.unique (isFirstFree_zero hfree)
  rw [h1] at hadds hagain
  obtain ⟨-, -, -, j, hn', -, -, hend⟩ := hagain _ (files_ofFiles _)
  have hfree' : (ofFiles ((world.run args).run s).2.files).files.exists? (candidate path 0) =
      false := by
    obtain ⟨dir, name, new, -, hf, ha⟩ := hadds
    have hnew : dir ++ [new] = ["srv", "Legacy.migrated.json"] := by
      have hp : s.files.follow path = .ok ["srv", "Legacy.migrated.json"] := by decide
      exact Except.ok.inj (hf.symm.trans hp)
    rw [hnew] at ha
    have hq : s.files.follow "../../srv/Legacy.migrated.migrated.json" =
        .ok ["srv", "Legacy.migrated.migrated.json"] := by decide
    rw [h2, exists?, files_ofFiles, ha.keeps.keepsDirectories.follow hq]
    simp only [ha.others ["srv", "Legacy.migrated.migrated.json"] (by decide)]
    decide
  obtain rfl : j = 0 := hn'.unique (isFirstFree_zero hfree')
  rw [h2] at hend
  rcases hend with ⟨-, hr', hadds'⟩ | ⟨hlong, -⟩
  · exact ⟨hd, hr, hr', _, hadds, hadds'⟩
  · exact absurd hlong (by decide)

/-- **A second run can fail where the first did not.**  The first run finds a name of 250 bytes and
writes it.  The second finds one of 259, which no file can have. -/
theorem second_run_refused :
    let args : Arguments := ⟨longName 0, none, ["net8.0"], false, .console, false, false⟩
    let s := ofFiles longNameFiles
    let first := (world.run args).run s
    let s' := ofFiles first.2.files
    let second := (world.run { args with projectFile := longName 1 }).run s'
    args.dryRun = false ∧ first.1 = .ok true ∧
      (∃ content, s.files.AddsBeside first.2.files args.projectFile (longName 1) content) ∧
      second.1 = .error (.output ⟨longName 2, .nameTooLong⟩) ∧ second.2.files = s'.files := by
  intro args s
  have hl : s.Loads args .standard .layered := ⟨rfl, loadedProject_longNameFiles⟩
  have hfree : s.files.exists? (longName 1) = false := exists?_longNameFiles
  have hd : args.dryRun = false := rfl
  have h1 : candidate args.projectFile 0 = longName 1 := candidate_longName 0
  have h2 : candidate (longName 1) 0 = longName 2 := candidate_longName 1
  have hfits : fits (longName 1) = true := (fits_longName 1).2 (by omega)
  have hlong : fits (longName 2) = false :=
    Bool.eq_false_iff.2 fun h => absurd ((fits_longName 2).1 h) (by omega)
  obtain ⟨hr, hw, hagain⟩ := refused_of_long hl unsupportedKind_layered hd h1 hfree hfits
    h2 hlong
  exact ⟨hd, hr, hw, hagain _ (files_ofFiles _)⟩

end Scene
end Retarget
