/-
# A run keeps the files it finds

A run ends in one of six ways (`Scene.Ends`).  Each has its place in the order in which a run
goes about its work, and only the last one comes after the writing:

| the run ends because | it comes to | files |
| --- | --- | --- |
| the options cannot be had | a failure | as they were |
| the project cannot be read | a failure | as they were |
| the guard refuses the project | `false` | as they were |
| only the report is asked for | `true` | as they were |
| no file can be created under the name that was found | a failure | as they were |
| the migrated project was written | `true` | one more |

The file that is new has a name that was free, so nothing that was there is written over; and
the name is one in the directory of the project file (`OutputName.write_candidate`).
-/

import Retarget.Proofs.OutputPlace
import Retarget.Proofs.Pipeline
import Retarget.Proofs.Run

namespace Retarget
namespace Scene

variable {args : Arguments} {s : Scene} {o : Options} {p : Project}

/-- The options and the project of a run can be read. -/
structure Loads (s : Scene) (args : Arguments) (o : Options) (p : Project) : Prop where
  options : s.loadedOptions args.options = .ok o
  project : s.loadedProject args.projectFile = .ok p

/-- A scene has one project, and one set of options, for a run. -/
theorem Loads.unique {o' : Options} {p' : Project} (h : s.Loads args o p)
    (h' : s.Loads args o' p') : o' = o ∧ p' = p :=
  ⟨Except.ok.inj (h'.options.symm.trans h.options),
    Except.ok.inj (h'.project.symm.trans h.project)⟩

/-- A project that can be read is a file in some directory. -/
theorem Loads.exists_file (h : s.Loads args o p) :
    ∃ dir name content, s.files.follow args.projectFile = .ok (dir ++ [name]) ∧
      s.files.entry? (dir ++ [name]) = some (.file content) := by
  have hp := h.project
  rw [loadedProject_eq] at hp
  split at hp
  · cases hp
  · rename_i hr
    obtain ⟨l, content, hf, he⟩ := FileTree.exists_file_of_read hr
    rcases List.eq_nil_or_concat l with rfl | ⟨dir, name, rfl⟩
    · cases he
    · rw [List.concat_eq_append] at hf he
      exact ⟨dir, name, content, hf, he⟩

/-- The project file of a run exists. -/
theorem Loads.exists_project (h : s.Loads args o p) : s.files.exists? args.projectFile = true := by
  obtain ⟨dir, name, content, hf, he⟩ := h.exists_file
  rw [FileTree.exists?, hf]
  simp only [he, Option.isSome_some]

/-- The options and the project of a run can be read as long as everything that was there stays. -/
theorem Loads.of_kept {s' : Scene} (h : s.Loads args o p) (hkept : s.files.Keeps s'.files) :
    s'.Loads args o p :=
  ⟨loadedOptions_of_kept hkept h.options, loadedProject_of_kept hkept h.project⟩

/-- The options and the project of a run can be read, and the project is migrated. -/
structure Migrates (s : Scene) (args : Arguments) (o : Options) (p : Project) : Prop
    extends Loads s args o p where
  migrated : ∃ result, ((args.effective o).pipeline.migrate p).outcome = .ok (.migrated result)

theorem migrates_iff : s.Migrates args o p ↔ s.Loads args o p ∧ p.unsupportedKind = none := by
  constructor
  · rintro ⟨hl, result, hr⟩
    refine ⟨hl, Option.eq_none_iff_forall_ne_some.2 fun kind hk => ?_⟩
    rw [Pipeline.migrate_of_unsupported hk] at hr
    cases hr
  · exact fun ⟨hl, hk⟩ => ⟨hl, (migrate_pipeline _ hk).2⟩

/-- The text that a run writes to the candidate with a number. -/
def migratedText (args : Arguments) (o : Options) (p : Project) (k : Nat) : String :=
  (p.migrated args o).toText (OutputName.candidate args.projectFile k)

/-- How a run ends: what it comes to, and the files that it leaves. -/
inductive Ends (args : Arguments) (s : Scene) : Except RunError Bool → FileTree → Prop
  | options {e : OptionsError} (h : s.loadedOptions args.options = .error e) :
      Ends args s (.error (.options e)) s.files
  | project {o : Options} {e : ProjectError} (ho : s.loadedOptions args.options = .ok o)
      (h : s.loadedProject args.projectFile = .error e) : Ends args s (.error (.project e)) s.files
  | rejected {o : Options} {p : Project} {kind : ProjectKind} (hl : s.Loads args o p)
      (h : p.unsupportedKind = some kind) : Ends args s (.ok false) s.files
  | shown {o : Options} {p : Project} (hl : s.Loads args o p) (hk : p.unsupportedKind = none)
      (hd : args.dryRun = true) : Ends args s (.ok true) s.files
  | refused {o : Options} {p : Project} {k : Nat} {e : FileError} (hl : s.Loads args o p)
      (hk : p.unsupportedKind = none) (hd : args.dryRun = false)
      (hn : OutputName.IsFirstFree s.files args.projectFile k)
      (hw : s.files.write (OutputName.candidate args.projectFile k) (migratedText args o p k) =
        .error e) :
      Ends args s (.error (.output ⟨OutputName.candidate args.projectFile k, e⟩)) s.files
  | written {o : Options} {p : Project} {k : Nat} {files : FileTree} (hl : s.Loads args o p)
      (hk : p.unsupportedKind = none) (hd : args.dryRun = false)
      (hn : OutputName.IsFirstFree s.files args.projectFile k)
      (hw : s.files.write (OutputName.candidate args.projectFile k) (migratedText args o p k) =
        .ok files) :
      Ends args s (.ok true) files

/-- Every run ends in one of these ways. -/
theorem ends_run (args : Arguments) (s : Scene) :
    Ends args s ((world.run args).run s).1 ((world.run args).run s).2.files := by
  rw [run_run]
  cases ho : s.loadedOptions args.options with
  | error e => exact .options ho
  | ok o =>
    cases hp : s.loadedProject args.projectFile with
    | error e => exact .project ho hp
    | ok p =>
      have hl : s.Loads args o p := ⟨ho, hp⟩
      simp only [run_migrate]
      cases hk : p.unsupportedKind with
      | some kind =>
        rw [Pipeline.migrate_of_unsupported hk]
        exact .rejected hl hk
      | none =>
        obtain ⟨result, hr⟩ := (migrate_pipeline (args.effective o) hk).2
        simp only [hr, project_migrate_effective args o hk]
        cases hd : args.dryRun with
        | true => exact .shown hl hk hd
        | false =>
          obtain ⟨k, hu, hn⟩ := OutputName.exists_free s.files args.projectFile
          simp only [Bool.false_eq_true, if_false, run_saveMigrated, reported, logged, hu]
          cases hw : s.files.write (OutputName.candidate args.projectFile k)
              (migratedText args o p k) with
          | error e =>
            rw [migratedText] at hw
            simp only [hw]
            exact .refused hl hk hd hn hw
          | ok files =>
            rw [migratedText] at hw
            simp only [hw]
            exact .written hl hk hd hn hw

/-! ### What each end leaves -/

variable {r : Except RunError Bool} {files : FileTree}

/-- The file that a run writes is new, and beside the project file. -/
theorem adds_of_write (hl : s.Loads args o p) {k : Nat} {text : String}
    (hn : OutputName.IsFirstFree s.files args.projectFile k)
    (hw : s.files.write (OutputName.candidate args.projectFile k) text = .ok files) :
    s.files.AddsBeside files args.projectFile (OutputName.candidate args.projectFile k)
      (FileTree.bytesOf text) := by
  obtain ⟨dir, name, content, hf, he⟩ := hl.exists_file
  rcases OutputName.write_candidate hf he hn.free with ⟨-, new, hfree, hc, hput⟩ | ⟨-, hlong⟩
  · rw [hput] at hw
    exact ⟨dir, name, new, hf, hc, Except.ok.inj hw ▸ FileTree.adds_put hfree _⟩
  · rw [hlong] at hw
    cases hw

/-- A run leaves the files as they are unless it migrates a project and is asked for more than
the report. -/
theorem Ends.unchanged (h : Ends args s r files)
    (hm : ¬ ∃ o p, s.Migrates args o p ∧ args.dryRun = false) : files = s.files := by
  cases h with
  | written hl hk hd => exact absurd ⟨_, _, migrates_iff.2 ⟨hl, hk⟩, hd⟩ hm
  | _ => rfl

/-- What was there before a run is there after it. -/
theorem Ends.keeps (h : Ends args s r files) : s.files.Keeps files := by
  cases h with
  | written hl hk hd hn hw =>
    obtain ⟨dir, name, new, -, -, ha⟩ := adds_of_write hl hn hw
    exact ha.keeps
  | _ => exact .refl _

/-- How a run ends that has its options and its project. -/
theorem Ends.of_loads (h : Ends args s r files) (hl : s.Loads args o p) :
    (∃ kind, p.unsupportedKind = some kind) ∧ r = .ok false ∨
    p.unsupportedKind = none ∧ args.dryRun = true ∧ r = .ok true ∨
    p.unsupportedKind = none ∧ args.dryRun = false ∧
      ∃ k, OutputName.IsFirstFree s.files args.projectFile k ∧
        let path := OutputName.candidate args.projectFile k
        (s.files.write path (migratedText args o p k) = .ok files ∧ r = .ok true ∨
          ∃ e, s.files.write path (migratedText args o p k) = .error e ∧
            r = .error (.output ⟨path, e⟩) ∧ files = s.files) := by
  cases h with
  | options ho => exact absurd (ho.symm.trans hl.options) (by simp)
  | project ho hp => exact absurd (hp.symm.trans hl.project) (by simp)
  | rejected hl' hk =>
    obtain ⟨rfl, rfl⟩ := hl.unique hl'
    exact .inl ⟨⟨_, hk⟩, rfl⟩
  | shown hl' hk hd =>
    obtain ⟨rfl, rfl⟩ := hl.unique hl'
    exact .inr (.inl ⟨hk, hd, rfl⟩)
  | refused hl' hk hd hn hw =>
    obtain ⟨rfl, rfl⟩ := hl.unique hl'
    exact .inr (.inr ⟨hk, hd, _, hn, .inr ⟨_, hw, rfl, rfl⟩⟩)
  | written hl' hk hd hn hw =>
    obtain ⟨rfl, rfl⟩ := hl.unique hl'
    exact .inr (.inr ⟨hk, hd, _, hn, .inl ⟨hw, rfl⟩⟩)

/-- A run that comes to `true`, and is asked for more than the report, has written the migrated
project. -/
theorem Ends.of_true (h : Ends args s (.ok true) files) (hd : args.dryRun = false) :
    ∃ o p k, s.Loads args o p ∧ p.unsupportedKind = none ∧
      OutputName.IsFirstFree s.files args.projectFile k ∧
      s.files.write (OutputName.candidate args.projectFile k) (migratedText args o p k) =
        .ok files := by
  cases h with
  | shown hl hk hd' => exact absurd (hd.symm.trans hd') (by simp)
  | written hl hk hd' hn hw => exact ⟨_, _, _, hl, hk, hn, hw⟩

/-- A run comes to `false` where the guard refuses the project. -/
theorem Ends.eq_false_iff (h : Ends args s r files) :
    r = .ok false ↔ ∃ o p kind, s.Loads args o p ∧ p.unsupportedKind = some kind := by
  constructor
  · rintro rfl
    cases h with
    | rejected hl hk => exact ⟨_, _, _, hl, hk⟩
  · rintro ⟨o, p, kind, hl, hk⟩
    rcases h.of_loads hl with ⟨-, hr⟩ | ⟨hk', -⟩ | ⟨hk', -⟩
    · exact hr
    · exact absurd (hk.symm.trans hk') (by simp)
    · exact absurd (hk.symm.trans hk') (by simp)

/-- A run on a project that the guard lets pass, asked for more than the report, writes the migrated
project if a file can have the name that was found, and fails otherwise. -/
theorem Ends.of_supported (h : Ends args s r files) (hl : s.Loads args o p)
    (hk : p.unsupportedKind = none) (hd : args.dryRun = false) :
    ∃ k, OutputName.IsFirstFree s.files args.projectFile k ∧
      let path := OutputName.candidate args.projectFile k
      (FilePath.fits path = true ∧ r = .ok true ∧
          s.files.write path (migratedText args o p k) = .ok files ∨
        FilePath.fits path = false ∧ (∀ text, s.files.write path text = .error .nameTooLong) ∧
          r = .error (.output ⟨path, .nameTooLong⟩) ∧ files = s.files) := by
  obtain ⟨dir, name, content, hin, he⟩ := hl.exists_file
  rcases h.of_loads hl with ⟨⟨kind, hk'⟩, -⟩ | ⟨-, hd', -⟩ | ⟨-, -, k, hn, hend⟩
  · exact absurd (hk'.symm.trans hk) (by simp)
  · exact absurd (hd'.symm.trans hd) (by simp)
  refine ⟨k, hn, ?_⟩
  rcases OutputName.write_candidate hin he hn.free with ⟨hfits, new, -, -, hput⟩ | ⟨hfits, hlong⟩
  · rcases hend with ⟨hw, hr⟩ | ⟨e, hw, -, -⟩
    · exact .inl ⟨hfits, hr, hw⟩
    · rw [hput] at hw
      cases hw
  · rcases hend with ⟨hw, -⟩ | ⟨e, hw, hr, hf⟩
    · rw [hlong] at hw
      cases hw
    · obtain rfl := Except.error.inj (hw.symm.trans (hlong _))
      exact .inr ⟨hfits, hlong, hr, hf⟩

/-- A run that migrates a project, and is asked for more than the report, adds a file beside the
project file, or fails because no file can have the name that was found. -/
theorem Ends.of_migrates (h : Ends args s r files) (hm : s.Migrates args o p)
    (hd : args.dryRun = false) :
    ∃ k, OutputName.IsFirstFree s.files args.projectFile k ∧
      let path := OutputName.candidate args.projectFile k
      (FilePath.fits path = true ∧ r = .ok true ∧
          s.files.AddsBeside files args.projectFile path
            (FileTree.bytesOf (migratedText args o p k)) ∨
        FilePath.fits path = false ∧ (∀ text, s.files.write path text = .error .nameTooLong) ∧
          r = .error (.output ⟨path, .nameTooLong⟩) ∧ files = s.files) := by
  obtain ⟨hl, hk⟩ := migrates_iff.1 hm
  obtain ⟨k, hn, ⟨hfits, hr, hw⟩ | hend⟩ := h.of_supported hl hk hd
  · exact ⟨k, hn, .inl ⟨hfits, hr, adds_of_write hl hn hw⟩⟩
  · exact ⟨k, hn, .inr hend⟩

/-- **A run keeps the files it finds.**  It creates a file only where a project is migrated and
more than the report is asked for: one file, under the first candidate that does not exist, in
the directory of the project file, unless the name is too long for any file.  In all other cases
the files stay as they are.  A run comes to `false` exactly where the guard refuses the
project. -/
theorem run_keeps_files (args : Arguments) (s : Scene) :
    let ran := (world.run args).run s
    s.files.Keeps ran.2.files ∧
    (∀ path text, s.files.read path = .ok text → ran.2.files.read path = .ok text) ∧
    ((¬ ∃ o p, s.Migrates args o p ∧ args.dryRun = false) → ran.2.files = s.files) ∧
    (∀ o p, s.Migrates args o p → args.dryRun = false →
      ∃ k, OutputName.IsFirstFree s.files args.projectFile k ∧
        let path := OutputName.candidate args.projectFile k
        (FilePath.fits path = true ∧ ran.1 = .ok true ∧
            s.files.AddsBeside ran.2.files args.projectFile path
              (FileTree.bytesOf (migratedText args o p k)) ∨
          FilePath.fits path = false ∧ (∀ text, s.files.write path text = .error .nameTooLong) ∧
            ran.1 = .error (.output ⟨path, .nameTooLong⟩) ∧ ran.2.files = s.files)) ∧
    (ran.1 = .ok false ↔ ∃ o p kind, s.Loads args o p ∧ p.unsupportedKind = some kind) := by
  intro ran
  have h : Ends args s ran.1 ran.2.files := ends_run args s
  exact ⟨h.keeps, fun path text => h.keeps.read, h.unchanged, fun o p => h.of_migrates,
    h.eq_false_iff⟩

/-- Files with a project and options, and the first name for the output taken. -/
def takenFiles : FileTree := layeredFiles.put ["srv", "Legacy.migrated.json"] (.file [])

theorem takenFiles_adds : layeredFiles.Adds takenFiles ["srv", "Legacy.migrated.json"] [] :=
  FileTree.adds_put (by decide) []

/-- The file under the first name stays, and the project is written under the second; both are
found by paths out of the working directory. -/
theorem run_keeps_files_taken :
    let args : Arguments :=
      ⟨"../../srv/./Legacy.json", some "/home/shared.yaml", [], true, .console, false, false⟩
    let ran := (world.run args).run (ofFiles takenFiles)
    let shown := (world.run { args with dryRun := true }).run (ofFiles takenFiles)
    ran.1 = .ok true ∧
      ran.2.files.entry? ["srv", "Legacy.migrated.json"] = some (.file []) ∧
      ran.2.files.read args.projectFile = .ok (Json.render Project.layered.tree) ∧
      (∃ content, takenFiles.Adds ran.2.files ["srv", "Legacy.migrated-1.json"] content) ∧
      shown.2.files = takenFiles := by
  intro args
  have hf : layeredFiles.follow args.projectFile = .ok ["srv", "Legacy.json"] := by decide
  have hkept : (ofFiles layeredFiles).files.Keeps (ofFiles takenFiles).files :=
    takenFiles_adds.keeps
  have hm : (ofFiles takenFiles).Migrates args sharedOptions .layered := by
    have hl : (ofFiles layeredFiles).Loads args sharedOptions .layered :=
      ⟨loadedOptions_layeredFiles (by decide), loadedProject_layeredFiles hf (by decide)⟩
    exact migrates_iff.2 ⟨hl.of_kept hkept, unsupportedKind_layered⟩
  have h0 : takenFiles.exists? (OutputName.candidate args.projectFile 0) = true := by decide
  have h1 : takenFiles.follow (OutputName.candidate args.projectFile 1) =
      .ok ["srv", "Legacy.migrated-1.json"] := by decide
  have hfree : takenFiles.exists? (OutputName.candidate args.projectFile 1) = false := by decide
  obtain ⟨hkeeps, hread, -, hnew, -⟩ := run_keeps_files args (ofFiles takenFiles)
  obtain ⟨-, -, hdry, -⟩ := run_keeps_files { args with dryRun := true } (ofFiles takenFiles)
  obtain ⟨k, hn, hend⟩ := hnew _ _ hm rfl
  -- The second candidate is the first that is free.
  obtain rfl : k = 1 := by
    refine hn.unique ⟨fun i hi => ?_, hfree⟩
    obtain rfl : i = 0 := by omega
    exact h0
  have hinput : takenFiles.read args.projectFile = .ok (Json.render Project.layered.tree) :=
    takenFiles_adds.keeps.read (FileTree.read_of_file hf rfl)
  obtain ⟨-, hr, dir, name, new, -, hpath, ha⟩ | ⟨hlong, -⟩ := hend
  · have hlast : dir ++ [new] = ["srv", "Legacy.migrated-1.json"] :=
      Except.ok.inj (hpath.symm.trans h1)
    rw [hlast] at ha
    exact ⟨hr, hkeeps.entries _ _ takenFiles_adds.added, hread _ _ hinput, ⟨_, ha⟩,
      hdry (by simp)⟩
  · exact absurd hlong (by decide)

end Scene
end Retarget
