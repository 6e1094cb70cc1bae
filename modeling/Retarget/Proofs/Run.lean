/-
# What a run writes

A run that gets to the end writes one file, under the name that the search found, and the
file is read back as the migrated project.  Everything before the writing leaves the files
alone: reading does, and so do the log and the report.
-/

import Retarget.Proofs.Json.RoundTrip
import Retarget.Proofs.OutputPlace
import Retarget.Proofs.Yaml.RoundTrip
import Retarget.Run

namespace Retarget

/-- The options of a run that starts from the ones given. -/
def Arguments.effective (args : Arguments) (o : Options) : Options :=
  o.override args.frameworks (if args.noAppend then some false else none)

/-! ### Scenes -/

namespace Scene

/-- The options that a run starts from: those in the file, or the standard ones. -/
def loadedOptions (s : Scene) : Option String → Except OptionsError Options
  | none => .ok .standard
  | some path => ((world.loadOptions path).run s).1

/-- What reading the project at a path comes to. -/
def loadedProject (s : Scene) (path : String) : Except ProjectError Project :=
  ((world.loadProject path).run s).1

/-- The scene after some entries were added to the log. -/
def logged (s : Scene) (entries : List LogEntry) : Scene :=
  { s with entries := s.entries ++ entries }

theorem files_ofFiles (files : FileTree) : (ofFiles files).files = files := rfl

/-! ### What each action does -/

theorem run_bind {α β : Type} (action : StateM Scene α) (next : α → StateM Scene β) (s : Scene) :
    (action >>= next).run s = (next (action.run s).1).run (action.run s).2 := rfl

theorem run_pure {α : Type} (x : α) (s : Scene) : (pure x : StateM Scene α).run s = (x, s) := rfl

theorem run_read (path : String) (s : Scene) :
    (world.read path).run s = (s.files.read path, s) := rfl

theorem run_log (entry : LogEntry) (s : Scene) :
    (world.log entry).run s = ((), s.logged [entry]) := rfl

theorem run_print (text : String) (s : Scene) :
    (world.print text).run s = ((), { s with printed := s.printed ++ text }) := rfl

theorem run_write (path text : String) (s : Scene) : (world.write path text).run s =
    match s.files.write path text with
    | .error e => (.error e, s)
    | .ok files => (.ok (), { s with files }) := by
  have hg : (get : StateM Scene Scene).run s = (s, s) := rfl
  simp only [world, run_bind, hg]
  cases s.files.write path text <;> rfl

theorem run_loadOptions (path : String) (s : Scene) :
    (world.loadOptions path).run s = (s.loadedOptions (some path), s) := by
  cases h : s.files.read path <;>
    simp only [loadedOptions, World.loadOptions, run_bind, run_read, h, run_pure]

theorem run_loadProject (path : String) (s : Scene) :
    (world.loadProject path).run s = (s.loadedProject path, s) := by
  cases h : s.files.read path <;>
    simp only [loadedProject, World.loadProject, run_bind, run_read, h, run_pure]

/-- The project at a path, in terms of the files. -/
theorem loadedProject_eq (s : Scene) (path : String) : s.loadedProject path =
    match s.files.read path with
    | .error e => .error (.file path e)
    | .ok text => Project.ofText path text := by
  cases h : s.files.read path <;>
    simp only [loadedProject, World.loadProject, run_bind, run_read, h, run_pure]

/-- The options in a file, in terms of the files. -/
theorem loadedOptions_some (s : Scene) (path : String) : s.loadedOptions (some path) =
    match s.files.read path with
    | .error e => .error (.file path e)
    | .ok text => Options.ofText text := by
  cases h : s.files.read path <;>
    simp only [loadedOptions, World.loadOptions, run_bind, run_read, h, run_pure]

/-- What was read is read again as long as everything that was there stays. -/
theorem loadedOptions_of_kept {s s' : Scene} {o : Options} (hkept : s.files.Keeps s'.files)
    {path? : Option String} (h : s.loadedOptions path? = .ok o) :
    s'.loadedOptions path? = .ok o := by
  cases path? with
  | none => exact h
  | some path =>
    rw [loadedOptions_some] at h ⊢
    cases hr : s.files.read path with
    | error e => rw [hr] at h; cases h
    | ok text =>
      rw [hr] at h
      rw [hkept.read hr]
      exact h

theorem loadedProject_of_kept {s s' : Scene} {p : Project} (hkept : s.files.Keeps s'.files)
    {path : String} (h : s.loadedProject path = .ok p) : s'.loadedProject path = .ok p := by
  rw [loadedProject_eq] at h ⊢
  cases hr : s.files.read path with
  | error e => rw [hr] at h; cases h
  | ok text =>
    rw [hr] at h
    rw [hkept.read hr]
    exact h

/-- A file with the text of options holds the options. -/
theorem loadedOptions_of_file {s : Scene} {o : Options} {path : String} {l : Location}
    (hf : s.files.follow path = .ok l)
    (he : s.files.entry? l = some (.file (FileTree.bytesOf (Yaml.render o.tree)))) :
    s.loadedOptions (some path) = .ok o := by
  have ho : Options.ofText (Yaml.render o.tree) = .ok o := by
    unfold Options.ofText
    rw [Yaml.read_render_options]
  rw [loadedOptions_some, FileTree.read_of_file hf he]
  exact ho

/-- A file with the text of a project holds the project. -/
theorem loadedProject_of_file {s : Scene} {p : Project} {path : String} {l : Location}
    (hf : s.files.follow path = .ok l)
    (he : s.files.entry? l = some (.file (FileTree.bytesOf (Json.render p.tree))))
    (hj : FilePath.isJson path = true) (hn : p.document.root.nesting ≤ 62) :
    s.loadedProject path = .ok p := by
  rw [loadedProject_eq, FileTree.read_of_file hf he]
  simp only [Project.ofText, hj, if_true, (Json.read_render_eq_ok_iff p).2 hn]

/-- Reading a project takes nothing but the files into account. -/
theorem loadedProject_of_files {s s' : Scene} (h : s'.files = s.files) (path : String) :
    s'.loadedProject path = s.loadedProject path := by
  rw [loadedProject_eq, loadedProject_eq, h]

theorem run_saveProject (path : String) (p : Project) (s : Scene) :
    (world.saveProject path p).run s =
      match s.files.write path (p.toText path) with
      | .error e => (.error ⟨path, e⟩, s)
      | .ok files => (.ok (), { s with files }) := by
  cases h : s.files.write path (p.toText path) <;>
    simp only [World.saveProject, run_bind, run_write, h, run_pure]

/-- Entries added one by one. -/
theorem run_log_all {α : Type} (entry : α → LogEntry) (l : List α) (s : Scene) :
    (forIn l PUnit.unit fun a _ => do world.log (entry a); pure (.yield PUnit.unit) :
      StateM Scene PUnit).run s = (PUnit.unit, s.logged (l.map entry)) := by
  induction l generalizing s with
  | nil => rw [List.forIn_nil, run_pure, List.map_nil, logged, List.append_nil]
  | cons a l ih =>
    simp only [List.forIn_cons, run_bind, run_log, run_pure, ih, List.map_cons, logged,
      List.append_assoc, List.singleton_append]

/-- The search for a name changes nothing. -/
theorem run_firstFree (input : String) : ∀ (fuel k : Nat) (s : Scene),
    (OutputName.firstFree world.taken input fuel k).run s =
      (Id.run (OutputName.firstFree (pure ∘ s.files.exists?) input fuel k), s)
  | 0, k, s => rfl
  | fuel + 1, k, s => by
    have hr : (world.taken (OutputName.candidate input k)).run s =
        (s.files.exists? (OutputName.candidate input k), s) := rfl
    rw [OutputName.firstFree, run_bind, hr]
    cases h : s.files.exists? (OutputName.candidate input k) with
    | false =>
      simp only [OutputName.firstFree, Function.comp, pure_bind, h, Bool.false_eq_true, if_false,
        run_pure, Id.run_pure]
    | true =>
      simp only [OutputName.firstFree, Function.comp, pure_bind, h, if_true,
        run_firstFree input fuel (k + 1) s]

/-- Saving under the name that the search finds. -/
theorem run_saveMigrated (args : Arguments) (p : Project) (s : Scene) :
    let path := Id.run (OutputName.unique (pure ∘ s.files.exists?) args.projectFile)
    (world.saveMigrated args p).run s =
      match s.files.write path (p.toText path) with
      | .error e => (.error (.output ⟨path, e⟩), s)
      | .ok files => (.ok (), { s with files }.logged [writtenNote path]) := by
  intro path
  have hp : (OutputName.unique world.taken args.projectFile).run s = (path, s) := run_firstFree ..
  cases h : s.files.write path (p.toText path) <;>
    simp only [World.saveMigrated, run_bind, hp, run_saveProject, h, run_log, run_pure]

/-- The options of a run. -/
theorem run_options (args : Arguments) (s : Scene) :
    (world.options args).run s = ((s.loadedOptions args.options).map args.effective, s) := by
  cases h : args.options with
  | none =>
    simp only [World.options, h, run_bind, run_pure, loadedOptions]
    rfl
  | some path =>
    simp only [World.options, h, run_bind, run_loadOptions, run_pure]
    rfl

/-- The scene after the report on an outcome. -/
def reported (s : Scene) (args : Arguments) (ran : Ran Outcome) (outcome : Outcome) : Scene :=
  { s with printed := s.printed ++
    ((Report.ofOutcome args.projectFile outcome ran.project.frameworks
      ran.project.appendFramework (Notice.messages ran.notices)).text args.format ++ "\n") }

/-- A migration adds its notices to the log, reports, and saves what it has migrated. -/
theorem run_migrate (args : Arguments) (o : Options) (p : Project) (s : Scene) :
    let ran := o.pipeline.migrate p
    let after := s.logged (ran.notices.map Notice.entry)
    (world.migrate args o p).run s =
      match ran.outcome with
      | .error e => (.error (.migration args.projectFile e), after)
      | .ok (.rejected kind) => (.ok false, after.reported args ran (.rejected kind))
      | .ok (.migrated result) =>
        let shown := after.reported args ran (.migrated result)
        if args.dryRun then (.ok true, shown)
        else
          let saved := (world.saveMigrated args ran.project).run shown
          (saved.1.map fun _ => true, saved.2) := by
  intro ran after
  have hl : (forIn ran.notices PUnit.unit fun n _ =>
    do world.log n.entry; pure (.yield PUnit.unit) :
      StateM Scene PUnit).run s = (PUnit.unit, after) := run_log_all Notice.entry ran.notices s
  rw [World.migrate, run_bind, hl]
  cases h : ran.outcome with
  | error e => simp only [run_pure]
  | ok outcome =>
    cases outcome with
    | rejected kind => simp only [ran, run_bind, run_print, run_pure, reported]
    | migrated result =>
      cases hd : args.dryRun with
      | true => simp only [ran, run_bind, run_print, run_pure, reported, if_true]
      | false =>
        simp only [ran, run_bind, run_print, run_pure, reported, Bool.false_eq_true, if_false]

/-- A run: options, warnings, project, migration. -/
theorem run_run (args : Arguments) (s : Scene) : (world.run args).run s =
    match s.loadedOptions args.options with
    | .error e => (.error (.options e), s)
    | .ok base =>
      let o := args.effective base
      let warned := s.logged (o.unrecognized.map unrecognizedWarning)
      match s.loadedProject args.projectFile with
      | .error e => (.error (.project e), warned)
      | .ok p => (world.migrate args o p).run warned := by
  rw [World.run, run_bind, run_options]
  cases ho : s.loadedOptions args.options with
  | error e => simp only [Except.map, run_pure]
  | ok base =>
    have hp (es : List LogEntry) : (s.logged es).loadedProject args.projectFile =
        s.loadedProject args.projectFile :=
      loadedProject_of_files (show (s.logged es).files = s.files from rfl) args.projectFile
    simp only [Except.map, run_bind, run_log_all, run_loadProject, hp]
    cases s.loadedProject args.projectFile <;> rfl

end Scene

/-! ### The migrated project -/

/-- The first list that is not empty, or the empty list. -/
def firstNonempty (lists : List (List String)) : List String :=
  (lists.find? (!·.isEmpty)).getD []

/-- The project that a run with these arguments makes of a project, starting from options. -/
def Project.migrated (args : Arguments) (o : Options) (p : Project) : Project :=
  { p with
    frameworks := firstNonempty [args.frameworks, o.frameworks, p.frameworks]
    appendFramework := if args.noAppend then false else o.appendFramework }

/-- What the pipeline of options makes of a project that the guard lets pass. -/
theorem migrate_pipeline (o : Options) {p : Project} (h : p.unsupportedKind = none) :
    (o.pipeline.migrate p).project =
        { p with
          frameworks := if !o.frameworks.isEmpty then o.frameworks else p.frameworks
          appendFramework := o.appendFramework } ∧
      ∃ result, (o.pipeline.migrate p).outcome = .ok (.migrated result) := by
  rw [Pipeline.migrate, h]
  exact ⟨rfl, _, rfl⟩

/-- With the options of a run, it is the migrated project. -/
theorem project_migrate_effective (args : Arguments) (o : Options) {p : Project}
    (h : p.unsupportedKind = none) :
    ((args.effective o).pipeline.migrate p).project = p.migrated args o := by
  have hf : (if !(args.effective o).frameworks.isEmpty then (args.effective o).frameworks
      else p.frameworks) = firstNonempty [args.frameworks, o.frameworks, p.frameworks] := by
    rw [Arguments.effective, Options.override]
    cases args.frameworks <;> cases o.frameworks <;> cases p.frameworks <;> rfl
  have ha : (args.effective o).appendFramework =
      if args.noAppend then false else o.appendFramework := by
    rw [Arguments.effective, Options.override]
    cases args.noAppend <;> rfl
  rw [(migrate_pipeline _ h).1, hf, ha, Project.migrated]

/-- The text of a project depends on the path's format alone. -/
theorem Project.toText_congr {path path' : String} (h : FilePath.isJson path' = FilePath.isJson path)
    (p : Project) : p.toText path' = p.toText path := by
  rw [toText, toText, h]

/-- A project with the document of one that was read is read back from its text in the same
format. -/
theorem ofText_toText {path path' text : String} {p q : Project}
    (hp : Project.ofText path text = .ok p)
    (hf : FilePath.isJson path' = FilePath.isJson path) (hq : q.document = p.document) :
    Project.ofText path' (q.toText path') = .ok q := by
  rw [Project.ofText] at hp
  rw [Project.ofText, Project.toText, hf]
  split at hp
  · rename_i hj
    rw [if_pos hj, if_pos hj]
    split at hp
    · rename_i hr
      obtain rfl := Except.ok.inj hp
      rw [(Json.read_render_eq_ok_iff q).2 (hq ▸ Json.nesting_le_of_read hr)]
    · cases hp
  · rename_i hj
    rw [if_neg hj, if_neg hj]
    split at hp
    · rename_i hr
      obtain rfl := Except.ok.inj hp
      rw [(Yaml.read_render_eq_ok_iff q).2 (hq ▸ Yaml.nesting_le_of_read hr)]
    · cases hp

/-- **The file that a run writes is read back as the migrated project.**  It stands under the
first candidate that does not exist, and writing it is all that can go wrong once the options
and the project are loaded and the guard lets the project pass. -/
theorem run_writes_migrated (args : Arguments) (s : Scene) (o : Options) (p : Project)
    (ho : s.loadedOptions args.options = .ok o) (hp : s.loadedProject args.projectFile = .ok p)
    (hk : p.unsupportedKind = none) (hd : args.dryRun = false) :
    ∃ k, OutputName.IsFirstFree s.files args.projectFile k ∧
      let path := OutputName.candidate args.projectFile k
      let text := (p.migrated args o).toText path
      let ran := (Scene.world.run args).run s
      (∀ files, s.files.write path text = .ok files →
        ran.1 = .ok true ∧ ran.2.files = files ∧ ran.2.loadedProject path =
          .ok (p.migrated args o)) ∧
      (∀ e, s.files.write path text = .error e →
        ran.1 = .error (.output ⟨path, e⟩) ∧ ran.2.files = s.files) := by
  obtain ⟨result, hr⟩ := (migrate_pipeline (args.effective o) hk).2
  obtain ⟨k, hu, hn⟩ := OutputName.exists_free s.files args.projectFile
  refine ⟨k, hn, ?_⟩
  simp only [Scene.run_run, ho, hp, Scene.run_migrate, hr, hd, Bool.false_eq_true, if_false,
    Scene.run_saveMigrated, project_migrate_effective args o hk, Scene.reported, Scene.logged, hu]
  refine ⟨fun files hw => ?_, fun e hw => ?_⟩
  · simp only [hw, Except.map, true_and]
    rw [Scene.loadedProject_eq] at hp ⊢
    simp only [FileTree.read_write hw]
    split at hp
    · cases hp
    · exact ofText_toText hp (OutputName.isJson_candidate args.projectFile k) rfl
  · simp only [hw, Except.map, and_self]

/-! ### Files out of the way -/

/-- Options with a framework, and the standard flag. -/
def sharedOptions : Options := ⟨["net8.0"], true⟩

/-- Files with a project and options, none of them in the working directory. -/
def layeredFiles : FileTree where
  workingDirectory := ["home", "build"]
  entries := [(["home"], .directory), (["home", "build"], .directory),
    (["home", "shared.yaml"], .file (FileTree.bytesOf (Yaml.render sharedOptions.tree))),
    (["srv"], .directory),
    (["srv", "Legacy.json"], .file (FileTree.bytesOf (Json.render Project.layered.tree)))]

theorem loadedOptions_layeredFiles {path : String}
    (h : layeredFiles.follow path = .ok ["home", "shared.yaml"]) :
    (Scene.ofFiles layeredFiles).loadedOptions (some path) = .ok sharedOptions :=
  Scene.loadedOptions_of_file h rfl

theorem loadedProject_layeredFiles {path : String}
    (h : layeredFiles.follow path = .ok ["srv", "Legacy.json"])
    (hj : FilePath.isJson path = true) :
    (Scene.ofFiles layeredFiles).loadedProject path = .ok .layered :=
  Scene.loadedProject_of_file h rfl hj (by decide)

/-- The guard reads what kind the project declares, and lets it pass. -/
theorem unsupportedKind_layered : Project.layered.unsupportedKind = none := by decide +kernel

/-- The project by its path from the root, the options by a path out of the working directory. -/
theorem run_writes_migrated_layered :
    let args : Arguments :=
      ⟨"/srv/Legacy.json", some "../shared.yaml", [], true, .console, false, false⟩
    let ran := (Scene.world.run args).run (.ofFiles layeredFiles)
    ran.1 = .ok true ∧ ran.2.loadedProject "/srv/Legacy.migrated.json" =
      .ok { Project.layered with frameworks := ["net8.0"], appendFramework := false } := by
  intro args
  have ho : (Scene.ofFiles layeredFiles).loadedOptions args.options = .ok sharedOptions :=
    loadedOptions_layeredFiles (by decide)
  have hp : (Scene.ofFiles layeredFiles).loadedProject args.projectFile = .ok .layered :=
    loadedProject_layeredFiles (by decide) (by decide)
  have hc : OutputName.candidate args.projectFile 0 = "/srv/Legacy.migrated.json" := by decide
  have hf : layeredFiles.exists? (OutputName.candidate args.projectFile 0) = false := by decide
  have hw (text : String) : layeredFiles.write "/srv/Legacy.migrated.json" text =
      .ok (layeredFiles.put ["srv", "Legacy.migrated.json"]
        (.file (FileTree.bytesOf text))) := by
    rfl
  obtain ⟨k, hn, h, -⟩ := run_writes_migrated args (.ofFiles layeredFiles) sharedOptions
    .layered ho hp unsupportedKind_layered rfl
  obtain rfl : k = 0 := hn.unique (OutputName.isFirstFree_zero hf)
  rw [hc] at h
  obtain ⟨hr, -, hl⟩ := h _ (hw _)
  exact ⟨hr, hl⟩

end Retarget
