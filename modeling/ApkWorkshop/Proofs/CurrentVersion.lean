import ApkWorkshop.Proofs.NewTools

/-!
# The Current Version

Tools announce the version in their settings when they are made, and a tool for versions announces
the one that is chosen. In both cases the folders are worked out before that. So they are those of a
version that was announced earlier, by whoever was last.

The first tool has no folders at all (`first_tool_has_no_folders`).
-/

namespace ApkWorkshop

open Text List World Option

namespace Tool

/-! ### Choosing a version -/

variable {w : World} {current : Option String}

theorem versionFolders_setMember (current v : Value) (members : List (String × Value)) :
    versionFolders current (.object (setMember "last_version" v members)) =
      versionFolders current (.object members) := by
  have hlookup : ∀ usual, (Value.object (setMember "last_version" v members)).lookup
      "folder_structure" usual = (Value.object members).lookup "folder_structure" usual := by
    intro usual
    rw [Value.lookup, Value.lookup, member?_setMember, if_neg (by decide)]
  rw [versionFolders, versionFolders, hlookup, hlookup]

section

variable {paths : List (String × String)} {w w' : World} {id : Nat} {version : Value}

theorem versionFolders_eq_ok {current data : Value} (h : versionFolders current data = .ok paths) :
    ∃ members, data = .object members := by
  cases data with
  | object members => exact ⟨members, rfl⟩
  | _ =>
    rw [versionFolders] at h
    split at h <;> cases h

def chosen? (w : World) (id : Nat) (version : Value) : Option String := do
  let _ ← (versionFolders w.versionPath (w.dataOf id)).toOption
  versionOf? (w.shelf id).folder version

theorem chosen?_eq (h : versionFolders w.versionPath (w.dataOf id) = .ok paths) (version : Value) :
    chosen? w id version = versionOf? (w.shelf id).folder version := by
  rw [chosen?, h]
  rfl

theorem chosen?_of_error {e : Fault} (h : versionFolders w.versionPath (w.dataOf id) = .error e)
    (version : Value) : chosen? w id version = none := by
  rw [chosen?, h]
  rfl

/-- What choosing a version leaves behind. -/
structure Chosen (w : World) (id : Nat) (version : Value) (r : Except Fault Unit) (w' : World) :
    Prop where
  versionPath : w'.versionPath = (chosen? w id version).elim w.versionPath .text
  paths : chosen? w id version ≠ none →
    versionFolders w.versionPath (w.dataOf id) = .ok (w'.tool id).paths
  last : chosen? w id version ≠ none → (w'.dataOf id).lookup "last_version" .null = .ok version
  ends : (w.tool id).log.TakesAll → chosen? w id version ≠ none → r = .ok ()

theorem Chosen.of_none {r : Except Fault Unit} (h : chosen? w id version = none)
    (hversion : w'.versionPath = w.versionPath) : Chosen w id version r w' := by
  refine ⟨?_, fun hne => absurd h hne, fun hne => absurd h hne, fun _ hne => absurd h hne⟩
  rw [h, hversion]
  rfl

theorem leaves_proclaim (h : versionOf? (w.shelf id).folder (w.shelf id).last =
      versionOf? (w.shelf id).folder version) :
    Leaves (Versions.proclaim id version) w fun r w' =>
      Told { w with versionPath :=
        (versionOf? (w.shelf id).folder version).elim w.versionPath .text } w' ∧
      ((w.tool id).log.TakesAll → versionOf? (w.shelf id).folder version ≠ none → r = .ok ()) := by
  have hpublish := leaves_publish w id
  rw [h] at hpublish
  refine hpublish.bind (fun _ w₁ h₁ => ⟨?_, fun hlog hne => ?_⟩)
    fun e w₁ h₁ => ⟨h₁.1, fun hlog hne => ?_⟩
  · exact h₁.1.trans (((tells_say id _).bind fun _ => (Versions.tells_shelf id).bind fun _ =>
      (tells_attempt _).bind fun _ => (Versions.tells_emit id _ _).bind fun _ =>
        Versions.tells_announce id) w₁)
  · have hlog₁ : (w₁.tool id).log.TakesAll := h₁.1.takesAll hlog
    obtain ⟨path, hpath⟩ := ne_none_iff_exists'.mp hne
    obtain ⟨w₂, hsay, h₂⟩ := ends_say hlog₁ ("🔀 Switched to version: " ++ version.plain)
    have hattempt : Ends (Job.attempt ((w₂.shelf id).folder.joinPath version)) w₂ path w₂ := by
      rw [(h₁.1.trans h₂).shelf]
      change Ends (Job.attempt ((w.shelf id).folder.joinPath version)) w₂ path w₂
      rw [joinPath_of_versionOf? hpath]
      exact ends_pure.mpr ⟨rfl, rfl⟩
    obtain ⟨w₃, hemit, h₃⟩ := Versions.ends_emit (h₂.takesAll hlog₁) "version_changed"
      (.object [("version", version), ("version_path", .text path)])
    obtain ⟨w₄, hannounce, -⟩ := Versions.ends_announce (h₃.takesAll (h₂.takesAll hlog₁))
    change Leaves _ w₁ fun r _ => r = .ok ()
    exact hsay.leaves_bind ((Versions.ends_shelf w₂ id).leaves_bind (hattempt.leaves_bind
      (hemit.leaves_bind (hannounce.leaves rfl))))
  · obtain ⟨done, hdone⟩ := h₁.2 hlog hne
    cases hdone

theorem tool_lastChosen (w : World) (id : Nat) (version : Value)
    (h : w' = w.withShelf id { w.shelf id with last := version }) :
    (w'.tool id).settings = (w.tool id).settings ∧ (w'.tool id).log = (w.tool id).log ∧
      (w'.shelf id).folder = (w.shelf id).folder ∧
      versionOf? (w'.shelf id).folder (w'.shelf id).last =
        versionOf? (w.shelf id).folder version := by
  subst h
  by_cases hid : id < w.tools.length
  · rw [tool_withShelf hid, shelf_withShelf hid]
    exact ⟨rfl, rfl, rfl, rfl⟩
  · have htool : ∀ s, (w.withShelf id s).tool id = w.tool id := by
      intro s
      rw [tool, tool, withShelf, getElem?_modify, getElem?_eq_none (Nat.le_of_not_lt hid)]
      rfl
    have hshelf : ∀ s, (w.withShelf id s).shelf id = w.shelf id := by
      intro s
      rw [shelf, htool, shelf]
    have hnone : (w.shelf id).folder = .null := by
      rw [shelf, tool, getElem?_eq_none (Nat.le_of_not_lt hid)]
      rfl
    rw [htool, hshelf, hnone]
    exact ⟨rfl, rfl, rfl, rfl⟩

theorem leaves_proclaim_chosen {w₁ : World}
    (hpaths : versionFolders w.versionPath (w.dataOf id) = .ok paths)
    (hversion : w₁.versionPath = w.versionPath) (hlength : w₁.tools.length = w.tools.length)
    (hlog : (w₁.tool id).log = (w.tool id).log)
    (hfolder : (w₁.shelf id).folder = (w.shelf id).folder)
    (hlast : versionOf? (w₁.shelf id).folder (w₁.shelf id).last =
      versionOf? (w.shelf id).folder version)
    (hdata : (w₁.dataOf id).lookup "last_version" .null = .ok version) :
    Leaves (Versions.proclaim id version) (withPaths w₁ id paths) (Chosen w id version) := by
  have hchosen := chosen?_eq hpaths version
  have htool := tool_withPaths w₁ id paths
  have hshelf : (withPaths w₁ id paths).shelf id = w₁.shelf id := by
    rw [shelf, htool]
    rfl
  have hproclaim := @leaves_proclaim (withPaths w₁ id paths) id version
    (by rw [hshelf, hlast, hfolder])
  rw [hshelf, hfolder, ← hchosen, htool] at hproclaim
  refine hproclaim.mono fun r w' h => ⟨?_, fun hne => ?_, fun _ => ?_, fun htakes => h.2 ?_⟩
  · rw [h.1.versionPath]
    exact congrArg (Option.elim _ · _) hversion
  · -- whoever announces a version is there
    have hid : id < w₁.tools.length := by
      rw [hlength]
      refine lt_length_of_shelf fun hnull => hne ?_
      rw [hchosen, hnull]
      rfl
    have hpaths' : (w'.tool id).paths = paths := by
      rw [h.1.tool]
      change ((withPaths w₁ id paths).tool id).paths = paths
      rw [htool, if_pos hid]
    rw [hpaths, hpaths']
  · have hdata' : w'.dataOf id = w₁.dataOf id := by
      rw [h.1.copies.dataOf]
      change (withPaths w₁ id paths).dataOf id = w₁.dataOf id
      rw [dataOf, htool]
      rfl
    rw [hdata', hdata]
  · change (w₁.tool id).log.TakesAll
    rw [hlog]
    exact htakes

end

theorem leaves_select (w : World) (id : Nat) (version : Value) :
    Leaves (Versions.select id version) w (Chosen w id version) := by
  rw [Versions.select]
  split
  · rename_i hgiven
    refine leaves_pure (.of_none ?_ rfl)
    cases hfolders : versionFolders w.versionPath (w.dataOf id) with
    | error e => exact chosen?_of_error hfolders version
    | ok paths =>
      rw [chosen?_eq hfolders, versionOf?_of_not_given]
      simpa using fun _ => hgiven
  refine (Versions.ends_change w id _).leaves_bind ?_
  generalize hw₁ : w.withShelf id { w.shelf id with last := version } = w₁
  obtain ⟨hsettings, hlog, hfolder, hlast⟩ := tool_lastChosen w id version hw₁.symm
  have hdata : w₁.dataOf id = w.dataOf id := by
    rw [dataOf, dataOf, hsettings, ← hw₁, withShelf]
  have hversion : w₁.versionPath = w.versionPath := by rw [← hw₁, withShelf]
  have hlength : w₁.tools.length = w.tools.length := by
    rw [← hw₁, withShelf, length_modify]
  refine (leaves_setSetting w₁ id "last_version" version).bind (fun _ w₂ h₂ => ?_) fun e w₂ h₂ => ?_
  · obtain ⟨members, hmembers, -, hcopies, hdata₂⟩ | ⟨⟨e, he⟩, -⟩ := h₂
    swap
    · cases he
    have hversion₂ : w₂.versionPath = w.versionPath := hcopies.versionPath.trans hversion
    have hfolders : versionFolders w₂.versionPath (w₂.dataOf id) =
        versionFolders w.versionPath (w.dataOf id) := by
      rw [hversion₂, hdata₂, versionFolders_setMember, ← hmembers, hdata]
    refine leaves_setFolders_bind (fun paths hpaths => ?_)
      fun e _ he => .of_none (chosen?_of_error (hfolders ▸ he) version) hversion₂
    refine leaves_proclaim_chosen (hfolders ▸ hpaths) hversion₂ ?_ ?_ ?_ ?_ ?_
    · rw [hcopies.tools, hlength]
    · rw [hcopies.tool]
      exact hlog
    · rw [hcopies.shelf]
      exact hfolder
    · rw [hcopies.shelf]
      exact hlast
    · rw [hdata₂, Value.lookup, member?_setMember, if_pos rfl]
      rfl
  · obtain ⟨members, -, hok, -⟩ | ⟨-, rfl, hno⟩ := h₂
    · cases hok
    · refine .of_none ?_ hversion
      cases hfolders : versionFolders w.versionPath (w.dataOf id) with
      | error e => exact chosen?_of_error hfolders version
      | ok paths =>
        obtain ⟨members, hmembers⟩ := versionFolders_eq_ok hfolders
        exact absurd (hdata.trans hmembers) (hno members)

/-! ### Histories -/

/-- One event in the history of a run: a tool is made, or a version is chosen. -/
inductive Turn where
  | made (name file : String)
  | chosen (id : Nat) (version : Value)

namespace Turn

def job : Turn → Job Unit
  | made name file => do let _ ← createNamed name file
  | chosen id version => Versions.select id version

def announced? (w : World) : Turn → Option String
  | made name file =>
    if (maker? name).isSome then Tool.announced? w.versionPath (Settings.held w.files file)
    else none
  | chosen id version => chosen? w id version

/-- **A turn** announces a version or leaves the current one as it is, whether it ends well or not.
-/
theorem versionPath_done (t : Turn) (w : World) :
    (t.job.doneIn w).2.versionPath = (t.announced? w).elim w.versionPath .text := by
  suffices hleaves : Leaves t.job w fun _ w' =>
      w'.versionPath = (t.announced? w).elim w.versionPath .text from hleaves
  cases t with
  | made name file =>
    rw [announced?]
    by_cases hname : (maker? name).isSome = true
    · rw [if_pos hname]
      exact (leaves_createNamed hname file).bind (fun _ _ h => leaves_pure h.opens.versionPath)
        fun _ _ h => h.opens.versionPath
    · rw [job, createNamed, not_isSome_iff_eq_none.mp hname]
      dsimp only
      split
      · exact leaves_throw_bind rfl
      · exact leaves_throw_bind rfl
  | chosen id version => exact (leaves_select w id version).mono fun _ _ h => h.versionPath

theorem announced?_ne_empty {t : Turn} {w : World} {path : String}
    (h : t.announced? w = some path) : path ≠ "" := by
  cases t with
  | made name file =>
    rw [announced?] at h
    split at h
    · obtain ⟨dir, version, -, -, hpath⟩ := announced?_eq_some h
      exact versionOf?_ne_empty hpath
    · cases h
  | chosen id version =>
    obtain ⟨-, -, hpath⟩ := bind_eq_some_iff.mp h
    exact versionOf?_ne_empty hpath

end Turn

/-- The world after a history, whether or not its events end well. -/
def after (w : World) : List Turn → World
  | [] => w
  | t :: turns => after (t.job.doneIn w).2 turns

/-- The version that was announced last in a history, or before it. -/
def lastAnnounced (w : World) (current : Option String) : List Turn → Option String
  | [] => current
  | t :: turns => lastAnnounced (t.job.doneIn w).2 ((t.announced? w).or current) turns

/-- **The current version is the one that was announced last.** -/
theorem versionPath_after (h : w.versionPath = shown current) (turns : List Turn) :
    (after w turns).versionPath = shown (lastAnnounced w current turns) := by
  induction turns generalizing w current with
  | nil => exact h
  | cons t turns ih =>
    refine ih ?_
    rw [t.versionPath_done, h]
    cases t.announced? w <;> rfl

theorem lastAnnounced_ne_empty (h : current ≠ some "") (turns : List Turn) :
    lastAnnounced w current turns ≠ some "" := by
  induction turns generalizing w current with
  | nil => exact h
  | cons t turns ih =>
    refine ih ?_
    cases hannounced : t.announced? w with
    | none => exact h
    | some path =>
      exact fun hempty => Turn.announced?_ne_empty hannounced (some.inj hempty)

theorem lastAnnounced_append (w : World) (current : Option String) (xs ys : List Turn) :
    lastAnnounced w current (xs ++ ys) =
      lastAnnounced (after w xs) (lastAnnounced w current xs) ys := by
  induction xs generalizing w current with
  | nil => rfl
  | cons t xs ih => exact ih _ _

/-- **Tools work in the version that was announced before.** Tools are made and versions are chosen,
in any order and with any end, and no version was current at first. A tool that is made then, with
settings that name a version and its folders, has the folders of the version that was announced
last, or none if there was no such version; and so has a tool for versions where a version is
chosen. The version of its own settings is the one that the next tool uses. -/
theorem tools_use_version_announced_before {w₀ : World} (h : w₀.versionPath = .null)
    (history : List Turn) :
    let w := after w₀ history
    let current := lastAnnounced w₀ none history
    (∀ name file dir version folders theme, (maker? name).isSome = true →
      NamesVersion (Settings.held w.files file) dir version folders →
      Theme.palette (Settings.held w.files file) = .ok theme →
      ∀ r w', (createNamed name file).doneIn w = (r, w') →
        (∀ id, r = .ok id → (w'.tool id).paths = foldersIn current folders) ∧
        (name ≠ "Pack" → ∃ id, r = .ok id) ∧
        lastAnnounced w₀ none (history ++ [.made name file]) = some (Path.join dir version)) ∧
    ∀ id dir version folders, (w.shelf id).folder = .text dir → dir ≠ "" → version ≠ "" →
      (w.dataOf id).lookup "folder_structure" .null =
        .ok (.object (folders.map fun (key, name) => (key, .text name))) →
      ∀ r w', (Versions.select id (.text version)).doneIn w = (r, w') →
        (w'.dataOf id).lookup "last_version" .null = .ok (.text version) ∧
        (w'.tool id).paths = foldersIn current folders ∧
        ((w.tool id).log.TakesAll → r = .ok ()) ∧
        lastAnnounced w₀ none (history ++ [.chosen id (.text version)]) =
          some (Path.join dir version) := by
  intro w current
  have hcurrent : w.versionPath = shown current := versionPath_after h history
  have hne : current ≠ some "" := lastAnnounced_ne_empty (by simp) history
  have hlast : ∀ t path, t.announced? w = some path →
      lastAnnounced w₀ none (history ++ [t]) = some path := by
    intro t path ht
    rw [lastAnnounced_append, lastAnnounced, lastAnnounced, ht]
    rfl
  clear_value w current
  refine ⟨fun name file dir version folders theme hname hnames htheme r w' hrun => ?_,
    fun id dir version folders hdir hdir_ne hversion_ne hfolders r w' hrun => ?_⟩
  · have hpaths := versionFolders_shown hne hnames.folders_eq
    rw [← hcurrent] at hpaths
    have hannounced := hnames.announced? htheme hpaths
    have hmade := leaves_createNamed (w := w) hname file
    rw [Leaves, ← Job.doneIn, hrun] at hmade
    refine ⟨fun id hid => ?_, fun hpack => ?_, hlast _ _ ?_⟩
    · obtain ⟨rfl, hnew⟩ := hmade.new id hid
      exact Except.ok.inj (hnew.paths.symm.trans hpaths)
    · exact hmade.ends ⟨hpack, dir, version, folders, hnames⟩ (by rw [hannounced]; simp)
    · rw [Turn.announced?, if_pos hname, hannounced]
  · have hpaths := versionFolders_shown hne hfolders
    rw [← hcurrent] at hpaths
    have hchosen : chosen? w id (.text version) = some (Path.join dir version) := by
      rw [chosen?_eq hpaths, hdir, versionOf?, versionAt?,
        if_neg (not_or.mpr ⟨hdir_ne, hversion_ne⟩)]
    have hleaves := leaves_select w id (.text version)
    rw [Leaves, ← Job.doneIn, hrun] at hleaves
    have hsome : chosen? w id (.text version) ≠ none := by rw [hchosen]; simp
    exact ⟨hleaves.last hsome, Except.ok.inj ((hleaves.paths hsome).symm.trans hpaths),
      fun hlog => hleaves.ends hlog hsome, hlast _ _ hchosen⟩

def versionMembers : List (String × Value) :=
  [("versions_dir", .text "versions"), ("last_version", .text "1.0"),
    ("folder_structure", .object [("apk", .text "1_APK")])]

/-- A world with these settings in a file, and a tool for versions that has them. -/
def managed : World where
  files := ⟨.folder (.cons "config.json"
    (.file (encode ((Value.object versionMembers).document 4))) .nil), []⟩
  settings := [{ file := "config.json", data := .object versionMembers }]
  tools := [{
    settings := 0
    part := .versions (.text "versions") (.text "1.0") [.text "1_APK"] none }]

theorem held_managed : Settings.held managed.files "config.json" = .object versionMembers := by
  have hstorable : (Value.object versionMembers).Storable := by
    refine .object (by simp [versionMembers]) ?_
    simp only [versionMembers, forall_mem_cons, not_mem_nil, false_implies, implies_true, and_true]
    exact ⟨.text _, .text _, .object (by simp) (by simp [Value.Storable.text])⟩
  have hlocate : managed.files.locate "config.json" = .found ["config.json"]
      (.file (encode ((Value.object versionMembers).document 4))) := by
    have hparts : Path.parts "config.json" = ["config.json"] := by decide
    rw [Files.locate, hparts]
    simp [managed, follow, Entries.get?_cons, Node.get?_folder_cons]
  have hread : managed.files.read "config.json" =
      .ok (encode ((Value.object versionMembers).document 4)) := by
    rw [Files.read, hlocate]
  rw [Settings.held, Settings.load_of_read hstorable hread]

theorem namesVersion_versionMembers :
    NamesVersion (.object versionMembers) "versions" "1.0" [("apk", "1_APK")] :=
  ⟨rfl, rfl, rfl, by decide, by decide⟩

/-- The world after a first tool was made in it. -/
def firstMade : World := after managed [.made "deCAR" "config.json"]

/-- The first tool announces its version and leaves everything else as it is. -/
theorem opens_firstMade : Opens managed "config.json" firstMade := by
  have hleaves : Leaves (Turn.made "deCAR" "config.json").job managed fun _ w' =>
      Opens managed "config.json" w' :=
    (leaves_createNamed rfl "config.json").bind (fun _ _ h => leaves_pure h.opens)
      fun _ _ h => h.opens
  exact hleaves

theorem tool_firstMade : firstMade.tool 0 = managed.tool 0 := by
  rw [World.tool, prefix_iff_getElem?.mp opens_firstMade.tools 0 (by decide)]
  rfl

theorem dataOf_firstMade : firstMade.dataOf 0 = .object versionMembers := by
  have hentry : firstMade.settings[0]? =
      some { file := "config.json", data := .object versionMembers } :=
    prefix_iff_getElem?.mp opens_firstMade.settings 0 (by decide)
  rw [World.dataOf, tool_firstMade]
  exact congrArg (fun s => (s.getD { file := "", data := .null }).data) hentry

/-- The second tool has the folders of the version that the first one announced, and so has the tool
for versions when another version is chosen. -/
theorem tools_use_version_announced_before_secondTool :
    managed.versionPath = .null ∧
    NamesVersion (Settings.held managed.files "config.json") "versions" "1.0" [("apk", "1_APK")] ∧
    (∃ id w', Ends (createNamed "ToCAR" "config.json") firstMade id w' ∧
      (w'.tool id).paths = [("apk", "versions/1.0/1_APK")]) ∧
    ∃ w', Ends (Versions.select 0 (.text "2.0")) firstMade () w' ∧
      (w'.tool 0).paths = [("apk", "versions/1.0/1_APK")] := by
  have hnames : NamesVersion (Settings.held managed.files "config.json") "versions" "1.0"
      [("apk", "1_APK")] := held_managed ▸ namesVersion_versionMembers
  obtain ⟨theme, htheme⟩ : ∃ theme,
      Theme.palette (Settings.held managed.files "config.json") = .ok theme := by
    rw [held_managed]
    exact ⟨_, rfl⟩
  have hcurrent : foldersIn (lastAnnounced managed none [.made "deCAR" "config.json"])
      [("apk", "1_APK")] = [("apk", "versions/1.0/1_APK")] := by
    decide +kernel
  obtain ⟨hmade, hchosen⟩ := @tools_use_version_announced_before managed rfl
    [.made "deCAR" "config.json"]
  rw [← firstMade] at hmade hchosen
  refine ⟨rfl, hnames, ?_, ?_⟩
  · rw [← opens_firstMade.files] at hnames htheme
    cases hrun : (createNamed "ToCAR" "config.json").doneIn firstMade with
    | mk r w' =>
      obtain ⟨hpaths, hends, -⟩ :=
        hmade "ToCAR" "config.json" _ _ _ theme rfl hnames htheme r w' hrun
      obtain ⟨id, rfl⟩ := hends (by decide)
      exact ⟨id, w', hrun, (hpaths id rfl).trans hcurrent⟩
  · have hshelf : (firstMade.shelf 0).folder = .text "versions" := by
      rw [World.shelf, tool_firstMade]
      rfl
    cases hrun : (Versions.select 0 (.text "2.0")).doneIn firstMade with
    | mk r w' =>
      obtain ⟨-, hpaths, hends, -⟩ := hchosen 0 "versions" "2.0" [("apk", "1_APK")] hshelf
        (by decide) (by decide) (by rw [dataOf_firstMade]; rfl) r w' hrun
      obtain rfl := hends (by rw [tool_firstMade]; trivial)
      exact ⟨w', hrun, hpaths.trans hcurrent⟩

/-- **The first tool has no folders**, though its settings name a version and a folder; and after a
version was chosen, the tool for versions has the folders of the one before. -/
theorem first_tool_has_no_folders :
    NamesVersion (Settings.held managed.files "config.json") "versions" "1.0" [("apk", "1_APK")] ∧
    (((createNamed "deCAR" "config.json").doneIn managed).2.tool 1).paths = [("apk", "")] ∧
    (((Versions.select 0 (.text "2.0")).doneIn firstMade).2.tool 0).paths =
      [("apk", "versions/1.0/1_APK")] :=
  ⟨held_managed ▸ namesVersion_versionMembers, by decide +kernel, by decide +kernel⟩

end Tool

end ApkWorkshop
