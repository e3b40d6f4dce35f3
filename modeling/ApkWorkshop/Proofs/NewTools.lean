import ApkWorkshop.Proofs.ToolSettings
import ApkWorkshop.Tool.Catalogue

/-!
# New Tools

All tools share one current version. A tool works out its folders when it is made, and announces the
version that its settings name, but only after that. Then it gets what is special about it, which
may be another tool with the same settings, or a second announcement of the same version.
-/

namespace ApkWorkshop

open Text List World Settings Job

namespace Tool

/-! ### Versions in settings -/

def versionAt? (dir version : String) : Option String :=
  if dir = "" ∨ version = "" then none else some (Path.join dir version)

def versionOf? : Value → Value → Option String
  | .text dir, .text version => versionAt? dir version
  | _, _ => none

/-- The version that a tool announces when it is made, while another one is current. A tool that
cannot be made announces none. -/
def announced? (current data : Value) : Option String := do
  let _ ← (Theme.palette data).toOption
  let _ ← (versionFolders current data).toOption
  versionOf? (← (data.lookup "versions_dir" .null).toOption)
    (← (data.lookup "last_version" .null).toOption)

def shown : Option String → Value
  | none => .null
  | some path => .text path

def foldersIn (current : Option String) (folders : List (String × String)) :
    List (String × String) :=
  folders.map fun (key, name) => (key, current.elim "" (Path.join · name))

/-- Settings that name a version and its folders. -/
structure NamesVersion (data : Value) (dir version : String) (folders : List (String × String)) :
    Prop where
  dir_eq : data.lookup "versions_dir" .null = .ok (.text dir)
  version_eq : data.lookup "last_version" .null = .ok (.text version)
  folders_eq : data.lookup "folder_structure" .null =
    .ok (.object (folders.map fun (key, name) => (key, .text name)))
  dir_ne_empty : dir ≠ ""
  version_ne_empty : version ≠ ""

section

variable {dir version current data : Value} {path file : String}
  {paths folders : List (String × String)} {theme : ThemeColours} {w' w : World}

theorem versionOf?_ne_empty (h : versionOf? dir version = some path) : path ≠ "" := by
  rw [versionOf?.eq_def] at h
  split at h
  · rw [versionAt?] at h
    split at h
    · cases h
    · rename_i hne
      cases h
      exact Path.join_ne_empty (fun hdir => hne (.inl hdir)) _
  · cases h

theorem versionOf?_of_given (hdir : dir.isGiven = true) (hversion : version.isGiven = true) :
    versionOf? dir version = (dir.joinPath version).toOption := by
  cases dir with
  | text dir =>
    cases version with
    | text version =>
      have hne : ¬ (dir = "" ∨ version = "") := by
        rintro (rfl | rfl)
        · cases hdir
        · cases hversion
      rw [versionOf?, versionAt?, if_neg hne]
      rfl
    | _ => rfl
  | _ => rfl

theorem joinPath_of_versionOf? (h : versionOf? dir version = some path) :
    dir.joinPath version = .ok path := by
  rw [versionOf?.eq_def] at h
  split at h
  · rw [versionAt?] at h
    split at h
    · cases h
    · cases h
      rfl
  · cases h

theorem versionOf?_of_not_given (h : (dir.isGiven && version.isGiven) = false) :
    versionOf? dir version = none := by
  rw [versionOf?.eq_def]
  split
  · rename_i dir version
    rw [versionAt?, if_pos]
    by_contra hne
    obtain ⟨hdir, hversion⟩ := not_or.mp hne
    simp [Value.isGiven, hdir, hversion] at h
  · rfl

theorem announced?_eq_some (h : announced? current data = some path) : ∃ dir version,
      data.lookup "versions_dir" .null = .ok dir ∧ data.lookup "last_version" .null = .ok version ∧
      versionOf? dir version = some path := by
  obtain ⟨-, -, h⟩ := Option.bind_eq_some_iff.mp h
  obtain ⟨-, -, h⟩ := Option.bind_eq_some_iff.mp h
  obtain ⟨dir, hdir, h⟩ := Option.bind_eq_some_iff.mp h
  obtain ⟨version, hversion, h⟩ := Option.bind_eq_some_iff.mp h
  exact ⟨dir, version, toOption_eq_some hdir, toOption_eq_some hversion, h⟩

theorem announced?_again (h : announced? current data = some path) :
    (announced? (.text path) data).elim (.text path) Value.text = .text path := by
  obtain ⟨dir, version, hdir, hversion, hpath⟩ := announced?_eq_some h
  cases hagain : announced? (.text path) data with
  | none => rfl
  | some again =>
    obtain ⟨dir', version', hdir', hversion', hagain'⟩ := announced?_eq_some hagain
    cases hdir.symm.trans hdir'
    cases hversion.symm.trans hversion'
    rw [← Option.some.inj (hpath.symm.trans hagain')]
    rfl

theorem lookup_object {name : String} {members : List (String × Value)}
    (h : data.lookup name .null = .ok (.object members)) (usual : Value) :
    data.lookup name usual = .ok (.object members) := by
  cases data with
  | object all =>
    rw [Value.lookup] at h ⊢
    cases hmember : member? all name with
    | none =>
      rw [hmember] at h
      cases h
    | some v =>
      rw [hmember] at h
      exact h
  | _ => cases h

theorem mapM_joinPath (path : String) (folders : List (String × String)) :
    (folders.map fun (key, name) => (key, Value.text name)).mapM
      (fun (key, name) => return (key, ← (Value.text path).joinPath name)) =
    (Except.ok (foldersIn (some path) folders) : Except Fault (List (String × String))) := by
  induction folders with
  | nil => rfl
  | cons folder folders ih =>
    rw [map_cons, mapM_cons, ih]
    rfl

/-- **The folders of the current version**, from settings that list them. -/
theorem versionFolders_shown {current : Option String} (hcurrent : current ≠ some "")
    (h : data.lookup "folder_structure" .null =
      .ok (.object (folders.map fun (key, name) => (key, .text name)))) :
    versionFolders (shown current) data = .ok (foldersIn current folders) := by
  cases current with
  | none =>
    rw [versionFolders, if_neg (by decide), lookup_object h]
    change Except.ok _ = Except.ok _
    rw [map_map]
    rfl
  | some path =>
    have hgiven : (shown (some path)).isGiven = true := by
      rw [shown, Value.isGiven, bne_iff_ne]
      rintro rfl
      exact hcurrent rfl
    rw [versionFolders, if_pos hgiven, h]
    exact mapM_joinPath path folders

theorem announced?_eq (htheme : Theme.palette data = .ok theme)
    (hpaths : versionFolders current data = .ok paths)
    (hdir : data.lookup "versions_dir" .null = .ok dir)
    (hversion : data.lookup "last_version" .null = .ok version) :
    announced? current data = versionOf? dir version := by
  rw [announced?, htheme, hpaths, hdir, hversion]
  rfl

theorem NamesVersion.announced? {dir version : String} (h : NamesVersion data dir version folders)
    (htheme : Theme.palette data = .ok theme) (hpaths : versionFolders current data = .ok paths) :
    announced? current data = some (Path.join dir version) := by
  have hne : ¬ (dir = "" ∨ version = "") := not_or.mpr ⟨h.dir_ne_empty, h.version_ne_empty⟩
  rw [announced?_eq htheme hpaths h.dir_eq h.version_eq, versionOf?, versionAt?, if_neg hne]

/-! ### Working out folders -/

def withPaths (w : World) (id : Nat) (paths : List (String × String)) : World :=
  { w with tools := w.tools.modify id fun t => { t with paths } }

theorem tool_withPaths (w : World) (id : Nat) (paths : List (String × String)) :
    (withPaths w id paths).tool id =
      { w.tool id with paths := if id < w.tools.length then paths else (w.tool id).paths } := by
  rw [tool, tool, withPaths]
  by_cases hid : id < w.tools.length
  · simp [hid]
  · simp [hid]

theorem leaves_setFolders_bind {id : Nat} {f : Unit → Job α} {Q : Except Fault α → World → Prop}
    (hok : ∀ paths, versionFolders w.versionPath (w.dataOf id) = .ok paths →
      Leaves (f ()) (withPaths w id paths) Q)
    (herror : ∀ e paths, versionFolders w.versionPath (w.dataOf id) = .error e →
      Q (.error e) (withPaths w id paths)) :
    Leaves (setFolders id >>= f) w Q := by
  have hfolders : Leaves (setFolders id) w fun r w' =>
      (∃ paths, versionFolders w.versionPath (w.dataOf id) = .ok paths ∧ r = .ok () ∧
        w' = withPaths w id paths) ∨
      ∃ e paths, versionFolders w.versionPath (w.dataOf id) = .error e ∧ r = .error e ∧
        w' = withPaths w id paths := by
    refine (ends_byNumber w id).leaves_bind ((ends_settings w _).leaves_bind (leaves_get_bind ?_))
    dsimp only
    split
    · rename_i paths hpaths
      exact leaves_modify (.inl ⟨paths, hpaths, rfl, rfl⟩)
    · rename_i e he
      exact leaves_modify_bind (leaves_throw (.inr ⟨e, _, he, rfl, rfl⟩))
  refine hfolders.bind (fun _ w' h => ?_) fun e w' h => ?_
  · rcases h with ⟨paths, hpaths, -, rfl⟩ | ⟨e, paths, -, he, -⟩
    · exact hok paths hpaths
    · cases he
  · rcases h with ⟨paths, -, hunit, -⟩ | ⟨e', paths, he', he, rfl⟩
    · cases hunit
    · cases he
      exact herror e paths he'

theorem leaves_publish (w : World) (id : Nat) :
    Leaves (Versions.publish id) w fun r w' =>
      Told { w with versionPath :=
        (versionOf? (w.shelf id).folder (w.shelf id).last).elim w.versionPath .text } w' ∧
      ((w.tool id).log.TakesAll → versionOf? (w.shelf id).folder (w.shelf id).last ≠ none →
        ∃ a, r = .ok a) := by
  refine (Versions.ends_shelf w id).leaves_bind ?_
  split
  · rename_i hgiven
    rw [Bool.and_eq_true] at hgiven
    rw [versionOf?_of_given hgiven.1 hgiven.2]
    refine (yields_attempt _ w).leaves_bind (fun path hpath => leaves_modify_bind ?_) fun e he => ?_
    · rw [hpath]
      refine ⟨tells_say id _ _, fun hlog _ => ?_⟩
      obtain ⟨w', hends, -⟩ := @ends_say { w with versionPath := .text path } id hlog _
      exact ⟨(), congrArg Prod.fst hends⟩
    · rw [he]
      exact ⟨.refl w, fun _ h => absurd rfl h⟩
  · rename_i hgiven
    rw [versionOf?_of_not_given (Bool.eq_false_iff.mpr hgiven)]
    exact leaves_pure ⟨.refl w, fun _ _ => ⟨_, rfl⟩⟩

/-! ### Making a tool -/

/-- Nothing is lost when a tool is made, and only what it announces is current. -/
structure Opens (w : World) (file : String) (w' : World) : Prop where
  files : w'.files = w.files
  versionPath : w'.versionPath =
    (announced? w.versionPath (Settings.held w.files file)).elim w.versionPath .text
  tools : w.tools <+: w'.tools
  settings : w.settings <+: w'.settings

/-- What is there of a tool that was made in the world `w`. -/
structure New (w : World) (file : String) (w' : World) : Prop extends Opens w file w' where
  paths : versionFolders w.versionPath (Settings.held w.files file) =
    .ok (w'.tool w.tools.length).paths
  palette : ∃ theme, Theme.palette (Settings.held w.files file) = .ok theme
  data : ∃ s, w'.settings[(w'.tool w.tools.length).settings]? = some s ∧
    s.data = Settings.held w.files file
  log : (w'.tool w.tools.length).log = .silent
  lt : w.tools.length < w'.tools.length

/-- Settings were opened for a new tool. -/
structure SettingsOpened (w : World) (file : String) (w' : World) : Prop where
  files : w'.files = w.files
  versionPath : w'.versionPath = w.versionPath
  tools : w'.tools = w.tools
  settings : w'.settings = w.settings ++ [{ file, data := Settings.held w.files file }]

theorem SettingsOpened.entry (h : SettingsOpened w file w') :
    w'.settings[w.settings.length]? = some { file, data := held w.files file } := by
  rw [h.settings, getElem?_concat_length]

theorem SettingsOpened.settings_grows (h : SettingsOpened w file w') : w.settings <+: w'.settings :=
  h.settings ▸ prefix_append _ _

theorem leaves_place {t : Tool} {s : Settings} (hs : w.settings[t.settings]? = some s)
    (versions last : Value) :
    Leaves (place t versions last) w fun r w' =>
      (∃ paths, versionFolders w.versionPath s.data = .ok paths ∧ r = .ok w.tools.length ∧
        w' = { w with
          tools := w.tools ++ [{ t with paths }]
          versionPath := (versionOf? versions last).elim w.versionPath .text }) ∨
      ((∃ e, versionFolders w.versionPath s.data = .error e) ∨ versionOf? versions last = none) ∧
        ∃ e t', r = .error e ∧ w' = { w with tools := w.tools ++ [t'] } := by
  have hplaced : ∀ paths, withPaths { w with tools := w.tools ++ [t] } w.tools.length paths =
      { w with tools := w.tools ++ [{ t with paths }] } := by
    intro paths
    rw [withPaths, modify_eq_take_drop, take_left, drop_left]
    rfl
  refine leaves_get_bind (leaves_modify_bind (leaves_setFolders_bind (fun paths hpaths => ?_)
    fun e paths he => ?_))
  all_goals
    rw [World.dataOf, tool, getElem?_concat_length, Option.getD_some, hs] at *
    rw [hplaced]
  · split
    · rename_i hgiven
      rw [Bool.and_eq_true] at hgiven
      refine (yields_attempt _ _).leaves_bind
        (fun path hpath => leaves_modify_bind (leaves_pure ?_))
        fun e he => .inr ⟨.inr ?_, e, _, rfl, rfl⟩
      · rw [versionOf?_of_given hgiven.1 hgiven.2, hpath]
        exact .inl ⟨paths, hpaths, rfl, rfl⟩
      · rw [versionOf?_of_given hgiven.1 hgiven.2, he]
        rfl
    · rename_i hgiven
      rw [versionOf?_of_not_given (Bool.eq_false_iff.mpr hgiven)]
      exact leaves_pure (.inl ⟨paths, hpaths, rfl, rfl⟩)
  · exact .inr ⟨.inl ⟨e, he⟩, e, _, rfl, rfl⟩

/-- What making a tool leaves behind. A tool that announces a version is made if `good`. -/
structure Made (good : Prop) (w : World) (file : String) (r : Except Fault Nat) (w' : World) :
    Prop where
  opens : Opens w file w'
  new : ∀ id, r = .ok id → id = w.tools.length ∧ New w file w'
  ends : good → announced? w.versionPath (Settings.held w.files file) ≠ none → ∃ id, r = .ok id

theorem SettingsOpened.made_of_fault {good : Prop} {w₁ : World} {e : Fault}
    (h : SettingsOpened w file w₁) (hnone : announced? w.versionPath (held w.files file) = none)
    (hw' : w' = w₁ ∨ ∃ t, w' = { w₁ with tools := w₁.tools ++ [t] }) :
    Made good w file (.error e) w' := by
  refine ⟨?_, by rintro id ⟨⟩, fun _ hne => absurd hnone hne⟩
  have hversion : w₁.versionPath =
      (announced? w.versionPath (held w.files file)).elim w.versionPath .text := by
    rw [hnone, h.versionPath]
    rfl
  rcases hw' with rfl | ⟨t, rfl⟩
  · exact ⟨h.files, hversion, h.tools ▸ prefix_rfl, h.settings_grows⟩
  · exact ⟨h.files, hversion, h.tools ▸ prefix_append _ _, h.settings_grows⟩

end

theorem SettingsOpened.new {w w₁ w' : World} {file : String} {part : ToolPart}
    {theme : ThemeColours} {paths : List (String × String)} {announced : Option String}
    (h : SettingsOpened w file w₁) (htheme : Theme.palette (held w.files file) = .ok theme)
    (hpaths : versionFolders w.versionPath (held w.files file) = .ok paths)
    (hannounced : announced? w.versionPath (held w.files file) = announced) (hw' : w' = { w₁ with
      tools := w₁.tools ++ [{ settings := w.settings.length, theme, part, paths }]
      versionPath := announced.elim w.versionPath .text }) : New w file w' := by
  have htool : w'.tool w.tools.length = { settings := w.settings.length, theme, part, paths } := by
    rw [hw', tool, ← h.tools, getElem?_concat_length]
    rfl
  refine ⟨⟨?_, ?_, ?_, ?_⟩, ?_, ⟨theme, htheme⟩,
    ⟨{ file, data := held w.files file }, ?_, rfl⟩, ?_, ?_⟩
  · rw [hw', h.files]
  · rw [hw', hannounced]
  · rw [hw', ← h.tools]
    exact prefix_append _ _
  · rw [hw']
    exact h.settings_grows
  · rw [hpaths, htool]
  · rw [htool, hw']
    exact h.entry
  · rw [htool]
  · rw [hw', h.tools]
    simp

theorem leaves_create (good : Prop) (file : String) (part : ToolPart) (w : World) :
    Leaves (Tool.create file part) w (Made good w file) := by
  have h₁ : SettingsOpened w file (opened w file) := by
    obtain ⟨_, _, h⟩ := opened_rest w file
    rw [h]
    exact ⟨rfl, rfl, rfl, rfl⟩
  refine (ends_openFile_held w file).leaves_bind ?_
  generalize opened w file = w₁ at h₁ ⊢
  have hfault : ∀ {e : Fault}, announced? w.versionPath (held w.files file) = none →
      Made good w file (.error e) w₁ :=
    fun hnone => h₁.made_of_fault hnone (.inl rfl)
  have hpalette : Job.Yields (palette w.settings.length) w₁ (Theme.palette (held w.files file)) :=
    .of_ends (Settings.ends_byNumber h₁.entry) (yields_attempt _ w₁)
  have hvalue : ∀ key, Job.Yields (value w.settings.length key .null) w₁
      ((held w.files file).lookup key .null) :=
    fun key => .of_ends (Settings.ends_byNumber h₁.entry) (yields_attempt _ w₁)
  refine hpalette.leaves_bind (fun theme htheme => ?_)
    fun e he => hfault (by simp [announced?, he, Except.toOption])
  refine (hvalue _).leaves_bind (fun last hlast => ?_)
    fun e he => hfault (by simp [announced?, he, Except.toOption])
  refine (hvalue _).leaves_bind (fun versions hversions => ?_)
    fun e he => hfault (by simp [announced?, he, Except.toOption])
  refine (leaves_place h₁.entry versions last).mono ?_
  rw [h₁.versionPath]
  rintro r w' (⟨paths, hpaths, rfl, hw'⟩ | ⟨hnone, e, t, rfl, hw'⟩)
  · have hnew := h₁.new htheme hpaths (announced?_eq htheme hpaths hversions hlast) hw'
    exact ⟨hnew.toOpens, by rintro id ⟨⟩; exact ⟨by rw [h₁.tools], hnew⟩, fun _ _ => ⟨_, rfl⟩⟩
  · refine h₁.made_of_fault ?_ (.inr ⟨t, by rw [hw', h₁.versionPath]⟩)
    rcases hnone with ⟨e, he⟩ | hnone
    · simp [announced?, he, Except.toOption]
    · simp [announced?, hnone, hversions, hlast, Except.toOption]

/-! ### What is special about a tool -/

section

variable {w w' w'' : World} {file : String}

theorem New.dataOf (h : New w file w') : w'.dataOf w.tools.length = held w.files file := by
  obtain ⟨s, hs, hdata⟩ := h.data
  rw [World.dataOf, hs, ← hdata]
  rfl

theorem New.told (h : New w file w') (ht : Told w' w'') : New w file w'' where
  files := ht.files.trans h.files
  versionPath := ht.versionPath.trans h.versionPath
  tools := ht.tools ▸ h.tools
  settings := ht.settings ▸ h.settings
  paths := ht.tool _ ▸ h.paths
  palette := h.palette
  data := by
    rw [ht.tool, ht.settings]
    exact h.data
  log := ht.tool _ ▸ h.log
  lt := ht.tools ▸ h.lt

theorem New.setPart (h : New w file w') (part : ToolPart) :
    New w file { w' with tools := w'.tools.modify w.tools.length fun t => { t with part } } := by
  have htool : tool
      { w' with tools := w'.tools.modify w.tools.length fun t => { t with part } } w.tools.length =
      { w'.tool w.tools.length with part } := by
    rw [tool, tool, getElem?_modify, getElem?_eq_getElem h.lt]
    simp
  refine ⟨⟨h.files, h.versionPath, ?_, h.settings⟩, ?_, h.palette, ?_, ?_, ?_⟩
  · obtain ⟨later, hlater⟩ := h.tools
    rw [← hlater, modify_eq_take_drop, take_left]
    exact prefix_append _ _
  · rw [htool]
    exact h.paths
  · rw [htool]
    exact h.data
  · rw [htool]
    exact h.log
  · rw [length_modify]
    exact h.lt

theorem New.opens (h : New w file w') (ho : Opens w' file w'') : New w file w'' := by
  have htool : w''.tool w.tools.length = w'.tool w.tools.length := by
    rw [tool, tool, getElem?_eq_getElem h.lt, prefix_iff_getElem?.mp ho.tools]
  refine ⟨⟨ho.files.trans h.files, ?_, h.tools.trans ho.tools, h.settings.trans ho.settings⟩,
    htool ▸ h.paths, h.palette, ?_, htool ▸ h.log, h.lt.trans_le ho.tools.length_le⟩
  · rw [ho.versionPath, h.files, h.versionPath]
    cases hold : announced? w.versionPath (held w.files file) with
    | none => rw [Option.elim_none, hold, Option.elim_none]
    | some path => rw [Option.elim_some, announced?_again hold]
  · obtain ⟨s, hs, hdata⟩ := h.data
    obtain ⟨hlt, rfl⟩ := List.getElem?_eq_some_iff.mp hs
    refine ⟨_, ?_, hdata⟩
    rw [htool, prefix_iff_getElem?.mp ho.settings _ hlt]

variable {good : Prop}

theorem safe_setPart (part : ToolPart) :
    Safe good (New w file) (fun _ => True) (setPart w.tools.length part) :=
  fun _ h => leaves_modify ⟨h.setPart part, fun _ _ => trivial, fun _ => ⟨_, rfl⟩⟩

theorem ends_setting (h : New w file w') (key : String) (usual : Value) :
    ∃ v, (held w.files file).lookup key usual = .ok v ∧
      Ends (setting w.tools.length key usual) w' v w' := by
  obtain ⟨theme, htheme⟩ := h.palette
  have hyields := yields_setting w' w.tools.length key usual
  rw [h.dataOf] at hyields
  cases hdata : held w.files file with
  | object members =>
    rw [hdata] at hyields
    exact ⟨_, rfl, hyields⟩
  | _ =>
    rw [hdata] at htheme
    cases htheme

theorem safe_setting (key : String) (usual : Value) : Safe good (New w file)
    (fun v => (held w.files file).lookup key usual = .ok v)
    (setting w.tools.length key usual) := by
  intro w' h
  obtain ⟨v, hv, hends⟩ := ends_setting h key usual
  exact hends.leaves ⟨h, by rintro _ ⟨⟩; exact hv, fun _ => ⟨v, rfl⟩⟩

theorem safe_tells {α : Type} {m : Job α} (hm : Tells m) :
    Safe False (New w file) (fun _ => True) m :=
  fun w' h => (hm w').mono fun _ _ ht => ⟨h.told ht, fun _ _ => trivial, False.elim⟩

theorem safe_say (line : String) :
    Safe good (New w file) (fun _ => True) (say w.tools.length line) := by
  intro w' h
  have hlog : (w'.tool w.tools.length).log.TakesAll := by
    rw [h.log]
    trivial
  exact leaves_say hlog fun w'' ht => ⟨h.told ht, fun _ _ => trivial, fun _ => ⟨_, rfl⟩⟩

theorem leaves_create_bind {part : ToolPart} {rest : Nat → Job Nat}
    (h : Safe good (New w file) (· = w.tools.length) (rest w.tools.length)) :
    Leaves (Tool.create file part >>= rest) w (Made good w file) := by
  refine (leaves_create good file part w).bind (fun id w₁ h₁ => ?_)
    fun e w₁ h₁ => ⟨h₁.opens, by rintro id ⟨⟩, ?_⟩
  · obtain ⟨rfl, hnew⟩ := h₁.new id rfl
    exact (h w₁ hnew).mono fun r w' h' =>
      ⟨h'.1.toOpens, fun id hid => ⟨h'.2.1 id hid, h'.1⟩, fun hgood _ => h'.2.2 hgood⟩
  · intro hgood hsome
    obtain ⟨id, hid⟩ := h₁.ends hgood hsome
    cases hid

/-! ### The makers -/

theorem leaves_decompiler (route : Route) :
    Leaves (Decompiler.create file route) w (Made good w file) :=
  leaves_create_bind ((safe_setting _ _).bind fun _ _ => (safe_setting _ _).bind fun _ _ =>
    (safe_setPart _).bind fun _ _ => safe_pure rfl)

theorem leaves_compiler (route : Option Route) :
    Leaves (Compiler.create file route) w (Made good w file) :=
  leaves_create_bind ((safe_setting _ _).bind fun _ _ => (safe_setPart _).bind fun _ _ =>
    safe_pure rfl)

theorem leaves_keyForms : Leaves (KeyForms.create file) w (Made good w file) :=
  leaves_create_bind ((safe_setting _ _).bind fun _ _ => (safe_setPart _).bind fun _ _ =>
    safe_pure rfl)

theorem leaves_assembler : Leaves (Script.createAssembler file) w (Made good w file) :=
  leaves_create_bind (Safe.bind (P := fun _ => True)
    (fun _ h => leaves_get_bind (leaves_pure ⟨h, fun _ _ => trivial, fun _ => ⟨_, rfl⟩⟩))
    fun _ _ => (safe_setPart _).bind fun _ _ => safe_pure rfl)

theorem leaves_disassembler : Leaves (Script.createDisassembler file) w (Made good w file) :=
  leaves_create_bind (Safe.bind (P := fun _ => True)
    (fun _ h => leaves_get_bind (leaves_pure ⟨h, fun _ _ => trivial, fun _ => ⟨_, rfl⟩⟩))
    fun _ _ => (safe_setPart _).bind fun _ _ => safe_pure rfl)

theorem tells_packageName (path : String) : Tells (PackApk.packageName path) := by
  refine (tells_files.bind fun _ => tells_pure _).bind fun there => ?_
  split
  · refine Tells.bind (Tells.bind (tells_files.bind fun files => ?_) fun _ => tells_pure _)
      fun names => ?_
    · split
      · exact tells_pure _
      · exact tells_throw _
    · split <;> exact tells_pure _
  · exact tells_pure _

theorem leaves_packApk : Leaves (PackApk.create file) w (Made False w file) :=
  leaves_create_bind ((safe_tells (tells_folder _ _)).bind fun _ _ =>
    (safe_tells (tells_packageName _)).bind fun _ _ =>
      (safe_tells (tells_folder _ _)).bind fun _ _ =>
        (safe_setPart _).bind fun _ _ => safe_pure rfl)

def Works (data : Value) : Prop := ∃ dir version folders, NamesVersion data dir version folders

theorem safe_keyForms : Safe (Works (held w.files file)) (New w file) (fun _ => True)
    (KeyForms.create file) := by
  intro w₁ h₁
  have hsecond : Leaves (KeyForms.create file) w₁ (Made True w₁ file) := leaves_keyForms
  refine hsecond.mono fun r w₂ h₂ => ⟨h₁.opens h₂.opens, fun _ _ => trivial, ?_⟩
  rintro ⟨dir, version, folders, hnames⟩
  obtain ⟨theme, htheme⟩ := h₁.palette
  have hversion : w₁.versionPath = shown (some (Path.join dir version)) := by
    rw [h₁.versionPath, hnames.announced? htheme h₁.paths]
    rfl
  have hne : some (Path.join dir version) ≠ some "" := by
    simp [Path.join_ne_empty hnames.dir_ne_empty]
  have hfolders := versionFolders_shown hne hnames.folders_eq
  refine h₂.ends trivial ?_
  rw [hversion, h₁.files, hnames.announced? htheme hfolders]
  simp

theorem safe_changeStore (f : KeyStore.Store → KeyStore.Store) :
    Safe good (New w file) (fun _ => True) (KeyStore.change w.tools.length f) := by
  refine Safe.bind (P := fun _ => True) (fun w₁ h₁ => ?_) fun s _ => safe_setPart _
  refine (ends_byNumber w₁ _).leaves_bind ?_
  split <;> exact leaves_pure ⟨h₁, fun _ _ => trivial, fun _ => ⟨_, rfl⟩⟩

theorem leaves_keyStore :
    Leaves (KeyStore.create file) w (Made (Works (held w.files file)) w file) := by
  refine leaves_create_bind (safe_keyForms.bind fun _ _ => (safe_changeStore _).bind fun _ _ =>
    Safe.bind (P := fun _ => True) ?_ fun _ _ => safe_pure rfl)
  exact (safe_setting _ _).bind fun _ _ => (safe_changeStore _).bind fun _ _ =>
    (safe_setting _ _).bind fun _ _ => (safe_changeStore _).bind fun _ _ =>
      (safe_setting _ _).bind fun _ _ => (safe_changeStore _).bind fun _ _ => safe_say _

theorem New.publish (h : New w file w') (hdir : (held w.files file).lookup "versions_dir" .null =
      .ok (w'.shelf w.tools.length).folder)
    (hlast : (held w.files file).lookup "last_version" .null = .ok (w'.shelf w.tools.length).last) :
    Leaves (Versions.publish w.tools.length) w' fun r w'' => New w file w'' ∧
      (Works (held w.files file) → ∃ a, r = .ok a) := by
  obtain ⟨theme, htheme⟩ := h.palette
  have hannounced := announced?_eq htheme h.paths hdir hlast
  refine (leaves_publish w' w.tools.length).mono fun r w'' h' => ?_
  obtain ⟨ht, hends⟩ := h'
  refine ⟨?_, fun hworks => hends ?_ ?_⟩
  · have hsame : (versionOf? (w'.shelf w.tools.length).folder (w'.shelf w.tools.length).last).elim
        w'.versionPath Value.text = w'.versionPath := by
      rw [← hannounced, h.versionPath]
      cases announced? w.versionPath (held w.files file) <;> rfl
    rw [hsame] at ht
    exact h.told ht
  · rw [h.log]
    trivial
  · obtain ⟨dir, version, folders, hnames⟩ := hworks
    rw [← hannounced, hnames.announced? htheme h.paths]
    simp

theorem New.withShelf (h : New w file w') (s : Versions.Shelf) :
    New w file (w'.withShelf w.tools.length s) :=
  h.setPart _

theorem safe_changeShelf (f : Versions.Shelf → Versions.Shelf) :
    Safe good (New w file) (fun _ => True) (Versions.change w.tools.length f) :=
  fun w₁ h₁ => (Versions.ends_change w₁ _ f).leaves
    ⟨h₁.withShelf _, fun _ _ => trivial, fun _ => ⟨_, rfl⟩⟩

theorem safe_members {v : Value} (h : (held w.files file).lookup "folder_structure" .null = .ok v) :
    Safe (Works (held w.files file)) (New w file) (fun _ => True)
      (attempt (v.members "values")) := by
  intro w₁ h₁
  have hyields := yields_attempt (v.members "values") w₁
  rw [Leaves, ← doneIn, hyields]
  refine ⟨h₁, fun _ _ => trivial, ?_⟩
  rintro ⟨dir, version, folders, hnames⟩
  rw [← Except.ok.inj (hnames.folders_eq.symm.trans h)]
  exact ⟨_, rfl⟩

theorem leaves_versions :
    Leaves (Versions.create file) w (Made (Works (held w.files file)) w file) := by
  refine leaves_create_bind fun w₁ h₁ => ?_
  obtain ⟨dir, hdir, hends₁⟩ := ends_setting h₁ "versions_dir" .null
  refine hends₁.leaves_bind ((Versions.ends_change w₁ _ _).leaves_bind ?_)
  have h₂ := h₁.withShelf { w₁.shelf w.tools.length with folder := dir }
  have hshelf₂ := @World.shelf_withShelf w₁ _ { w₁.shelf w.tools.length with folder := dir } h₁.lt
  obtain ⟨last, hlast, hends₂⟩ := ends_setting h₂ "last_version" .null
  refine hends₂.leaves_bind ((Versions.ends_change _ _ _).leaves_bind ?_)
  rw [hshelf₂]
  have h₃ := h₂.withShelf { w₁.shelf w.tools.length with folder := dir, last }
  have hshelf₃ :=
    @World.shelf_withShelf _ _ { w₁.shelf w.tools.length with folder := dir, last } h₂.lt
  refine (h₃.publish (by rw [hshelf₃, hdir]) (by rw [hshelf₃, hlast])).bind
    (fun _ w₄ h₄ => ?_) fun e w₄ h₄ => ⟨h₄.1, by rintro id ⟨⟩, fun hworks => ?_⟩
  · exact (safe_setting _ _).bind (fun _ hv => (safe_members hv).bind fun _ _ =>
      (safe_changeShelf _).bind fun _ _ => safe_pure (P := (· = w.tools.length)) rfl) w₄ h₄.1
  · obtain ⟨done, hdone⟩ := h₄.2 hworks
    cases hdone

end

/-- **Making the tool with a name**, however it ends. The tool that packs may fail afterwards. -/
theorem leaves_createNamed {w : World} {name : String} (hname : (maker? name).isSome)
    (file : String) :
    Leaves (createNamed name file) w
      (Made (name ≠ "Pack" ∧ Works (Settings.held w.files file)) w file) := by
  have hmono : ∀ {good good' : Prop} {m : Job Nat}, Leaves m w (Made good w file) →
      (good' → good) → Leaves m w (Made good' w file) :=
    fun h hgood => h.mono fun _ _ h => ⟨h.opens, h.new, fun h' => h.ends (hgood h')⟩
  obtain ⟨make, hmake⟩ := Option.isSome_iff_exists.mp hname
  rw [createNamed, hmake]
  rw [maker?.eq_def] at hmake
  split at hmake <;> cases hmake
  · exact leaves_create_bind ((safe_setting _ _).bind fun _ _ => (safe_setting _ _).bind fun _ _ =>
      (safe_setPart _).bind fun _ _ => safe_pure rfl)
  · exact hmono leaves_packApk fun h => h.1 rfl
  · exact leaves_keyForms
  · exact hmono leaves_keyStore (·.2)
  · exact hmono leaves_versions (·.2)
  · exact leaves_create _ file _ w
  · exact leaves_create _ file _ w
  · exact leaves_decompiler _
  · exact leaves_decompiler _
  · exact leaves_compiler _
  · exact leaves_compiler _
  · exact leaves_compiler _
  · exact leaves_create _ file _ w
  · exact leaves_create _ file _ w
  · exact leaves_create _ file _ w
  · exact leaves_assembler
  · exact leaves_disassembler

end Tool

end ApkWorkshop
