import ApkWorkshop.Proofs.ToolSettings
import ApkWorkshop.Proofs.VersionFolders

/-!
# Imports That Fail

Adding a package goes through several stages, and each can fail. Up to the copy of the package no
file is written, but a version with the same name may already be gone, and the package with it if it
lies there. Once the package is copied nothing can fail any more.

* `plainName_of_read` — what can be read has a plain name;
* `leaves_copyPackage` — a copy that fails changes no file;
* `Ready` — what holds once a package is copied, and is kept by everything that is still done;
* `ends_adopt` — **from there on the import ends well**;
* `failed_import_keeps_files` — so an import that fails changes no file, unless somebody agreed to
  replace a version: then only files of that version are gone.

A package in the folder of its own version is lost that way (`import_loses_its_own_package`).
-/

namespace ApkWorkshop

open Text List ApkWorkshop.Path Files Job VersionName

/-! ### Paths of files -/

theorem Path.exists_parts_name (path : String) :
    '/' ∉ (name path).toList ∧ ∃ xs, parts path = xs ++ [name path] := by
  -- from the end of the path up to its last slash
  have hsplit := takeWhile_append_dropWhile (p := (· != '/')) (l := path.toList.reverse)
  have hname : (name path).toList = (path.toList.reverse.takeWhile (· != '/')).reverse :=
    String.toList_ofList
  have hnot : '/' ∉ (name path).toList := by
    intro hslash
    rw [hname, mem_reverse] at hslash
    exact absurd (mem_takeWhile_imp hslash) (by decide)
  refine ⟨hnot, ?_⟩
  cases hrest : path.toList.reverse.dropWhile (· != '/') with
  | nil =>
    rw [hrest, append_nil] at hsplit
    rw [hsplit, reverse_reverse] at hname
    refine ⟨[], ?_⟩
    rw [parts, ← hname, partsFrom_of_not_mem hnot]
    simp
  | cons c rest =>
    have hc : c = '/' := by
      have := head?_dropWhile_not (· != '/') path.toList.reverse
      rw [hrest] at this
      simpa using this
    have hpath : path.toList = rest.reverse ++ '/' :: (name path).toList := by
      have hreverse := congrArg List.reverse hsplit
      rw [hrest, hc, reverse_append, reverse_reverse, reverse_cons,
        append_assoc, ← hname] at hreverse
      exact hreverse.symm
    refine ⟨partsFrom [] rest.reverse, ?_⟩
    rw [parts, hpath, partsFrom_append, partsFrom_of_not_mem hnot]
    simp

theorem plainName_of_read {f : Files} {path : String} {content : List UInt8}
    (h : f.read path = .ok content) : PlainName (name path) := by
  obtain ⟨hslash, xs, hparts⟩ := exists_parts_name path
  obtain ⟨place, hlocate⟩ := exists_locate_of_read h
  obtain ⟨-, -, hfollow⟩ := locate_eq_follow hlocate trivial
  rw [hparts] at hfollow
  -- the other names lead to folders
  obtain ⟨above, entries, habove⟩ := exists_follow_above hfollow
  rw [follow_append habove] at hfollow
  have hentries := get?_of_follow_eq_found habove
  obtain ⟨-, next, -, hleads, hnext⟩ := follow_cons_eq_found hfollow
  obtain ⟨rfl, hfile⟩ := follow_nil_eq_found hnext
  cases hleads with
  | stay => exact absurd (hfile.symm.trans hentries) (by simp)
  | up =>
    by_cases hroot : above = []
    · subst hroot
      exact absurd (hfile.symm.trans hentries) (by simp)
    · obtain ⟨-, found, hfound⟩ := Node.hasFolder_of_get? hentries hroot
      exact absurd (hfile.symm.trans hfound) (by simp)
  | down hname => exact ⟨fun h => hname.1 (.inl h), hslash, fun h => hname.1 (.inr h), hname.2⟩

theorem Files.of_copy {f f' : Files} {source target : String} (h : f.copy source target = .ok f') :
    PlainName (name source) ∧ f'.home = f.home ∧ Grows f.root f'.root := by
  rw [copy] at h
  generalize (if f.isFolder target then join target (name source) else target) = aim at h
  split at h
  · cases h
  cases hread : f.read source with
  | error fault =>
    rw [hread] at h
    cases h
  | ok content =>
    simp only [hread, bind, Except.bind] at h
    exact ⟨plainName_of_read hread, home_write h, grows_write h⟩

namespace Tool.Versions

variable {w w' w₁ : World} {path source : String} {package : Value}

/-! ### Once the package is copied -/

def Unwatched (w : World) (cell : Nat) : Prop :=
  (w.display.cells.map (·.watcher))[cell]?.join = none

def HasObject (w : World) (id : Nat) : Prop := ∃ members, w.dataOf id = .object members

/-- What holds once a package is copied: a log that never fails, a folder of versions that is there,
a list that no panel follows, and an object as the settings. What the last version is varies. -/
structure Ready (id : Nat) (dir : String) (P : Value → Prop) (w : World) : Prop where
  log : (w.tool id).log.TakesAll
  folder : (w.shelf id).folder = .text dir
  last : P (w.shelf id).last
  list : ∀ list, (w.shelf id).list = some list → Unwatched w list.cell
  data : HasObject w id
  dir_ne_empty : dir ≠ ""
  isFolder : w.files.isFolder dir = true

variable {id : Nat} {dir : String} {P : Value → Prop}

theorem Ready.told (h : Ready id dir P w) (ht : Told w w') : Ready id dir P w' where
  log := ht.takesAll h.log
  folder := by rw [ht.shelf]; exact h.folder
  last := by rw [ht.shelf]; exact h.last
  list := by
    intro list hlist
    rw [Unwatched, ht.watchers]
    exact h.list list (ht.shelf id ▸ hlist)
  data := by rw [HasObject, ht.copies.dataOf]; exact h.data
  dir_ne_empty := h.dir_ne_empty
  isFolder := by rw [ht.files]; exact h.isFolder

theorem sure_of_tells {α : Type} {m : Job α} (hm : Tells m)
    (hok : ∀ w, Ready id dir P w → Leaves m w fun r _ => ∃ a, r = .ok a) :
    Sure (Ready id dir P) m :=
  fun w hw => ⟨hok w hw, hw.told (hm w)⟩

theorem sure_say (line : String) : Sure (Ready id dir P) (say id line) := by
  refine sure_of_tells (tells_say id line) fun w hw => ?_
  exact leaves_say hw.log fun _ _ => ⟨_, rfl⟩

theorem sure_emit (event : String) (data : Value) : Sure (Ready id dir P) (emit id event data) := by
  refine sure_of_tells (tells_emit id event data) fun w hw => ?_
  obtain ⟨w', hends, -⟩ := ends_emit hw.log event data
  exact hends.leaves ⟨_, rfl⟩

theorem Ready.copies (h : Ready id dir P w) (hc : Copies w w') : Ready id dir P w' where
  log := by rw [hc.tool]; exact h.log
  folder := by rw [hc.shelf]; exact h.folder
  last := by rw [hc.shelf]; exact h.last
  list := by
    intro list hlist
    rw [Unwatched, hc.watchers]
    exact h.list list (hc.shelf id ▸ hlist)
  data := by rw [HasObject, hc.dataOf]; exact h.data
  dir_ne_empty := h.dir_ne_empty
  isFolder := isFolder_grows hc.home hc.grows h.isFolder

theorem sure_setSetting (key : String) (v : Value) :
    Sure (Ready id dir P) (setSetting id key v) := by
  intro w hw
  obtain ⟨members, hmembers⟩ := hw.data
  refine (leaves_setSetting w id key v).mono fun r w' h => ?_
  rcases h with ⟨_, -, hr, hcopies, hdata⟩ | ⟨-, -, hno⟩
  · have hchanged : Ready id dir P { w with settings := w'.settings } :=
      ⟨hw.log, hw.folder, hw.last, hw.list, ⟨_, (hcopies.dataOf id).symm.trans hdata⟩,
        hw.dir_ne_empty, hw.isFolder⟩
    exact ⟨⟨_, hr⟩, hchanged.copies hcopies⟩
  · exact absurd hmembers (hno members)

/-! ### The shelf -/

theorem leaves_change_last {Q : Value → Prop} (hw : Ready id dir P w) {last : Value}
    (hlast : Q last) :
    Leaves (change id fun s => { s with last }) w fun r w' => (∃ a, r = .ok a) ∧
      Ready id dir Q w' := by
  have hlt : id < w.tools.length := World.lt_length_of_shelf (by rw [hw.folder]; simp)
  refine (ends_change w id _).leaves ⟨⟨_, rfl⟩, ?_⟩
  have htool := @World.tool_withShelf w id { w.shelf id with last } hlt
  have hshelf := @World.shelf_withShelf w id { w.shelf id with last } hlt
  exact ⟨by rw [htool]; exact hw.log, by rw [hshelf]; exact hw.folder, by rw [hshelf]; exact hlast,
    by rw [hshelf]; exact hw.list, by rw [HasObject, World.dataOf, htool]; exact hw.data,
    hw.dir_ne_empty, hw.isFolder⟩

def IsText (v : Value) : Prop := ∃ s, v = .text s

theorem sure_publish : Sure (Ready id dir IsText) (publish id) := by
  intro w hw
  obtain ⟨last, hlast⟩ := hw.last
  refine (ends_shelf w id).leaves_bind ?_
  split
  · have hpath : Ends (attempt ((w.shelf id).folder.joinPath (w.shelf id).last)) w
        (join dir last) w := by
      rw [hw.folder, hlast]
      exact ends_pure.mpr ⟨rfl, rfl⟩
    refine hpath.leaves_bind (leaves_modify_bind ?_)
    exact sure_say _ _ ⟨hw.log, hw.folder, hw.last, hw.list, hw.data, hw.dir_ne_empty, hw.isFolder⟩
  · exact leaves_pure ⟨⟨_, rfl⟩, hw⟩

theorem sure_versions : Sure (Ready id dir P) (versions id) := by
  refine sure_of_tells (tells_versions id) fun w hw => ?_
  obtain ⟨place, entries, hlocate⟩ := exists_locate_of_isFolder hw.isFolder
  have hstands : Ends (stands (.text dir)) w (w.files.exists? dir) w := rfl
  have hnames : Ends (names dir) w entries.names w := by
    refine Ends.bind (Settings.ends_files w) ?_
    rw [list, hlocate]
    exact ends_pure.mpr ⟨rfl, rfl⟩
  refine (ends_shelf w id).leaves_bind ?_
  dsimp only
  rw [hw.folder]
  split
  · exact leaves_pure ⟨_, rfl⟩
  refine hstands.leaves_bind ?_
  split
  · exact leaves_pure ⟨_, rfl⟩
  have hpath : Ends (attempt (Value.text dir).path) w dir w := ends_pure.mpr ⟨rfl, rfl⟩
  exact hpath.leaves_bind (leaves_files_bind (hnames.leaves_bind (leaves_pure ⟨_, rfl⟩)))

theorem leaves_enter_ok {cell : Nat} (h : Unwatched w cell) (s : String) :
    Leaves (ThemePanel.enter cell s) w fun r _ => ∃ a, r = .ok a := by
  rw [Unwatched, ← watchers_setCell w.display cell (.text s)] at h
  have hwatcher : ((w.display.setCell cell (.text s)).cells[cell]?).bind (·.watcher) = none := by
    cases hcell : (w.display.setCell cell (.text s)).cells[cell]? with
    | none => rfl
    | some c => simpa [hcell] using h
  refine leaves_modify_bind (Ends.leaves_bind (Settings.ends_display _) ?_)
  rw [hwatcher]
  exact leaves_pure ⟨_, rfl⟩

theorem sure_refreshList : Sure (Ready id dir IsText) (refreshList id) := by
  intro w hw
  refine (ends_shelf w id).leaves_bind ?_
  cases hlist : (w.shelf id).list with
  | none => exact leaves_pure ⟨⟨_, rfl⟩, hw⟩
  | some list =>
    -- until the text is entered, the list on the screen is the same
    have henter : ∀ v s, Told w v → Leaves (ThemePanel.enter list.cell s) v fun r v' =>
        (∃ a, r = .ok a) ∧ Ready id dir IsText v' := by
      intro v s hv
      have hready := hw.told hv
      refine ⟨leaves_enter_ok (hready.list list ?_) s, hready.told (tells_enter _ s v)⟩
      rw [hv.shelf, hlist]
    have hfound : Leaves (versions id) w fun r w₁ => (∃ a, r = .ok a) ∧ Told w w₁ :=
      ⟨(sure_versions w hw).1, tells_versions id w⟩
    have hchoices : ∀ v choices, Leaves (setChoices list.choice choices) v fun r v' =>
        (∃ a, r = .ok a) ∧ Told v v' := fun v _ => ⟨⟨_, rfl⟩, tells_change _ _ v⟩
    refine hfound.bind_ok fun found w₁ h₁ => (hchoices w₁ _).bind_ok fun _ w₂ h₂ => ?_
    have h₁₂ := h₁.trans h₂
    split
    · exact henter w₂ _ h₁₂
    split
    · exact (henter w₂ _ h₁₂).bind_ok fun _ w₃ h₃ =>
        (leaves_change_last h₃ ⟨_, rfl⟩).bind_ok fun _ w₄ h₄ =>
          (sure_setSetting _ _).bind (fun _ => sure_publish) w₄ h₄
    · exact henter w₂ _ h₁₂

theorem ends_adopt (hw : Ready id dir P w) (version path : String) :
    ∃ w', Ends (addPackage.adopt id version path) w true w' := by
  have hadopt : Leaves (addPackage.adopt id version path) w fun r _ => r = .ok true := by
    refine (sure_setSetting _ _ w hw).bind_ok fun _ w₁ h₁ =>
      (leaves_change_last (Q := IsText) h₁ ⟨version, rfl⟩).bind_ok fun _ w₂ h₂ => ?_
    refine (sure_publish w₂ h₂).bind_ok fun _ w₃ h₃ =>
      (sure_refreshList w₃ h₃).bind_ok fun _ w₄ h₄ => ?_
    refine (sure_say _ w₄ h₄).bind_ok fun _ w₅ h₅ => (sure_say _ w₅ h₅).bind_ok fun _ w₆ h₆ => ?_
    refine (sure_say _ w₆ h₆).bind_ok fun _ w₇ h₇ => (sure_versions w₇ h₇).bind_ok fun _ w₈ h₈ => ?_
    exact (sure_emit _ _ w₈ h₈).bind_ok fun _ _ _ => leaves_pure rfl
  exact ⟨_, ends_of_run hadopt⟩

/-! ### Copying the package -/

theorem Copies.of_builds (h : Builds w w') : Copies w w' :=
  ⟨h.rest, h.watchers, h.adds.home, h.adds.grows⟩

/-- What holds when a package was copied. -/
structure PackageCopied (id : Nat) (package : Value) (w w' : World) : Prop where
  source : ∃ source, package = .text source ∧ PlainName (Path.name source)
  data : HasObject w id
  copies : Copies w w'

theorem leaves_copyPackage_attempted (hlog : (w.tool id).log.TakesAll) (package : Value)
    (hpath : path ≠ "") :
    Leaves (copyPackage.attempted id package (.text path)) w fun r w' =>
      (∃ target, r = .ok (some target) ∧ target ≠ "" ∧ PackageCopied id package w w') ∨
      (∃ e, r = .error e) ∧ Builds w w' := by
  have hfault : ∀ {e : Fault} {w' : World} {P : Prop}, Builds w w' →
      P ∨ (∃ e', (Except.error e : Except Fault (Option String)) = .error e') ∧ Builds w w' :=
    fun h => .inr ⟨⟨_, rfl⟩, h⟩
  refine leaves_attempt_bind (fun source hsource => ?_) fun e _ => hfault (.refl w)
  refine (yields_setting w id _ _).leaves_bind (fun folders hfolders => ?_)
    fun e _ => hfault (.refl w)
  refine leaves_attempt_bind (fun name _ => ?_) fun e _ => hfault (.refl w)
  refine leaves_attempt_bind (fun folder hfolder => ?_) fun e _ => hfault (.refl w)
  refine (builds_makeFolders folder w).bind (fun _ w₁ h₁ => ?_) fun e _ h => hfault h
  refine ((tells_say id _).builds w₁).bind (fun _ w₂ h₂ => ?_) fun e _ h => hfault (h₁.trans h)
  have h₁₂ := h₁.trans h₂
  refine leaves_onFiles_bind (fun files hfiles => ?_) fun fault _ => hfault h₁₂
  obtain ⟨hname, hhome, hgrows⟩ := of_copy hfiles
  have hcopies : Copies w { w₂ with files } :=
    (Copies.of_builds h₁₂).trans ⟨rfl, rfl, hhome, hgrows⟩
  refine leaves_say_bind (by rw [hcopies.tool]; exact hlog) fun w₃ htold => ?_
  refine leaves_pure (.inl ⟨_, rfl, ?_, ?_, Value.lookup_eq_ok hfolders, ?_⟩)
  · refine join_ne_empty ?_ _
    cases name with
    | text part =>
      rw [← Except.ok.inj hfolder]
      exact join_ne_empty hpath part
    | _ => cases hfolder
  · cases package with
    | text other =>
      obtain rfl : other = source := Except.ok.inj hsource
      exact ⟨other, rfl, hname⟩
    | _ => cases hsource
  · exact hcopies.trans htold.copies

/-- **Copying a package** into the folder of a version, with a log that never fails. A copy that
fails changes no file. -/
theorem leaves_copyPackage (hlog : (w.tool id).log.TakesAll) (package : Value) (hpath : path ≠ "") :
    Leaves (copyPackage id package (.text path)) w fun r w' =>
      (∃ target, r = .ok (some target) ∧ target ≠ "" ∧ PackageCopied id package w w') ∨
      r = .ok none ∧ Builds w w' := by
  refine leaves_orElse (leaves_copyPackage_attempted hlog package hpath)
    (fun a w' h => h.imp_right ?_) fun e w' h => ?_
  · rintro ⟨⟨e, he⟩, -⟩
    cases he
  · rcases h with ⟨target, htarget, -⟩ | ⟨-, hbuilds⟩
    · cases htarget
    · refine leaves_say_bind (by rw [World.tool, hbuilds.tools]; exact hlog) fun w₁ htold => ?_
      exact leaves_pure (.inr ⟨rfl, hbuilds.trans htold.builds⟩)

/-! ### Imports -/

/-- What an import that failed leaves behind: the same files, or, if a question was answered with
yes, the same files outside of the folder of the version. -/
structure Failed (id : Nat) (package : Value) (w w' : World) : Prop where
  rearranges : Rearranges w w'
  contents : w.files.SameContents w'.files ∨ ∃ dir source, (w.shelf id).folder = .text dir ∧
    package = .text source ∧ w.outside.answers = true :: w'.outside.answers ∧
    ∀ place, ¬ w.files.wayTo (Path.join dir (VersionName.ofFile (Path.name source))) <+: place →
      w'.files.contentAt place = w.files.contentAt place

theorem Failed.of_builds (h : Builds w w') : Failed id package w w' :=
  ⟨h.rearranges, .inl h.adds.sameContents⟩

theorem Failed.of_makesVersion {r : Except Fault (Option String)} (h : Builds w w₁)
    (hmade : MakesVersion w₁ id (ofFile (name source)) r w') : Failed id (.text source) w w' := by
  generalize hversion : ofFile (name source) = version at hmade
  refine ⟨h.rearranges.trans hmade.rearranges, ?_⟩
  rcases hmade.spares with hadds | ⟨dir, hfolder, -, hanswers, hspares⟩
  · exact .inl (Files.Spares.sameContents (h.adds.trans hadds))
  · refine .inr ⟨dir, source, ?_, rfl, ?_, fun place hplace => ?_⟩
    · rw [← hfolder, World.shelf, World.shelf, World.tool, World.tool, h.tools]
    · rw [← h.outside, hanswers]
    · rw [hversion, ← wayTo_congr h.adds.home] at hplace
      rw [hspares.contentAt place hplace, h.adds.contentAt place not_false]

theorem Failed.trans_builds (h : Failed id package w w₁) (hbuilds : Builds w₁ w') :
    Failed id package w w' := by
  refine ⟨h.rearranges.trans hbuilds.rearranges, ?_⟩
  rcases h.contents with hsame | ⟨dir, source, hfolder, hpackage, hanswers, hcontents⟩
  · exact .inl (hsame.trans hbuilds.adds.sameContents)
  · refine .inr ⟨dir, source, hfolder, hpackage, ?_, fun place hplace => ?_⟩
    · rw [hbuilds.outside, hanswers]
    · rw [hbuilds.adds.contentAt place not_false, hcontents place hplace]

theorem PackageCopied.ready {version : String} (hlog : (w.tool id).log.TakesAll)
    (hlist : ∀ list, (w.shelf id).list = some list → Unwatched w list.cell)
    (hversion : PlainName (name source) → PlainName version)
    (hmade : MakesVersion w id version (.ok (some path)) w₁)
    (hcopied : PackageCopied id (.text source) w₁ w') : ∃ dir, Ready id dir (fun _ => True) w' := by
  obtain ⟨dir, hfolder, hdir, rfl, hisFolder⟩ := hmade.made path rfl
  obtain ⟨other, hother, hname⟩ := hcopied.source
  obtain rfl : source = other := Value.text.inj hother
  have htool : w'.tool id = w.tool id := by
    rw [hcopied.copies.tool, World.tool, World.tool, hmade.rearranges.tools]
  have hshelf : w'.shelf id = w.shelf id := by rw [World.shelf, World.shelf, htool]
  refine ⟨dir, by rw [htool]; exact hlog, by rw [hshelf]; exact hfolder, trivial, ?_, ?_, hdir, ?_⟩
  · intro list h
    rw [Unwatched, hcopied.copies.watchers, hmade.rearranges.watchers]
    exact hlist list (hshelf ▸ h)
  · rw [HasObject, hcopied.copies.dataOf]
    exact hcopied.data
  · obtain ⟨place, entries, hlocate⟩ := exists_locate_of_isFolder
      (isFolder_grows hcopied.copies.home hcopied.copies.grows (hisFolder (hversion hname)))
    exact isFolder_of_locate_join hdir (hversion hname) hlocate

theorem leaves_imported (hlog : (w.tool id).log.TakesAll)
    (hlist : ∀ list, (w.shelf id).list = some list → Unwatched w list.cell) (source : String)
    (h₁ : Builds w w₁) :
    Leaves (addPackage.imported id (.text source) (name source)) w₁ fun r w' =>
      r = .ok true ∨ r ≠ .ok true ∧ Failed id (.text source) w w' := by
  refine (leaves_versionOf id _ w₁).bind (fun version w₂ h₂ => ?_)
    fun e w₂ h₂ => .inr ⟨by simp, .of_builds (h₁.trans h₂.1.builds)⟩
  obtain ⟨htold, hversion⟩ := h₂
  rw [hversion version rfl]
  have h₂ := h₁.trans htold.builds
  have hlist₂ : ∀ list, (w₂.shelf id).list = some list → Unwatched w₂ list.cell := by
    intro list h
    rw [Unwatched, h₂.watchers]
    rw [World.shelf, World.tool, h₂.tools] at h
    exact hlist list h
  split
  · exact ((tells_say id _).builds w₂).bind
      (fun _ w₃ h₃ => leaves_pure (.inr ⟨by simp, .of_builds (h₂.trans h₃)⟩))
      fun e w₃ h₃ => .inr ⟨by simp, .of_builds (h₂.trans h₃)⟩
  refine (leaves_makeVersion id _ w₂).bind (fun made w₃ h₃ => ?_)
    fun e w₃ h₃ => .inr ⟨by simp, .of_makesVersion h₂ h₃⟩
  split
  · exact leaves_pure (.inr ⟨by simp, .of_makesVersion h₂ h₃⟩)
  · exact leaves_pure (.inr ⟨by simp, .of_makesVersion h₂ h₃⟩)
  rename_i path hpath
  have hlog₃ : (w₃.tool id).log.TakesAll := by
    rw [World.tool, (h₂.rearranges.trans h₃.rearranges).tools]
    exact hlog
  refine (leaves_copyPackage hlog₃ (.text source) (fun h => hpath h)).bind (fun copied w₄ h₄ => ?_)
    fun e w₄ h₄ => ?_
  · rcases h₄ with ⟨target, htarget, hne, hcopied⟩ | ⟨hnone, hbuilds⟩
    · cases htarget
      have hlog₂ : (w₂.tool id).log.TakesAll := by
        rw [World.tool, h₂.tools]
        exact hlog
      obtain ⟨dir, hready⟩ := hcopied.ready hlog₂ hlist₂ plainName_ofFile h₃
      obtain ⟨w', hends⟩ := ends_adopt hready (ofFile (name source)) path
      split
      · rename_i heq
        cases heq
      · rename_i heq
        exact absurd (Option.some.inj heq) hne
      · exact hends.leaves (.inl rfl)
    · cases hnone
      exact leaves_pure (.inr ⟨by simp, (Failed.of_makesVersion h₂ h₃).trans_builds hbuilds⟩)
  · rcases h₄ with ⟨target, htarget, -⟩ | ⟨hnone, -⟩
    · cases htarget
    · cases hnone

/-- **An import**, with a log that never fails, up to the word about a fault. -/
theorem leaves_addPackage_attempted (hlog : (w.tool id).log.TakesAll)
    (hlist : ∀ list, (w.shelf id).list = some list → Unwatched w list.cell) (package : Value) :
    Leaves (addPackage.attempted id package) w fun r w' =>
      r = .ok true ∨ r ≠ .ok true ∧ Failed id package w w' := by
  have hfailed : ∀ {r : Except Fault Bool} {w' : World}, r ≠ .ok true → Builds w w' →
      r = .ok true ∨ r ≠ .ok true ∧ Failed id package w w' :=
    fun hr h => .inr ⟨hr, .of_builds h⟩
  refine leaves_attempt_bind (fun source hsource => ?_) fun e _ => hfailed (by simp) (.refl w)
  obtain rfl : package = .text source := by
    cases package with
    | text other => rw [Except.ok.inj hsource]
    | _ => cases hsource
  refine ((tells_say id _).builds w).bind (fun _ w₁ h₁ => ?_) fun e _ h => hfailed (by simp) h
  refine (ends_shelf w₁ id).leaves_bind ?_
  dsimp only
  split
  · refine ((tells_say id _).builds w₁).bind (fun _ w₂ h₂ => ?_)
      fun e _ h => hfailed (by simp) (h₁.trans h)
    refine ((tells_note _).builds w₂).bind (fun _ w₃ h₃ => ?_)
      fun e _ h => hfailed (by simp) (h₁.trans (h₂.trans h))
    exact leaves_pure (hfailed (by simp) (h₁.trans (h₂.trans h₃)))
  refine (Tells.builds (tells_files.bind fun _ => tells_attempt _) w₁).bind (fun there w₂ h₂ => ?_)
    fun e _ h => hfailed (by simp) (h₁.trans h)
  have h₁₂ := h₁.trans h₂
  split
  · refine ((tells_say id _).builds w₂).bind (fun _ w₃ h₃ => ?_)
      fun e _ h => hfailed (by simp) (h₁₂.trans h)
    refine leaves_attempt_bind (fun path _ => ?_) fun e _ => hfailed (by simp) (h₁₂.trans h₃)
    refine (builds_makeFolders path w₃).bind (fun _ w₄ h₄ => ?_)
      fun e _ h => hfailed (by simp) (h₁₂.trans (h₃.trans h))
    exact leaves_imported hlog hlist source (h₁₂.trans (h₃.trans h₄))
  · exact leaves_imported hlog hlist source h₁₂

/-- **An import that fails destroys no file that it was not allowed to replace.** With a log that
never fails, and a list of versions that no panel follows, adding a package always ends. If it ends
with no, every file is the same as before, and no file is new; or a question was answered with yes,
and that is true outside of the folder of the version. -/
theorem failed_import_keeps_files {w : World} (hlog : (w.tool id).log.TakesAll)
    (hlist : ∀ list, (w.shelf id).list = some list → Unwatched w list.cell) (package : Value) :
    ∃ done w', Ends (addPackage id package) w done w' ∧ (done = false →
      w.files.SameContents w'.files ∨ ∃ dir source, (w.shelf id).folder = .text dir ∧
        package = .text source ∧ w.outside.answers = true :: w'.outside.answers ∧
        ∀ place, ¬ w.files.wayTo (Path.join dir (VersionName.ofFile (Path.name source))) <+: place →
          w'.files.contentAt place = w.files.contentAt place) := by
  have hends : Leaves (addPackage id package) w fun r w' =>
      r = .ok true ∨ r = .ok false ∧ Failed id package w w' := by
    refine Job.leaves_orElse (leaves_addPackage_attempted hlog hlist package) (fun a w' h => ?_)
      fun e w₁ h => ?_
    · cases a with
      | true => exact .inl rfl
      | false => exact h.imp_right fun h => ⟨rfl, h.2⟩
    · rcases h with htrue | ⟨-, hfailed⟩
      · cases htrue
      · obtain ⟨w', hsay, htold⟩ := @ends_say w₁ id
          (by rw [World.tool, hfailed.rearranges.tools]; exact hlog)
          ("❌ Error importing APK: " ++ e.message)
        exact hsay.leaves_bind (leaves_pure (.inr ⟨rfl, hfailed.trans_builds htold.builds⟩))
  rcases hends with htrue | ⟨hfalse, hfailed⟩
  · exact ⟨true, _, ends_of_run htrue, by rintro ⟨⟩⟩
  · exact ⟨false, _, ends_of_run hfalse, fun _ => hfailed.contents⟩

/-- A package that lies in the folder of its own version, and a file of another version. The next
answer is yes. -/
def ownPackage : World where
  files := ⟨.folder (.cons "versions" (.folder (.cons "0.9"
    (.folder (.cons "note" (.file [1]) .nil)) (.cons "1.0" (.folder (.cons "1_APK"
      (.folder (.cons "app-1.0.apk" (.file [80, 75]) .nil)) .nil)) .nil))) .nil), []⟩
  outside := { answers := [true] }
  settings := [{ file := "", data := .object [] }]
  tools := [{ settings := 0, part := .versions (.text "versions") .null [.text "1_APK"] none }]

def addOwnPackage : Job Bool := addPackage 0 (.text "versions/1.0/1_APK/app-1.0.apk")

theorem ends_addOwnPackage :
    Ends addOwnPackage ownPackage false (addOwnPackage.doneIn ownPackage).2 :=
  ends_of_doneIn (by decide +kernel)

/-- The package is deleted with its version, and the other version is kept. -/
theorem failed_import_keeps_files_ownPackage :
    (ownPackage.tool 0).log.TakesAll ∧ (ownPackage.shelf 0).list = none ∧
    ∃ w', Ends addOwnPackage ownPackage false w' ∧
      w'.files.contentAt ["versions", "0.9", "note"] = some [1] := by
  have hnote : ownPackage.files.contentAt ["versions", "0.9", "note"] = some [1] := by
    decide +kernel
  have hway : ownPackage.files.wayTo (Path.join "versions"
      (VersionName.ofFile (Path.name "versions/1.0/1_APK/app-1.0.apk"))) = ["versions", "1.0"] := by
    decide +kernel
  refine ⟨trivial, rfl, ?_⟩
  obtain ⟨done, w', hends, hfiles⟩ := @failed_import_keeps_files 0 ownPackage trivial
    (by rintro list ⟨⟩) (.text "versions/1.0/1_APK/app-1.0.apk")
  obtain ⟨rfl, -⟩ := hends.unique ends_addOwnPackage
  refine ⟨w', hends, ?_⟩
  rcases hfiles rfl with hsame | ⟨dir, source, hdir, hsource, -, hsame⟩
  · rw [hsame.contentAt, hnote]
  · obtain rfl : "versions" = dir := Value.text.inj hdir
    obtain rfl : "versions/1.0/1_APK/app-1.0.apk" = source := Value.text.inj hsource
    rw [hway] at hsame
    rw [hsame _ (by decide), hnote]

/-- **A failed import can lose a file**: the package was there, its folder is made anew, and then
there is nothing to copy. -/
theorem import_loses_its_own_package : ∃ w', Ends addOwnPackage ownPackage false w' ∧
    ownPackage.files.contentAt ["versions", "1.0", "1_APK", "app-1.0.apk"] = some [80, 75] ∧
    w'.files.contentAt ["versions", "1.0", "1_APK", "app-1.0.apk"] = none :=
  ⟨_, ends_addOwnPackage, by decide +kernel, by decide +kernel⟩

end Tool.Versions

end ApkWorkshop
