import ApkWorkshop.Proofs.TreeRemoval

/-!
# Folders of Versions

Adding a package makes a folder for its version, and removes what has that name if somebody agrees.
Its name comes from a file name that nobody checks. What the removal can reach is decided by two
things: the folder of versions, as the tool knows it, and the version.

* `Builds` — nothing is removed and no file is new: making folders and writing log lines;
* `leaves_ask` — the answer to a question is the next one;
* `leaves_makeVersion` — **what making a version leaves behind**, however it ends;
* `import_removes_version_folder_only` — the version of a plain file name is plain, so only an entry
  of the folder of versions with that name is ever removed.
-/

namespace ApkWorkshop

open Text Job VersionName

variable {w w' : World}

/-! ### Jobs that only add folders -/

/-- Only folders are new, besides what people and listeners notice. -/
structure Builds (w w' : World) : Prop where
  rest : w' = { w with files := w'.files, journal := w'.journal, display := w'.display }
  watchers : w'.display.cells.map (·.watcher) = w.display.cells.map (·.watcher)
  adds : w.files.Adds w'.files

theorem Told.builds (h : Told w w') : Builds w w' := by
  refine ⟨?_, h.watchers, ?_⟩
  · conv_lhs => rw [h.rest]
    rw [h.files]
  · rw [h.files]
    exact .refl _ _

namespace Builds

variable {w w' w'' : World}

theorem refl (w : World) : Builds w w := (Told.refl w).builds

theorem trans (h : Builds w w') (h' : Builds w' w'') : Builds w w'' :=
  ⟨by rw [h'.rest, h.rest], h'.watchers.trans h.watchers, h.adds.trans h'.adds⟩

theorem outside (h : Builds w w') : w'.outside = w.outside := by rw [h.rest]

theorem tools (h : Builds w w') : w'.tools = w.tools := by rw [h.rest]

end Builds

theorem Tells.builds {α : Type} {m : Job α} (h : Tells m) : Within Builds m :=
  fun w => (h w).mono fun _ _ h => h.builds

theorem Job.leaves_makeFolders (path : String) (w : World) :
    Leaves (makeFolders path) w fun r w' => Builds w w' ∧
      (r = .ok () → PlainName (Path.name path) → w'.files.isFolder path = true) := by
  have hadds := Files.Spares.makeFolders w.files path
  have hfolder := @Files.isFolder_makeFolders w.files path
  refine leaves_files_bind ?_
  generalize w.files.makeFolders path = made at *
  obtain ⟨files, fault⟩ := made
  have hbuilds : Builds w { w with files } := ⟨rfl, rfl, hadds⟩
  refine leaves_modify_bind ?_
  cases fault with
  | some fault => exact leaves_throw ⟨hbuilds, fun h => by cases h⟩
  | none => exact leaves_pure ⟨hbuilds, fun _ hname => hfolder hname rfl⟩

theorem Job.builds_makeFolders (path : String) : Within Builds (makeFolders path) :=
  fun w => (leaves_makeFolders path w).mono fun _ _ h => h.1

/-! ### Questions -/

theorem Job.ends_standsAt (w : World) (path : String) :
    Ends (standsAt path) w (w.files.exists? path) w := rfl

theorem Job.leaves_ask (title message : String) (w : World) :
    Leaves (ask title message) w fun r w' =>
      r = .ok (w.outside.answers.headD false) ∧ w' = { w with
        journal := w'.journal
        outside := { w.outside with answers := w.outside.answers.tail } } := by
  refine leaves_modify_bind (leaves_get_bind ?_)
  cases hanswers : w.outside.answers with
  | nil =>
    have houtside : w.outside = { w.outside with answers := [] } := by rw [← hanswers]
    refine leaves_pure ⟨rfl, ?_⟩
    rw [List.tail_nil, ← houtside]
  | cons answer rest => exact leaves_modify_bind (leaves_pure ⟨rfl, rfl⟩)

/-! ### Making a version -/

/-- Files, answers, the journal and the screen may differ. -/
structure Rearranges (w w' : World) : Prop where
  rest : w' = { w with
    files := w'.files
    outside := { w.outside with answers := w'.outside.answers }
    journal := w'.journal
    display := w'.display }
  watchers : w'.display.cells.map (·.watcher) = w.display.cells.map (·.watcher)

theorem Builds.rearranges (h : Builds w w') : Rearranges w w' := by
  refine ⟨?_, h.watchers⟩
  conv_lhs => rw [h.rest]
  rw [h.outside]

theorem Rearranges.trans {w'' : World} (h : Rearranges w w') (h' : Rearranges w' w'') :
    Rearranges w w'' :=
  ⟨by rw [h'.rest, h.rest], h'.watchers.trans h.watchers⟩

theorem Rearranges.tools (h : Rearranges w w') : w'.tools = w.tools := by
  rw [h.rest]

namespace Tool.Versions

theorem leaves_made (id : Nat) (s : Shelf) (path : String) (w : World) :
    Leaves (makeVersion.made id s path) w fun r w' => Builds w w' ∧
      ∀ p, r = .ok (some p) → p = path ∧
        (PlainName (Path.name path) → w'.files.isFolder path = true) := by
  have hsubfolders : Within Builds (s.subfolders.forM fun name => do
      let folder ← attempt (Value.joinPath (.text path) name)
      makeFolders folder
      say id ("   📁 Created: " ++ name.plain)) :=
    within_forM Builds.refl (fun _ _ _ => Builds.trans) fun name _ =>
      Within.bind (R := Builds) (fun _ _ _ => Builds.trans) (within_attempt Builds.refl _)
        fun folder => Within.bind (R := Builds) (fun _ _ _ => Builds.trans)
          (builds_makeFolders folder) fun _ => (tells_say id _).builds
  rw [makeVersion.made]
  refine ((tells_say id _).builds w).bind (fun _ w₁ h₁ => ?_) fun _ _ h => ⟨h, by rintro p ⟨⟩⟩
  refine (leaves_makeFolders path w₁).bind (fun _ w₂ h₂ => ?_)
    fun _ _ h => ⟨h₁.trans h.1, by rintro p ⟨⟩⟩
  have h₁₂ := h₁.trans h₂.1
  refine (hsubfolders w₂).bind (fun _ w₃ h₃ => ?_) fun _ _ h => ⟨h₁₂.trans h, by rintro p ⟨⟩⟩
  refine ((tells_say id _).builds w₃).bind (fun _ w₄ h₄ => leaves_pure ?_)
    fun _ _ h => ⟨h₁₂.trans (h₃.trans h), by rintro p ⟨⟩⟩
  have h₂₄ := h₃.trans h₄
  refine ⟨h₁₂.trans h₂₄, fun p hp => ?_⟩
  cases hp
  exact ⟨rfl, fun hname =>
    Files.isFolder_grows h₂₄.adds.home h₂₄.adds.grows (h₂.2 rfl hname)⟩

theorem leaves_made_orElse (id : Nat) (s : Shelf) {dir : String} (hdir : dir ≠ "")
    (version : String) (w : World) :
    Leaves ((makeVersion.made id s (Path.join dir version)).orElse fun fault => do
      say id ("❌ Failed to create directory structure: " ++ fault.message)
      return none) w fun r w' => Builds w w' ∧ ∀ path, r = .ok (some path) →
        path = Path.join dir version ∧ (PlainName version → w'.files.isFolder path = true) := by
  refine leaves_orElse (leaves_made id s _ w) (fun a w' h => ⟨h.1, fun path hpath => ?_⟩)
    fun fault w' h => ?_
  · obtain ⟨rfl, hisFolder⟩ := h.2 path hpath
    exact ⟨rfl, fun hversion => hisFolder ((Files.name_join hdir hversion).symm ▸ hversion)⟩
  · exact ((tells_say id _).builds w').bind
      (fun _ w₁ h₁ => leaves_pure ⟨h.1.trans h₁, by rintro path ⟨⟩⟩)
      fun _ _ h₁ => ⟨h.1.trans h₁, by rintro path ⟨⟩⟩

/-- What making a version leaves behind: everything that stood there, or, if a question was answered
with yes, everything but what was below the folder of the version. -/
structure MakesVersion (w : World) (id : Nat) (version : String)
    (r : Except Fault (Option String)) (w' : World) : Prop where
  rearranges : Rearranges w w'
  spares : w.files.Adds w'.files ∨ ∃ dir, (w.shelf id).folder = .text dir ∧ dir ≠ "" ∧
    w.outside.answers = true :: w'.outside.answers ∧
    w.files.Spares (w.files.wayTo (Path.join dir version) <+: ·) w'.files
  made : ∀ path, r = .ok (some path) → ∃ dir, (w.shelf id).folder = .text dir ∧ dir ≠ "" ∧
    path = Path.join dir version ∧ (PlainName version → w'.files.isFolder path = true)

theorem leaves_removeTree_agreed {w w₁ : World} (hyes : w.outside.answers.headD false = true)
    (hw₁ : w₁ = { w with
      journal := w₁.journal
      outside := { w.outside with answers := w.outside.answers.tail } }) (path : String) :
    Leaves (removeTree path) w₁ fun _ w' => Rearranges w w' ∧
      w.outside.answers = true :: w'.outside.answers ∧
      w.files.Spares (w.files.wayTo path <+: ·) w'.files := by
  have hask : Rearranges w w₁ := ⟨by rw [hw₁], by rw [hw₁]⟩
  have hfiles : w₁.files = w.files := by rw [hw₁]
  have hanswers : w.outside.answers = true :: w₁.outside.answers := by
    rw [hw₁]
    cases hlist : w.outside.answers with
    | nil => simp [hlist] at hyes
    | cons answer rest => simpa [hlist] using hyes
  refine (leaves_removeTree path w₁).mono fun _ w' h => ?_
  obtain ⟨files, rfl, hspares⟩ := h
  exact ⟨hask.trans ⟨rfl, rfl⟩, hanswers, hfiles ▸ hspares⟩

theorem leaves_makeVersion (id : Nat) (version : String) (w : World) :
    Leaves (makeVersion id (.text version)) w (MakesVersion w id version) := by
  have hnone : ∀ {w' : World} {r : Except Fault (Option String)}, Builds w w' →
      (∀ path, r ≠ .ok (some path)) → MakesVersion w id version r w' :=
    fun h hr => ⟨h.rearranges, .inl h.adds, fun path hpath => absurd hpath (hr path)⟩
  rw [makeVersion]
  refine (ends_shelf w id).leaves_bind ?_
  split
  · exact ((tells_say id _).builds w).bind (fun _ w₁ h₁ => leaves_pure (hnone h₁ (by simp)))
      fun _ _ h => hnone h (by simp)
  rename_i hgiven
  cases hfolder : (w.shelf id).folder with
  | text dir =>
    have hdir : dir ≠ "" := by
      rw [hfolder] at hgiven
      rintro rfl
      exact hgiven rfl
    have hpath : Ends (attempt ((Value.text dir).joinPath (.text version))) w
        (Path.join dir version) w := ends_pure.mpr ⟨rfl, rfl⟩
    refine hpath.leaves_bind ((ends_standsAt w _).leaves_bind ?_)
    split
    · refine (leaves_ask _ _ w).bind (fun wanted w₁ h₁ => ?_) fun _ _ h => by cases h.1
      obtain ⟨hwanted, hw₁⟩ := h₁
      split
      · refine leaves_pure ⟨⟨by rw [hw₁], by rw [hw₁]⟩, .inl ?_, by rintro path ⟨⟩⟩
        rw [hw₁]
        exact .refl _ _
      rename_i hyes
      have hagreed : w.outside.answers.headD false = true := by
        rw [← Except.ok.inj hwanted]
        simpa using hyes
      refine (leaves_removeTree_agreed hagreed hw₁ _).bind (fun _ w₂ h₂ => ?_) fun _ w₂ h₂ => ?_
      · obtain ⟨hrest, hanswers, hspares⟩ := h₂
        refine (leaves_made_orElse id _ hdir version w₂).mono fun r w' h => ?_
        refine ⟨hrest.trans h.1.rearranges, .inr ⟨dir, hfolder, hdir, ?_, ?_⟩,
          fun path hpath => ⟨dir, hfolder, hdir, h.2 path hpath⟩⟩
        · rw [h.1.outside, hanswers]
        · exact hspares.trans (h.1.adds.mono fun _ hfalse => hfalse.elim)
      · exact ⟨h₂.1, .inr ⟨dir, hfolder, hdir, h₂.2⟩, by rintro path ⟨⟩⟩
    · refine (leaves_made_orElse id _ hdir version w).mono fun r w' h => ?_
      exact ⟨h.1.rearranges, .inl h.1.adds, fun path hpath => ⟨dir, hfolder, hdir, h.2 path hpath⟩⟩
  | _ => exact leaves_throw_bind (hnone (.refl w) (by simp))

/-! ### Versions of packages -/

theorem leaves_versionOf (id : Nat) (name : String) (w : World) :
    Leaves (versionOf id name) w fun r w' => Told w w' ∧
      ∀ version, r = .ok version → version = ofFile name := by
  have hversion : (ofFileNoted name).1 = ofFile name := by
    rw [ofFileNoted, ofFile]
    cases find? name <;> rfl
  rw [versionOf, ← hversion]
  refine (tells_forM (fun note _ => tells_say id note) w).bind
    (fun _ w' h => leaves_pure ⟨h, fun v hv => ?_⟩) fun _ _ h => ⟨h, by rintro v ⟨⟩⟩
  exact (Except.ok.inj hv).symm

theorem MakesVersion.of_told {w w₁ w' : World} {id : Nat} {version : String}
    {r : Except Fault (Option String)} (ht : Told w w₁) (h : MakesVersion w₁ id version r w') :
    MakesVersion w id version r w' := by
  refine ⟨ht.builds.rearranges.trans h.rearranges, ?_, ?_⟩
  · rw [← ht.files, ← ht.outside, ← ht.shelf id]
    exact h.spares
  · rw [← ht.shelf id]
    exact h.made

theorem leaves_versionOf_makeVersion (id : Nat) (name : String) (w : World) :
    Leaves (do makeVersion id (.text (← versionOf id name))) w
      (MakesVersion w id (ofFile name)) := by
  refine (leaves_versionOf id name w).bind (fun version w₁ h₁ => ?_) fun _ w₁ h₁ => ?_
  · rw [h₁.2 version rfl]
    exact (leaves_makeVersion id _ w₁).mono fun _ _ h => h.of_told h₁.1
  · exact ⟨h₁.1.builds.rearranges, .inl h₁.1.builds.adds, by rintro path ⟨⟩⟩

/-- **The folder of a version is an entry of the folder of versions.** The version of a plain file
name is a plain name. So making the version of a package with such a name, in any world and however
it ends, removes nothing but the entry of the folder of versions that has the version as its name,
and that only if the next answer is yes; and the folder that it makes is that entry. -/
theorem import_removes_version_folder_only :
    (∀ name, PlainName name → PlainName (VersionName.ofFile name)) ∧
    ∀ (w : World) (id : Nat) (source : String), PlainName (Path.name source) →
      let version := VersionName.ofFile (Path.name source)
      ∀ r w',
        Job.doneIn (do makeVersion id (.text (← versionOf id (Path.name source)))) w = (r, w') →
        (∀ place x, w.files.standing place = some x → w'.files.standing place = some x ∨
          ∃ dir, (w.shelf id).folder = .text dir ∧ w.outside.answers.head? = some true ∧
            w.files.wayTo dir ++ [version] <+: place) ∧
        ∀ path, r = .ok (some path) → ∃ dir, (w.shelf id).folder = .text dir ∧
          path = Path.join dir version ∧ w.files.wayTo path = w.files.wayTo dir ++ [version] ∧
          w'.files.isFolder path = true := by
  refine ⟨fun name => VersionName.plainName_ofFile, fun w id source hsource => ?_⟩
  intro version r w' hrun
  have hversion : PlainName version := VersionName.plainName_ofFile hsource
  have hleaves : MakesVersion w id version r w' := by
    have hboth := leaves_versionOf_makeVersion id (Path.name source) w
    rwa [Leaves, ← Job.doneIn, hrun] at hboth
  clear_value version
  refine ⟨fun place x hx => ?_, fun path hpath => ?_⟩
  · rcases hleaves.spares with hadds | ⟨dir, hfolder, hdir, hanswers, hspares⟩
    · exact .inl (hadds.stands place x not_false hx)
    · by_cases hplace : w.files.wayTo dir ++ [version] <+: place
      · exact .inr ⟨dir, hfolder, by rw [hanswers]; rfl, hplace⟩
      · rw [Files.wayTo_join _ hdir hversion] at hspares
        exact .inl (hspares.stands place x hplace hx)
  · obtain ⟨dir, hfolder, hdir, rfl, hisFolder⟩ := hleaves.made path hpath
    exact ⟨dir, hfolder, rfl, Files.wayTo_join _ hdir hversion, hisFolder hversion⟩

def twoVersions : World where
  files := ⟨.folder (.cons "versions" (.folder (.cons "0.9" (.folder .nil)
    (.cons "1.0" (.folder (.cons "x" (.file [1]) .nil)) .nil))) .nil), []⟩
  outside := { answers := [true] }
  tools := [{ settings := 0, part := .versions (.text "versions") .null [] none }]

def remakeVersion : Job (Option String) := do
  makeVersion 0 (.text (← versionOf 0 (Path.name "in/app-1.0.apk")))

/-- The version of the package is made anew, and the other one stays. -/
theorem import_removes_version_folder_only_twoVersions :
    PlainName (Path.name "in/app-1.0.apk") ∧
    (remakeVersion.doneIn twoVersions).2.files.standing ["versions", "1.0", "x"] = none ∧
    (remakeVersion.doneIn twoVersions).2.files.standing ["versions", "0.9"] = some none := by
  have hplain : PlainName (Path.name "in/app-1.0.apk") := by constructor <;> decide +kernel
  have hversion : VersionName.ofFile (Path.name "in/app-1.0.apk") = "1.0" := by decide +kernel
  have hway : twoVersions.files.wayTo "versions" = ["versions"] := by decide +kernel
  have hold : twoVersions.files.standing ["versions", "0.9"] = some none := by decide +kernel
  refine ⟨hplain, by decide +kernel, ?_⟩
  cases hrun : remakeVersion.doneIn twoVersions with
  | mk r w' =>
    rcases (import_removes_version_folder_only.2 twoVersions 0 "in/app-1.0.apk" hplain r w'
      hrun).1 ["versions", "0.9"] none hold with hstands | ⟨dir, hdir, -, hbelow⟩
    · exact hstands
    · obtain rfl : "versions" = dir := Value.text.inj hdir
      rw [hversion, hway] at hbelow
      exact absurd hbelow (by decide)

end Tool.Versions

end ApkWorkshop
