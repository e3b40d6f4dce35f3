import ApkWorkshop.Proofs.SettingsHistory
import ApkWorkshop.Proofs.TreeRemoval

/-!
# Settings of Tools

A tool reads its settings from a document that it shares with nobody, and a change goes to the file
at once. A file that cannot be written is complained about, and the change is kept.

* `ends_openFile_held` — opening a settings file ends well, whatever the file holds;
* `yields_setting` — reading a setting looks into the document and changes nothing;
* `Copies` — a file is written, and nothing else is touched;
* `leaves_setSetting` — **a setting can be changed** exactly if the document is an object.
-/

namespace ApkWorkshop

open Text

namespace Settings

/-! ### Opening -/

/-- What settings hold once their file is opened: nothing if it cannot be read. -/
def held (files : Files) (file : String) : Value :=
  match load files file with
  | .ok v => v
  | .error _ => .object []

theorem ends_display (w : World) : Ends Job.display w w.display w :=
  Ends.bind (ends_get.mpr ⟨rfl, rfl⟩) (ends_pure.mpr ⟨rfl, rfl⟩)

/-- The world once something was said to have gone wrong: there is a main window. -/
def complained (w : World) (message : String) : World :=
  { w with
    display := if w.display.main = none then w.display.addMain.1 else w.display
    journal := { w.journal with
      boxes := w.journal.boxes ++ [.error "Config error" message] } }

theorem ends_showError (message : String) (w : World) :
    Ends (showError message) w () (complained w message) := by
  rw [complained]
  cases hwindow : w.display.main with
  | some id =>
    have hmain : Ends Job.mainWindow w id w := by
      refine (ends_display w).bind ?_
      rw [hwindow]
      exact ends_pure.mpr ⟨rfl, rfl⟩
    exact hmain.bind (ends_modify.mpr rfl)
  | none =>
    have hmain : Ends Job.mainWindow w w.display.addMain.2
        { w with display := w.display.addMain.1 } := by
      refine (ends_display w).bind ?_
      rw [hwindow]
      exact (ends_display w).bind (Ends.modify_bind (ends_pure.mpr ⟨rfl, rfl⟩))
    exact hmain.bind (ends_modify.mpr rfl)

def opened (w : World) (file : String) : World :=
  { (match load w.files file with
      | .ok _ => w
      | .error fault => complained w ("Failed to load config: " ++ fault.message)) with
    settings := w.settings ++ [{ file, data := held w.files file }] }

/-- **Opening a file** ends well, whatever the file holds. -/
theorem ends_openFile_held (w : World) (file : String) :
    Ends (openFile file) w w.settings.length (opened w file) := by
  rw [opened, held]
  cases hload : load w.files file with
  | ok v => exact ends_openFile hload
  | error fault =>
    refine ends_openFile_of_read (u := complained w _) ((ends_files w).bind ?_)
    rw [hload]
    exact (ends_showError _ w).bind (ends_pure.mpr ⟨rfl, rfl⟩)

theorem opened_rest (w : World) (file : String) : ∃ boxes display, opened w file = { w with
    settings := w.settings ++ [{ file, data := held w.files file }]
    journal := { w.journal with boxes }
    display } := by
  rw [opened]
  split
  · exact ⟨w.journal.boxes, w.display, rfl⟩
  · exact ⟨_, _, rfl⟩

end Settings

/-! ### The document of a tool -/

def World.dataOf (w : World) (id : Nat) : Value :=
  ((w.settings[(w.tool id).settings]?).getD { file := "", data := .null }).data

theorem Value.lookup_eq_ok {v found usual : Value} {name : String}
    (h : v.lookup name usual = .ok found) : ∃ members, v = .object members := by
  cases v with
  | object members => exact ⟨members, rfl⟩
  | _ => cases h

theorem Value.assign_eq_ok {v new data : Value} {name : String} (h : v.assign name new = .ok data) :
    ∃ members, v = .object members ∧ data = .object (setMember name new members) := by
  cases v with
  | object members => exact ⟨members, rfl, (Except.ok.inj h).symm⟩
  | _ => cases h

theorem Files.grows_write {f f' : Files} {path : String} {content : List UInt8}
    (h : f.write path content = .ok f') : Grows f.root f'.root := by
  obtain ⟨place, hplace, rfl⟩ := Files.canWrite_of_write h
  exact hplace.grows content

/-- A file is written, besides what people and listeners notice. -/
structure Copies (w w' : World) : Prop where
  rest : w' = { w with files := w'.files, journal := w'.journal, display := w'.display }
  watchers : w'.display.cells.map (·.watcher) = w.display.cells.map (·.watcher)
  home : w'.files.home = w.files.home
  grows : Grows w.files.root w'.files.root

theorem Told.copies {w w' : World} (h : Told w w') : Copies w w' := by
  refine ⟨?_, h.watchers, by rw [h.files], by rw [h.files]; exact .refl _⟩
  conv_lhs => rw [h.rest]
  rw [h.files]

namespace Copies

variable {w w' w'' : World}

theorem trans (h : Copies w w') (h' : Copies w' w'') : Copies w w'' :=
  ⟨by rw [h'.rest, h.rest], h'.watchers.trans h.watchers, h'.home.trans h.home,
    h.grows.trans h'.grows⟩

theorem versionPath (h : Copies w w') : w'.versionPath = w.versionPath := by rw [h.rest]

theorem settings (h : Copies w w') : w'.settings = w.settings := by rw [h.rest]

theorem tools (h : Copies w w') : w'.tools = w.tools := by rw [h.rest]

theorem tool (h : Copies w w') (id : Nat) : w'.tool id = w.tool id := by
  rw [World.tool, World.tool, h.tools]

theorem shelf (h : Copies w w') (id : Nat) : w'.shelf id = w.shelf id := by
  rw [World.shelf, World.shelf, h.tool]

theorem dataOf (h : Copies w w') (id : Nat) : w'.dataOf id = w.dataOf id := by
  rw [World.dataOf, World.dataOf, h.tool, h.settings]

end Copies

namespace Tool

theorem ends_settings (w : World) (n : Nat) : Ends (Settings.byNumber n) w
    ((w.settings[n]?).getD { file := "", data := .null }) w := by
  refine Ends.bind (ends_get.mpr ⟨rfl, rfl⟩) ?_
  cases w.settings[n]? <;> exact ends_pure.mpr ⟨rfl, rfl⟩

theorem yields_setting (w : World) (id : Nat) (key : String) (usual : Value) :
    Job.Yields (setting id key usual) w ((w.dataOf id).lookup key usual) :=
  .of_ends (ends_byNumber w id) (.of_ends (ends_settings w _) (Job.yields_attempt _ w))

theorem watchers_complained (w : World) (message : String) :
    (Settings.complained w message).display.cells.map (·.watcher) =
      w.display.cells.map (·.watcher) := by
  rw [Settings.complained]
  split <;> rfl

theorem leaves_save (w : World) (n : Nat) :
    Leaves (Settings.save n) w fun r w' => r = .ok () ∧ Copies w w' := by
  refine Job.leaves_files_bind ((ends_settings w n).leaves_bind ?_)
  split
  · rename_i files hstore
    exact leaves_modify ⟨rfl, rfl, rfl, Files.home_write hstore, Files.grows_write hstore⟩
  · rename_i fault _
    exact (Settings.ends_showError _ w).leaves ⟨rfl, rfl, watchers_complained w _, rfl, .refl _⟩

theorem leaves_setSetting (w : World) (id : Nat) (key : String) (v : Value) :
    Leaves (setSetting id key v) w fun r w' =>
      (∃ members, w.dataOf id = .object members ∧ r = .ok () ∧
        Copies { w with settings := w'.settings } w' ∧
        w'.dataOf id = .object (setMember key v members)) ∨
      (∃ e, r = .error e) ∧ w' = w ∧ ∀ members, w.dataOf id ≠ .object members := by
  refine (ends_byNumber w id).leaves_bind ((ends_settings w _).leaves_bind ?_)
  refine (Job.yields_attempt _ w).leaves_bind (fun data hassign => ?_)
    fun e he => .inr ⟨⟨e, rfl⟩, rfl, fun members hmembers => ?_⟩
  · obtain ⟨members, hmembers, rfl⟩ := Value.assign_eq_ok hassign
    refine leaves_modify_bind ((leaves_save _ _).mono fun r w' h => ?_)
    obtain ⟨hr, hcopies⟩ := h
    refine .inl ⟨members, hmembers, hr, hcopies.settings ▸ hcopies, ?_⟩
    rw [hcopies.dataOf, World.dataOf]
    cases hs : w.settings[(w.tool id).settings]? with
    | none =>
      rw [hs] at hmembers
      cases hmembers
    | some s =>
      rw [World.tool] at hs
      simp [World.tool, hs]
  · rw [World.dataOf] at hmembers
    rw [hmembers] at he
    cases he

theorem tells_folder (id : Nat) (key : String) : Tells (folder id key) := by
  refine (tells_byNumber id).bind fun t => ?_
  split
  · exact tells_pure _
  · exact tells_throw _

end Tool

end ApkWorkshop
