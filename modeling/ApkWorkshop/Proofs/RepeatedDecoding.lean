import ApkWorkshop.Proofs.DecompiledPaths
import ApkWorkshop.Proofs.FailedFiles
import ApkWorkshop.Proofs.PatternSearch
import Mathlib.Data.Finset.Max

/-!
# Decoding a Folder Twice

The decoder of the editing folder writes to a folder inside of it, and looks for Lua files in both.
So a run finds what the run before it has written:

* `Files.Keeps`, `Steady` — a run only adds files or writes them again, whatever its listeners do;
* `FileWork` — what a batch does to its files depends on nothing but the files;
* `Decoder.leaves_process`, `Decoder.ends_processAll` — **one file, and a batch of them**: a file
  without trouble stands at its output, and the next ones leave it there;
* `Decoder.second_decoding_same_iff` — **a second run** that has no trouble goes one folder deeper
  than the first one. It leaves the files as they are exactly if there is no Lua file at all.
-/

namespace ApkWorkshop

open List ApkWorkshop.Path Files Job

namespace Files

/-- Everything stands where it stood, folders as folders and files as files. -/
structure Keeps (f f' : Files) : Prop where
  home : f'.home = f.home
  proper : f.root.Proper → f'.root.Proper
  grows : Grows f.root f'.root
  file : ∀ place, (f.contentAt place).isSome → (f'.contentAt place).isSome

section

variable {f f' f'' : Files} {path : String}

theorem Keeps.refl (f : Files) : f.Keeps f :=
  ⟨rfl, id, .refl _, fun _ => id⟩

theorem Keeps.trans (h : f.Keeps f') (h' : f'.Keeps f'') : f.Keeps f'' :=
  ⟨h'.home.trans h.home, fun hf => h'.proper (h.proper hf), h.grows.trans h'.grows,
    fun place hplace => h'.file place (h.file place hplace)⟩

theorem keeps_makeFolders (f : Files) (path : String) : f.Keeps (f.makeFolders path).1 := by
  have hadds := Spares.makeFolders f path
  refine ⟨hadds.home, fun hf => proper_makeFolders hf path, hadds.grows, fun place hplace => ?_⟩
  rwa [hadds.sameContents.contentAt]

theorem keeps_write {content : List UInt8} (h : f.write path content = .ok f') : f.Keeps f' := by
  refine ⟨home_write h, fun hf => proper_write hf h, grows_write h, fun place hplace => ?_⟩
  rw [contentAt_write h]
  split
  · rfl
  · exact hplace

theorem Keeps.exists? (h : f.Keeps f') (hpath : f.exists? path = true) :
    f'.exists? path = true := by
  rw [Files.exists?] at hpath
  split at hpath
  swap
  · cases hpath
  rename_i place node hlocate
  obtain ⟨node', hnode', -⟩ := locate_grows hlocate h.grows
  have hf' : f' = { f with root := f'.root } := by rw [← h.home]
  rw [Files.exists?, hf', hnode']

end

end Files

/-! ### What every step of a run keeps -/

/-- The files are kept, and a tool is the same up to its report. -/
structure Steady (id : Nat) (w w' : World) : Prop where
  files : w.files.Keeps w'.files
  part : (w'.tool id).part = (w.tool id).part
  paths : (w'.tool id).paths = (w.tool id).paths
  log : (w'.tool id).log = (w.tool id).log

section

variable {α β : Type} {id : Nat} {m : Job α} {f : α → Job β} {w w' : World}

theorem Steady.refl (w : World) : Steady id w w :=
  ⟨.refl _, rfl, rfl, rfl⟩

theorem Steady.trans {w'' : World} (h : Steady id w w') (h' : Steady id w' w'') : Steady id w w'' :=
  ⟨h.files.trans h'.files, h'.part.trans h.part, h'.paths.trans h.paths, h'.log.trans h.log⟩

theorem steady_of_files {files : Files} (h : w.files.Keeps files) : Steady id w { w with files } :=
  ⟨h, rfl, rfl, rfl⟩

theorem Told.steady (h : Told w w') : Steady id w w' :=
  ⟨h.files ▸ .refl _, by rw [h.tool], by rw [h.tool], by rw [h.tool]⟩

theorem Tells.steady (h : Tells m) : Within (Steady id) m :=
  fun w => (h w).mono fun _ _ h => h.steady

theorem steady_bind (hm : Within (Steady id) m) (hf : ∀ a, Within (Steady id) (f a)) :
    Within (Steady id) (m >>= f) :=
  Within.bind (R := Steady id) (fun _ _ _ => Steady.trans) hm hf

theorem steady_mapM (hf : ∀ a, Within (Steady id) (f a)) (xs : List α) :
    Within (Steady id) (xs.mapM f) := by
  induction xs with
  | nil => exact within_pure Steady.refl _
  | cons x xs ih =>
    rw [mapM_cons]
    exact steady_bind (hf x) fun _ => steady_bind ih fun _ => within_pure Steady.refl _

theorem steady_makeFolders (path : String) : Within (Steady id) (makeFolders path) := by
  intro w
  rw [← bind_pure (makeFolders path)]
  have hkeeps := w.files.keeps_makeFolders path
  exact leaves_makeFolders_bind (fun _ => leaves_pure (steady_of_files hkeeps))
    fun _ _ => steady_of_files hkeeps

end

/-! ### Work on files alone -/

/-- A job that sees nothing but the files: its result, and what it does to them, depend on no other
part of the world. -/
def FileWork {α : Type} (m : Job α) : Prop :=
  ∀ w v : World, v.files = w.files →
    (m.doneIn v).1 = (m.doneIn w).1 ∧ (m.doneIn v).2.files = (m.doneIn w).2.files

section

variable {α β : Type} {m : Job α} {f : α → Job β}

theorem FileWork.exists_ends {a : α} {w w' v : World} (hm : FileWork m) (h : Ends m w a w')
    (hfiles : v.files = w.files) : ∃ v', Ends m v a v' ∧ v'.files = w'.files := by
  have hrun : m.doneIn w = (.ok a, w') := h
  have hsame := hm w v hfiles
  rw [hrun] at hsame
  exact ⟨_, ends_of_run hsame.1, hsame.2⟩

theorem fileWork_pure (a : α) : FileWork (pure a) := fun _ _ h => ⟨rfl, h⟩

theorem fileWork_throw (e : Fault) : FileWork (throw e : Job α) := fun _ _ h => ⟨rfl, h⟩

theorem fileWork_files : FileWork files := fun _ _ h => ⟨congrArg Except.ok h, h⟩

theorem FileWork.bind (hm : FileWork m) (hf : ∀ a, FileWork (f a)) : FileWork (m >>= f) := by
  intro w v h
  have hfirst := hm w v h
  cases hw : m.doneIn w with
  | mk r w₁ =>
    cases hv : m.doneIn v with
    | mk r' v₁ =>
      rw [hw, hv] at hfirst
      obtain ⟨rfl, hfiles⟩ := hfirst
      cases r' with
      | ok a =>
        have hrun : ∀ {u u₁}, m.doneIn u = (.ok a, u₁) → (m >>= f).doneIn u = (f a).doneIn u₁ :=
          fun hu => Ends.run_bind hu
        rw [hrun hw, hrun hv]
        exact hf a w₁ v₁ hfiles
      | error e =>
        rw [doneIn_bind_error hw, doneIn_bind_error hv]
        exact ⟨rfl, hfiles⟩

theorem FileWork.orElse {handle : Fault → Job α} (hm : FileWork m)
    (hhandle : ∀ e, FileWork (handle e)) : FileWork (m.orElse handle) := by
  intro w v h
  have hfirst := hm w v h
  rw [doneIn_orElse, doneIn_orElse]
  generalize m.doneIn w = first at hfirst
  generalize m.doneIn v = first' at hfirst
  obtain ⟨r, w₁⟩ := first
  obtain ⟨r', v₁⟩ := first'
  obtain ⟨rfl, hfiles⟩ := hfirst
  cases r' with
  | ok a => exact ⟨rfl, hfiles⟩
  | error e => exact hhandle e w₁ v₁ hfiles

theorem fileWork_mapM (hf : ∀ a, FileWork (f a)) (xs : List α) : FileWork (xs.mapM f) := by
  induction xs with
  | nil => exact fileWork_pure _
  | cons x xs ih =>
    rw [mapM_cons]
    exact (hf x).bind fun _ => ih.bind fun _ => fileWork_pure _

theorem fileWork_onFiles (f : Files → Except FileFault Files) : FileWork (onFiles f) := by
  refine fileWork_files.bind fun files => ?_
  split
  · exact fun _ _ _ => ⟨rfl, rfl⟩
  · exact fileWork_throw _

theorem fileWork_makeFolders (path : String) : FileWork (makeFolders path) := by
  refine fileWork_files.bind fun files => ?_
  refine FileWork.bind (fun _ _ _ => ⟨rfl, rfl⟩) fun _ => ?_
  split
  · exact fileWork_throw _
  · exact fileWork_pure _

theorem fileWork_readBytes (path : String) : FileWork (readBytes path) := by
  refine fileWork_files.bind fun files => ?_
  split
  · exact fileWork_pure _
  · exact fileWork_throw _

end

namespace Tool

theorem tells_routeFolders (id : Nat) (route : Route) : Tells (routeFolders id route) := by
  cases route <;> exact (tells_folder id _).bind fun _ => (tells_folder id _).bind fun _ =>
    tells_pure _

theorem tells_countFiles (id total : Nat) (outcomes : List (String × Processed)) :
    ∀ tally, Tells (countFiles (showProgress id) total tally outcomes) := by
  induction outcomes with
  | nil => exact fun tally => tells_pure tally
  | cons first rest ih =>
    refine fun tally => Tells.bind ?_ fun _ => ih _
    refine Tells.orElse ((tells_showProgress id _).bind fun _ => ?_) fun _ => tells_pure _
    split <;> exact tells_pure _

theorem within_reportBatch (id total : Nat) (tally : Tally) (done reported : String) :
    Within (fun w w' => w'.files = w.files ∧ Steady id w w')
      (reportBatch id total tally done reported) := by
  intro w
  refine (tells_forM (fun line _ => tells_say id line) w).bind (fun _ w₁ h₁ => ?_)
    fun _ _ h => ⟨h.files, h.steady⟩
  refine leaves_modify ⟨h₁.files, h₁.steady.trans ⟨.refl _, ?_, ?_, ?_⟩⟩
  all_goals
    simp only [World.tool, getElem?_modify]
    cases w₁.tools[id]? <;> simp

namespace Decoder

open Text

/-! ### One file and a batch -/

/-- **One file**: it never stops the batch, and without trouble it stands at its output. -/
theorem leaves_process (id : Nat) (input output : String) (w : World) :
    Leaves (process input output) w fun r w' => Steady id w w' ∧ ∃ processed, r = .ok processed ∧
      (processed.trouble = none → (w'.files.contentAt (w.files.wayTo output)).isSome) := by
  have hattempt : Leaves (process.attempted input output) w fun r w' => Steady id w w' ∧
      ∀ processed, r = .ok processed → (w'.files.contentAt (w.files.wayTo output)).isSome := by
    have hmade := w.files.keeps_makeFolders (Path.folder output)
    refine leaves_makeFolders_bind (fun _ => ?_) fun fault _ => ⟨steady_of_files hmade, by simp⟩
    generalize (w.files.makeFolders (Path.folder output)).1 = f₁ at hmade
    refine leaves_readBytes_bind (fun _ _ => ?_) fun fault _ => ⟨steady_of_files hmade, by simp⟩
    refine leaves_writeText_bind (fun f₂ hf₂ => ?_) fun fault _ =>
      ⟨steady_of_files hmade, by simp⟩
    have hempty := hmade.trans (keeps_write hf₂)
    refine leaves_readBytes_bind (fun bytes _ => ?_) fun fault _ =>
      ⟨steady_of_files hempty, by simp⟩
    generalize decodeLines (lines (unifyNewlines (decodeLenient bytes))) = decoded
    refine leaves_writeText_bind (fun f₃ hf₃ => ?_) fun fault _ =>
      ⟨steady_of_files hempty, by simp⟩
    have hwritten := hempty.trans (keeps_write hf₃)
    split
    · exact leaves_throw ⟨steady_of_files hwritten, by simp⟩
    · refine leaves_pure ⟨steady_of_files hwritten, fun processed _ => ?_⟩
      rw [contentAt_write hf₃, wayTo_congr hempty.home, if_pos rfl]
      rfl
  refine leaves_orElse hattempt (fun processed w' h => ?_) fun e w' h => ?_
  · exact ⟨h.1, processed, rfl, fun _ => h.2 processed rfl⟩
  · exact leaves_pure ⟨h.1, _, rfl, by simp⟩

/-- **A batch**: if no file has trouble, each stands at its output when all are done. -/
theorem ends_processAll {tasks : List (String × String)} {outcomes : List (String × Processed)}
    {w w' : World} (h : Ends (processAll process tasks) w outcomes w') : w.files.Keeps w'.files ∧
      ((∀ outcome ∈ outcomes, outcome.2.trouble = none) →
        ∀ task ∈ tasks, (w'.files.contentAt (w.files.wayTo task.2)).isSome) := by
  rw [processAll] at h
  induction tasks generalizing outcomes w with
  | nil =>
    rw [mapM_nil, ends_pure] at h
    exact ⟨h.2 ▸ .refl _, by simp⟩
  | cons task tasks ih =>
    rw [mapM_cons] at h
    obtain ⟨first, w₁, hfirst, hrest⟩ := ends_bind.mp h
    obtain ⟨processed, w₂, hprocess, hpair⟩ := ends_bind.mp hfirst
    obtain ⟨rfl, rfl⟩ := ends_pure.mp hpair
    obtain ⟨rest, w₃, htasks, hpure⟩ := ends_bind.mp hrest
    obtain ⟨rfl, rfl⟩ := ends_pure.mp hpure
    obtain ⟨hsteady, _, hprocessed, hstands⟩ :=
      (leaves_process 0 task.1 task.2 w).of_ends hprocess
    cases hprocessed
    obtain ⟨hkeeps, hall⟩ := ih htasks
    refine ⟨hsteady.files.trans hkeeps, fun hnone => ?_⟩
    rw [forall_mem_cons] at hnone ⊢
    refine ⟨hkeeps.file _ (hstands hnone.1), fun later hlater => ?_⟩
    rw [← wayTo_congr hsteady.files.home]
    exact hall hnone.2 later hlater

theorem fileWork_process (input output : String) : FileWork (process input output) := by
  refine FileWork.orElse ?_ fun _ => fileWork_pure _
  refine (fileWork_makeFolders _).bind fun _ => (fileWork_readBytes input).bind fun _ => ?_
  refine (fileWork_onFiles _).bind fun _ => (fileWork_readBytes input).bind fun bytes => ?_
  refine (fileWork_onFiles _).bind fun _ => ?_
  split
  · exact fileWork_throw _
  · exact fileWork_pure _

theorem fileWork_processAll (tasks : List (String × String)) :
    FileWork (processAll process tasks) := by
  refine fileWork_mapM (fun task => ?_) tasks
  exact (fileWork_process task.1 task.2).bind fun _ => fileWork_pure _

/-! ### A run -/

theorem tells_folders (id : Nat) : Tells (folders id) := by
  refine (tells_byNumber id).bind fun t => ?_
  split
  · exact tells_routeFolders id _
  · exact tells_throw _

/-- **A run keeps the files**, also if it stops with a fault. -/
theorem steady_decode_attempted (id : Nat) : Within (Steady id) (decode.attempted id) := by
  refine steady_bind (tells_folders id).steady fun route => ?_
  refine steady_bind (tells_say id _).steady fun _ => ?_
  refine steady_bind (tells_files.bind fun _ => tells_pure _).steady fun there => ?_
  split
  · exact steady_bind (tells_say id _).steady fun _ => (tells_pure _).steady
  refine steady_bind tells_files.steady fun files => ?_
  dsimp only
  split
  · exact steady_bind (tells_say id _).steady fun _ => (tells_pure _).steady
  refine steady_bind (tells_say id _).steady fun _ => ?_
  refine steady_bind (steady_makeFolders _) fun _ => ?_
  refine steady_bind (steady_mapM (fun path => Tells.steady ?_) _) fun tasks => ?_
  · exact (tells_files.bind fun _ => tells_pure _).bind fun _ => tells_pure _
  refine steady_bind (steady_mapM (fun task => ?_) tasks) fun outcomes => ?_
  · exact steady_bind (fun w => (leaves_process id task.1 task.2 w).mono fun _ _ h => h.1)
      fun _ => (tells_pure _).steady
  · exact steady_bind (tells_countFiles id _ outcomes _).steady fun _ w =>
      (within_reportBatch id _ _ _ _ w).mono fun _ _ h => h.2

theorem exists_ends_decode {w : World} {id : Nat} (hlog : (w.tool id).log.TakesAll) :
    ∃ w', Ends (decode id) w () w' ∧ Steady id w w' := by
  have hends : Leaves (decode id) w fun r w' => ∃ a, r = .ok a ∧ Steady id w w' := by
    refine leaves_orElse (steady_decode_attempted id w) (fun _ _ h => ⟨(), rfl, h⟩)
      fun fault w₁ h₁ => ?_
    exact leaves_say (by rw [h₁.log]; exact hlog) fun w' htold =>
      ⟨(), rfl, h₁.trans htold.steady⟩
  obtain ⟨_, w', h⟩ := hends.exists_ends
  exact ⟨w', h⟩

section

variable {id : Nat} {editing : String} {w w' : World}

theorem exists?_of_found {f : Files} (h : filesEnding f ".lua" editing ≠ []) :
    f.exists? editing = true := by
  rw [filesEnding, walk] at h
  rw [Files.exists?]
  cases hlocate : f.locate editing <;> simp_all

theorem exists_foundPlaces {f : Files} (hf : f.root.Proper) (hexists : f.exists? editing = true) :
    ∃ places : List (List String),
      filesEnding f ".lua" editing = places.map (Path.joinAll editing) ∧ ∀ place,
        place ∈ places ↔ endsLike ".lua" (place.getLast?.getD "") = true ∧ place ≠ [] ∧
          (f.contentAt (f.wayTo editing ++ place)).isSome := by
  obtain ⟨places, hentries, hplaces⟩ := exists_luaPlaces hf hexists
  refine ⟨places, ?_, fun place => ?_⟩
  · change (luaEntries f editing).map (fun entry => join entry.1 entry.2) = _
    rw [hentries, map_map]
    exact map_congr_left fun place h => join_entryAt editing ((hplaces place).mp h).2.1
  · rw [hplaces, contentAt_eq_standing]
    refine and_congr_right fun _ => and_congr_right fun _ => ?_
    cases f.standing (f.wayTo editing ++ place) with
    | none => simp
    | some found => simp [Option.isSome_iff_exists]

/-- The Lua files below the editing folder, each with the path it is decoded to. -/
def tasksIn (f : Files) (editing : String) : List (String × String) :=
  (filesEnding f ".lua" editing).map fun path =>
    (path, Path.join (Path.join editing "UTF-8") (Path.relative f.home path editing))

def prepared (editing : String) (w : World) : World :=
  { w with files := (w.files.makeFolders (Path.join editing "UTF-8")).1 }

theorem files_prepared (editing : String) (w : World) : (prepared editing w).files =
    (w.files.makeFolders (join editing "UTF-8")).1 := by
  rw [prepared]

/-- Each Lua file below the editing folder is decoded without trouble. -/
def AllDecoded (editing : String) (w : World) : Prop :=
  filesEnding w.files ".lua" editing ≠ [] →
    (w.files.makeFolders (Path.join editing "UTF-8")).2 = none ∧ ∃ outcomes w',
      Ends (processAll process (tasksIn w.files editing)) (prepared editing w) outcomes w' ∧
      ∀ outcome ∈ outcomes, outcome.2.trouble = none

theorem ends_tasks (input output : String) (paths : List String) (w : World) :
    Ends (paths.mapM fun path => return (path, join output (← relativePath input path))) w
      (paths.map fun path => (path, join output (relative w.files.home path input)))
      w := by
  induction paths with
  | nil => exact ends_pure.mpr ⟨rfl, rfl⟩
  | cons path paths ih =>
    have hpath : Ends (relativePath input path) w (relative w.files.home path input) w :=
      (Settings.ends_files w).bind (ends_pure.mpr ⟨rfl, rfl⟩)
    rw [mapM_cons]
    refine Ends.bind (hpath.bind (ends_pure.mpr ⟨rfl, rfl⟩)) ?_
    exact ih.bind (ends_pure.mpr ⟨rfl, rfl⟩)

section

variable (hpart : (w.tool id).part = .decoder .editingToUtf8)
  (hediting : (w.tool id).paths.lookup "editing" = some editing)

include hpart hediting

theorem ends_folders : Ends (folders id) w (editing, join editing "UTF-8") w := by
  have hfolder : Ends (folder id "editing") w editing w := by
    refine (ends_byNumber w id).bind ?_
    rw [hediting]
    exact ends_pure.mpr ⟨rfl, rfl⟩
  refine (ends_byNumber w id).bind ?_
  rw [hpart]
  exact hfolder.bind (hfolder.bind (ends_pure.mpr ⟨rfl, rfl⟩))

theorem told_decode (hnone : filesEnding w.files ".lua" editing = [])
    (h : Ends (decode id) w () w') : Told w w' := by
  have hsay : ∀ {w₁} line, Told w w₁ → Leaves (say id line >>= fun _ => pure ()) w₁
      fun _ w' => Told w w' := fun line h₁ =>
    ((tells_say id line).bind fun _ => tells_pure _) _ |>.mono fun _ _ h => h₁.trans h
  have hattempt : Leaves (decode.attempted id) w fun _ w' => Told w w' := by
    refine (ends_folders hpart hediting).leaves_bind ?_
    refine (tells_say id _ w).bind (fun _ w₁ h₁ => ?_) fun _ _ h => h
    have hlook := (tells_files.bind fun files => tells_pure (files.exists? editing)) w₁
    refine hlook.bind (fun there w₂ h₂ => ?_) fun _ _ h => h₁.trans h
    have htold := h₁.trans h₂
    split
    · exact hsay _ htold
    · refine leaves_files_bind ?_
      rw [htold.files, hnone]
      exact hsay _ htold
  have hleaves : Leaves (decode id) w fun _ w' => Told w w' :=
    leaves_orElse hattempt (fun _ _ h => h) fun fault w₁ h₁ =>
      (tells_say id _ w₁).mono fun _ _ h => h₁.trans h
  exact hleaves.of_ends h

/-- **A run that finds files** leaves what its batch leaves. -/
theorem files_decode (hlog : (w.tool id).log.TakesAll)
    (hlua : filesEnding w.files ".lua" editing ≠ [])
    (hmade : (w.files.makeFolders (join editing "UTF-8")).2 = none)
    {outcomes : List (String × Processed)} {v : World}
    (hbatch : Ends (processAll process (tasksIn w.files editing)) (prepared editing w) outcomes v)
    (h : Ends (decode id) w () w') : w'.files = v.files := by
  have hattempt : Leaves (decode.attempted id) w fun _ w' => w'.files = v.files := by
    refine (ends_folders hpart hediting).leaves_bind ?_
    refine leaves_say_bind hlog fun w₁ htold₁ => ?_
    have hstands : Ends (standsAt editing) w₁ true w₁ :=
      (Settings.ends_files w₁).bind
        (ends_pure.mpr ⟨by rw [htold₁.files, exists?_of_found hlua], rfl⟩)
    refine hstands.leaves_bind ?_
    refine leaves_files_bind ?_
    rw [htold₁.files, if_neg (by simpa using hlua)]
    refine leaves_say_bind (htold₁.takesAll hlog) fun w₂ htold₂ => ?_
    have hfiles : w₂.files = w.files := (htold₁.trans htold₂).files
    refine leaves_makeFolders_bind (fun _ => ?_) fun fault hfault => ?_
    swap
    · rw [hfiles, hmade] at hfault
      cases hfault
    rw [hfiles]
    refine (ends_tasks editing _ _ _).leaves_bind ?_
    rw [(w.files.keeps_makeFolders _).home, ← tasksIn]
    have hmade := files_prepared editing w
    generalize (w.files.makeFolders (join editing "UTF-8")).1 = made at hmade ⊢
    obtain ⟨u, hends, hu⟩ := (fileWork_processAll _).exists_ends hbatch
      (show ({ w₂ with files := made } : World).files = _ from hmade.symm)
    refine hends.leaves_bind ?_
    refine (tells_countFiles id _ outcomes _ u).bind (fun tally u₁ hu₁ => ?_)
      fun _ _ h => h.files.trans hu
    exact (within_reportBatch id _ tally _ _ u₁).mono fun _ _ h => h.1.trans (hu₁.files.trans hu)
  have hleaves : Leaves (decode id) w fun _ w' => w'.files = v.files :=
    leaves_orElse hattempt (fun _ _ h => h) fun fault w₁ h₁ =>
      (tells_say id _ w₁).mono fun _ _ h => h.files.trans h₁
  exact hleaves.of_ends h

end

/-- **One folder deeper**: each Lua file is decoded to its own place below the output folder. -/
theorem deeper_of_batch (hfiles : w.files.root.Proper) {outcomes : List (String × Processed)}
    {v : World}
    (hbatch : Ends (processAll process (tasksIn w.files editing)) (prepared editing w) outcomes v)
    (hnone : ∀ outcome ∈ outcomes, outcome.2.trouble = none) {place : List String}
    (hne : place ≠ []) (hplace : (w.files.contentAt (w.files.wayTo editing ++ place)).isSome)
    (hfound : joinAll editing place ∈ filesEnding w.files ".lua" editing) :
    (v.files.contentAt (w.files.wayTo editing ++ "UTF-8" :: place)).isSome := by
  have hplain : ∀ name ∈ place, PlainName name := by
    obtain ⟨content, hcontent⟩ := Option.isSome_iff_exists.mp hplace
    obtain ⟨node, hnode, -⟩ := Option.bind_eq_some_iff.mp hcontent
    exact fun name hname =>
      (hfiles.properName_of_mem hnode name (mem_append_right _ hname)).plainName
  have hout : PlainName "UTF-8" := ⟨by decide, by decide, by decide, by decide⟩
  have hhome : (prepared editing w).files.home = w.files.home := by
    rw [files_prepared, (w.files.keeps_makeFolders _).home]
  have hway : (prepared editing w).files.wayTo (join (join editing "UTF-8")
      (relative w.files.home (joinAll editing place) editing)) =
      w.files.wayTo editing ++ "UTF-8" :: place := by
    rw [relative_joinAll _ editing hne hplain, join_joinWith _ hne hplain, wayTo_congr hhome,
      wayTo_joinAll _ _ hplain, wayTo_entry _ editing hout, append_assoc, singleton_append]
  have hstands := (ends_processAll hbatch).2 hnone (joinAll editing place, _)
    (mem_map.mpr ⟨_, hfound, rfl⟩)
  rw [hway] at hstands
  exact hstands

/-- **A run without trouble** decodes each file that it finds to its place one folder deeper. -/
theorem decoded_deeper (hpart : (w.tool id).part = .decoder .editingToUtf8)
    (hediting : (w.tool id).paths.lookup "editing" = some editing) (hlog : (w.tool id).log.TakesAll)
    (hfiles : w.files.root.Proper) (hall : AllDecoded editing w) (h : Ends (decode id) w () w')
    {places : List (List String)}
    (hpaths : filesEnding w.files ".lua" editing = places.map (joinAll editing))
    (hplaces : ∀ place ∈ places, place ≠ [] ∧
      (w.files.contentAt (w.files.wayTo editing ++ place)).isSome) :
    ∀ place ∈ places, (w'.files.contentAt (w.files.wayTo editing ++ "UTF-8" :: place)).isSome := by
  intro place hplace
  have hfound : joinAll editing place ∈ filesEnding w.files ".lua" editing :=
    hpaths ▸ mem_map_of_mem hplace
  obtain ⟨hmade, outcomes, v, hbatch, hnone⟩ := hall (ne_nil_of_mem hfound)
  rw [files_decode hpart hediting hlog (ne_nil_of_mem hfound) hmade hbatch h]
  obtain ⟨hne, hstands⟩ := hplaces place hplace
  exact deeper_of_batch hfiles hbatch hnone hne hstands hfound

/-- **A second run** without trouble leaves the files as they are exactly if there is no Lua file.
Otherwise it finds the output of the first run too: afterwards each file that it found has one at its
place one folder deeper, and there is a file where none was. -/
theorem second_decoding_same_iff (hpart : (w.tool id).part = .decoder .editingToUtf8)
    (hediting : (w.tool id).paths.lookup "editing" = some editing) (hlog : (w.tool id).log.TakesAll)
    (hfiles : w.files.root.Proper) :
    ∃ w₁ w₂, Ends (decode id) w () w₁ ∧ Ends (decode id) w₁ () w₂ ∧ (AllDecoded editing w₁ →
      (w₂.files.standing = w₁.files.standing ↔ filesEnding w.files ".lua" editing = []) ∧
      (filesEnding w.files ".lua" editing ≠ [] →
        (∀ path ∈ filesEnding w₁.files ".lua" editing, ∃ place, path = joinAll editing place ∧
          (w₂.files.contentAt (w₁.files.wayTo editing ++ "UTF-8" :: place)).isSome) ∧
        ∃ place, w₁.files.contentAt place = none ∧ (w₂.files.contentAt place).isSome)) := by
  obtain ⟨w₁, hends₁, hsteady⟩ := exists_ends_decode hlog
  have hpart₁ : (w₁.tool id).part = .decoder .editingToUtf8 := by rw [hsteady.part, hpart]
  have hediting₁ : (w₁.tool id).paths.lookup "editing" = some editing := by
    rw [hsteady.paths, hediting]
  have hlog₁ : (w₁.tool id).log.TakesAll := by
    rw [hsteady.log]
    exact hlog
  obtain ⟨w₂, hends₂, -⟩ := exists_ends_decode hlog₁
  refine ⟨w₁, w₂, hends₁, hends₂, fun hall => ?_⟩
  have hdeeper : filesEnding w.files ".lua" editing ≠ [] →
      (∀ path ∈ filesEnding w₁.files ".lua" editing, ∃ place, path = joinAll editing place ∧
        (w₂.files.contentAt (w₁.files.wayTo editing ++ "UTF-8" :: place)).isSome) ∧
      ∃ place, w₁.files.contentAt place = none ∧ (w₂.files.contentAt place).isSome := by
    intro hlua
    have hkept := hsteady.files
    have hexists := exists?_of_found hlua
    obtain ⟨places, hpaths, hplaces⟩ := exists_foundPlaces hfiles hexists
    obtain ⟨places₁, hpaths₁, hplaces₁⟩ :=
      exists_foundPlaces (hkept.proper hfiles) (hkept.exists? hexists)
    have hfirst : places₁ ≠ [] := by
      obtain ⟨place, hplace⟩ := exists_mem_of_ne_nil places (by rintro rfl; exact hlua hpaths)
      obtain ⟨hname, hne, hstands⟩ := (hplaces place).mp hplace
      rw [← Files.wayTo_congr hkept.home] at hstands
      exact ne_nil_of_mem ((hplaces₁ place).mpr ⟨hname, hne, hkept.file _ hstands⟩)
    have hdecoded := decoded_deeper hpart₁ hediting₁ hlog₁ (hkept.proper hfiles) hall hends₂ hpaths₁
      fun place hplace => ((hplaces₁ place).mp hplace).2
    refine ⟨fun path hpath => ?_, ?_⟩
    · rw [hpaths₁] at hpath
      obtain ⟨place, hplace, rfl⟩ := mem_map.mp hpath
      exact ⟨place, rfl, hdecoded place hplace⟩
    -- the file at the longest place is decoded to a longer one
    obtain ⟨longest, hlongest, hmax⟩ :=
      places₁.toFinset.exists_max_image length (by simpa using hfirst)
    rw [mem_toFinset] at hlongest
    obtain ⟨hname, hne, -⟩ := (hplaces₁ longest).mp hlongest
    refine ⟨_, Option.not_isSome_iff_eq_none.mp fun hold => ?_, hdecoded longest hlongest⟩
    have hfound : "UTF-8" :: longest ∈ places₁ := by
      refine (hplaces₁ _).mpr ⟨?_, by simp, hold⟩
      rw [getLast?_cons_of_ne_nil hne]
      exact hname
    have hlength := hmax _ (mem_toFinset.mpr hfound)
    simp at hlength
  refine ⟨⟨fun hsame => ?_, fun hnone => ?_⟩, hdeeper⟩
  · by_contra hlua
    obtain ⟨-, place, hold, hnew⟩ := hdeeper hlua
    rw [contentAt_eq_standing, hsame, ← contentAt_eq_standing, hold] at hnew
    cases hnew
  · have htold₁ := told_decode hpart hediting hnone hends₁
    have htold₂ := told_decode hpart₁ hediting₁ (by rw [htold₁.files, hnone]) hends₂
    rw [htold₂.files]

end

/-- A decoder of the editing folder, in which there is one file. -/
def oneScript : World where
  files := ⟨.folder (.cons "e" (.folder (.cons "a.lua" (.file [120]) .nil)) .nil), []⟩
  tools := [{
    settings := 0
    part := .decoder .editingToUtf8
    log := .recorder []
    paths := [("editing", "e")] }]

def decodedOnce : World :=
  ((decode 0).doneIn oneScript).2

theorem ends_decode_oneScript : Ends (decode 0) oneScript () decodedOnce :=
  ends_of_doneIn (by decide +kernel)

/-- The second run changes the files, and a file appears that was not there after the first one. -/
theorem second_decoding_same_iff_oneScript :
    (oneScript.tool 0).log.TakesAll ∧ Node.isProper oneScript.files.root = true ∧
    AllDecoded "e" decodedOnce ∧ ∃ w₂, Ends (decode 0) decodedOnce () w₂ ∧
      w₂.files.standing ≠ decodedOnce.files.standing ∧
      ∃ place, decodedOnce.files.contentAt place = none ∧ (w₂.files.contentAt place).isSome := by
  have hproper : Node.isProper oneScript.files.root = true := by decide
  have hlua : filesEnding oneScript.files ".lua" "e" ≠ [] := by decide +kernel
  have hall : AllDecoded "e" decodedOnce := fun _ => ⟨by decide +kernel,
    [("e/a.lua", ⟨"a.lua", none⟩), ("e/UTF-8/a.lua", ⟨"a.lua", none⟩)], _,
    Job.ends_of_doneIn (by decide +kernel), by decide⟩
  obtain ⟨w₁, w₂, hends₁, hends₂, hagain⟩ := @second_decoding_same_iff 0 "e" oneScript rfl rfl rfl
    (Node.proper_of_isProper hproper)
  rw [(hends₁.unique ends_decode_oneScript).2] at hends₂ hagain
  obtain ⟨hiff, hdeeper⟩ := hagain hall
  exact ⟨rfl, hproper, hall, w₂, hends₂, fun hsame => hlua (hiff.mp hsame), (hdeeper hlua).2⟩

/-- **Decoding again is no repetition**: the second run makes a file that the first one did not. -/
theorem decoded_again_deeper : ∃ w₁ w₂, Ends (decode 0) oneScript () w₁ ∧
    w₁.files.standing ["e", "UTF-8", "UTF-8", "a.lua"] = none ∧ Ends (decode 0) w₁ () w₂ ∧
    w₂.files.standing ["e", "UTF-8", "UTF-8", "a.lua"] = some (some [120]) :=
  ⟨decodedOnce, _, ends_decode_oneScript, by decide +kernel,
    Job.ends_of_doneIn (by decide +kernel), by decide +kernel⟩

end Decoder

end Tool

end ApkWorkshop
