import ApkWorkshop.Desktop.Build
import ApkWorkshop.Proofs.Workbench

/-!
# What the Editor Saves

The form has three parts, which are checked and saved one after the other:

* `leaves_saveGrid`, `leaves_saveBindings` — each part is saved as a whole or not at all;
* `leaves_save_parts` — but the grid is saved **before** the parts behind it are looked at;
* `change_of_rejected_save` — so a form that is rejected may have changed the grid, in memory and in
  the file (`grid_saved_by_rejected_form`);
* `numbers_of_saved_bindings` — and the numbers of buttons are compared only as far as they were
  typed: one that was kept may be there once more (`number_saved_twice`).
-/

namespace ApkWorkshop

open Text List

/-! ### Fields -/

namespace Display

/-- What was typed into the field with a cell, without the blanks around it. -/
def typed (d : Display) (cell : Nat) : String :=
  strip (d.cell cell).fieldText

/-- What was typed into an area, without the blanks around it. -/
def written (d : Display) (area : Nat) : String :=
  strip (((d.widget? area).map (·.content)).getD "")

theorem written_addMain (d : Display) : d.addMain.1.written = d.written := by
  funext area
  rw [written, written, widget?, widget?, addMain, add]
  rcases Nat.lt_trichotomy area d.widgets.length with hlt | rfl | hgt
  · rw [getElem?_append_left hlt]
  · simp
  · rw [getElem?_eq_none (by simp; omega), getElem?_eq_none (by omega)]

end Display

/-- Boxes may have been shown, and what is in the fields on the screen is the same. -/
structure Shows (w w' : World) : Prop where
  typed : w'.display.typed = w.display.typed
  written : w'.display.written = w.display.written
  boxes : w.journal.boxes <+: w'.journal.boxes

theorem shows_complained (w : World) (message : String) :
    Shows w (Settings.complained w message) := by
  rw [Settings.complained]
  split
  · exact ⟨rfl, w.display.written_addMain, prefix_append _ _⟩
  · exact ⟨rfl, rfl, prefix_append _ _⟩

/-! ### Settings in memory and in the file -/

namespace Settings

def withMembers (s : Settings) (ms : List (String × Value)) : Settings :=
  { s with data := .object ms }

/-- The files once settings were written to their file, or as they were if that is not possible. -/
def stored (files : Files) (s : Settings) : Files :=
  (store files s).toOption.getD files

def CanStore (files : Files) (s : Settings) : Prop :=
  ∃ place, files.CanWrite s.file place

def Unchanged (w w' : World) : Prop :=
  w'.settings = w.settings ∧ w'.files = w.files

/-- Settings were replaced in memory, and in their file too if `inFile` holds. -/
structure Left (n : Nat) (s : Settings) (inFile : Bool) (w w' : World) : Prop where
  settings : w'.settings = w.settings.set n s
  files : w'.files = if inFile then stored w.files s else w.files

/-- Settings were replaced, and an error is shown only if their file cannot be written. -/
structure Replaces (n : Nat) (s : Settings) (inFile : Bool) (w w' : World) : Prop
    extends Shows w w', Left n s inFile w w' where
  quiet : s.CanStore w.files → w'.journal.boxes = w.journal.boxes

section

variable {n : Nat} {s s' : Settings} {ms : List (String × Value)} {files : Files} {inFile : Bool}
  {w w' w'' : World}

theorem canStore_stored (h : s.CanStore files) : s.CanStore (stored files s) := by
  obtain ⟨place, hplace⟩ := h
  rw [stored, store, hplace.write]
  exact ⟨place, hplace.put _⟩

theorem stored_stored (h : s'.file = s.file) : stored (stored files s) s' = stored files s' := by
  by_cases hcan : s.CanStore files
  · obtain ⟨place, hplace⟩ := hcan
    have hplace' : files.CanWrite s'.file place := h ▸ hplace
    have hput := hplace'.put (encode (s.data.document 4))
    simp only [stored, store, hplace.write, hplace'.write, Except.toOption, Option.getD_some,
      hput.write, Node.put_put]
  · have hnone : stored files s = files := by
      rw [stored]
      cases hstore : store files s with
      | error fault => rfl
      | ok files' =>
        obtain ⟨place, hplace, -⟩ := Files.canWrite_of_write hstore
        exact absurd ⟨place, hplace⟩ hcan
    rw [hnone]

theorem Replaces.getElem? (h : Replaces n s' inFile w w') (hs : w.settings[n]? = some s) :
    w'.settings[n]? = some s' := by
  obtain ⟨hn, -⟩ := List.getElem?_eq_some_iff.mp hs
  rw [h.settings, getElem?_set_self hn]

theorem Replaces.trans (h : Replaces n s inFile w w') (h' : Replaces n s' true w' w'')
    (hfile : s'.file = s.file) : Replaces n s' true w w'' := by
  refine ⟨⟨h'.typed.trans h.typed, h'.written.trans h.written, h.boxes.trans h'.boxes⟩, ⟨?_, ?_⟩,
    fun hcan => ?_⟩
  · rw [h'.settings, h.settings, set_set]
  · rw [h'.files, h.files]
    cases inFile
    exacts [rfl, stored_stored hfile]
  · have hold : s.CanStore w.files := by rwa [CanStore, ← hfile]
    have hnew : s.CanStore w'.files := by
      rw [h.files]
      cases inFile
      exacts [hold, canStore_stored hold]
    rw [h'.quiet (by rwa [CanStore, hfile]), h.quiet hold]

theorem replaces_self (hs : w.settings[n]? = some s) : Replaces n s false w w := by
  obtain ⟨hn, rfl⟩ := List.getElem?_eq_some_iff.mp hs
  exact ⟨⟨rfl, rfl, prefix_rfl⟩, ⟨set_getElem_self hn |>.symm, rfl⟩, fun _ => rfl⟩

theorem replaces_update (hs : w.settings[n]? = some s) (f : Settings → Settings) :
    Replaces n (f s) false w { w with settings := w.settings.modify n f } := by
  refine ⟨⟨rfl, rfl, prefix_rfl⟩, ⟨?_, rfl⟩, fun _ => rfl⟩
  rw [modify_eq_set_getElem?, hs]
  rfl

theorem leaves_save (hs : w.settings[n]? = some s) :
    Leaves (save n) w fun r w' => r = .ok () ∧ Replaces n s true w w' := by
  refine Job.leaves_files_bind ((ends_byNumber hs).leaves_bind ?_)
  have hself := (replaces_self hs).settings
  cases hstore : store w.files s with
  | ok files =>
    refine leaves_modify ⟨rfl, ⟨rfl, rfl, prefix_rfl⟩, ⟨hself, ?_⟩, fun _ => rfl⟩
    simp [stored, hstore, Except.toOption]
  | error fault =>
    refine (ends_showError _ w).leaves ⟨rfl, shows_complained w _, ⟨hself, ?_⟩, fun hcan => ?_⟩
    · simp [stored, hstore, Except.toOption, complained]
    · obtain ⟨place, hplace⟩ := hcan
      rw [store, hplace.write] at hstore
      cases hstore

theorem leaves_set (hs : w.settings[n]? = some s) (hdata : s.data = .object ms) (key : String)
    (v : Value) : Leaves (set n key v) w fun r w' =>
      r = .ok () ∧ Replaces n (s.withMembers (setMember key v ms)) true w w' := by
  refine (ends_byNumber hs).leaves_bind ?_
  rw [hdata]
  refine Job.leaves_attempt_bind (fun data hassign => ?_) fun _ he => by cases he
  cases hassign
  refine leaves_modify_bind ?_
  have hupdate := replaces_update hs (·.withMembers (setMember key v ms))
  exact (leaves_save (hupdate.getElem? hs)).mono fun r w' h => ⟨h.1, hupdate.trans h.2 rfl⟩

end

/-- Only listeners notice: the settings, the files and the boxes are the same. -/
structure Heard (w w' : World) : Prop where
  settings : w'.settings = w.settings
  files : w'.files = w.files
  boxes : w'.journal.boxes = w.journal.boxes

theorem leaves_tell (data : Value) (handler : Handler) (w : World) :
    Leaves (tell data handler) w fun _ w' => Heard w w' := by
  cases handler with
  | recorder name failure =>
    refine leaves_modify_bind ?_
    split
    · exact leaves_throw ⟨rfl, rfl, rfl⟩
    · exact leaves_pure ⟨rfl, rfl, rfl⟩
  | desktop id =>
    have hwrite (line : String) :
        Leaves (Desktop.write id line) w fun _ w' => Heard w w' := by
      refine (Desktop.ends_byNumber w id).leaves_bind ?_
      split
      · exact leaves_modify_bind (leaves_modify_bind (leaves_modify ⟨rfl, rfl, rfl⟩))
      · exact leaves_modify ⟨rfl, rfl, rfl⟩
    refine Job.leaves_attempt_bind (fun kind _ => ?_) fun _ _ => ⟨rfl, rfl, rfl⟩
    exact (hwrite _).bind (fun _ w' h => leaves_modify ⟨h.settings, h.files, h.boxes⟩)
      fun _ _ h => h

theorem leaves_emit (n : Nat) (event : String) (data : Value) (w : World) :
    Leaves (emit n event data) w fun r w' => (∃ a, r = .ok a) ∧ Heard w w' := by
  refine (Tool.ends_settings w n).leaves_bind
    (sure_forM (J := Heard w) (fun handler _ w₁ h₁ => ?_) w ⟨rfl, rfl, rfl⟩)
  have htrans : ∀ w₂, Heard w₁ w₂ → Heard w w₂ := fun w₂ h =>
    ⟨h.settings.trans h₁.settings, h.files.trans h₁.files, h.boxes.trans h₁.boxes⟩
  refine Job.leaves_orElse (leaves_tell data _ w₁) (fun a w₂ h => ⟨⟨a, rfl⟩, htrans w₂ h⟩) ?_
  exact fun _ w₂ h => leaves_modify ⟨⟨_, rfl⟩, htrans _ ⟨h.settings, h.files, h.boxes⟩⟩

end Settings

open Settings

namespace Editor

/-! ### The grid -/

/-- The grid that was typed, or that there is none: a field was left blank. Nothing is read from
what is no number. -/
def grid? (e : Editor) (d : Display) : Option (Option (Int × Int)) := do
  let rows := d.typed (← e.rows)
  let columns := d.typed (← e.columns)
  if rows = "" || columns = "" then return none
  return some (← readInteger? rows.toList, ← readInteger? columns.toList)

/-- The members with another shape of the buttons. -/
def regrid : Option (Int × Int) → List (String × Value) → List (String × Value)
  | none, ms => dropMember "buttons_shape" ms
  | some (rows, columns), ms =>
    setMember "buttons_shape" (.list [.whole rows, .whole columns]) ms

/-- A part of the form was not saved: that was said in a box, or there was a fault. -/
structure Declined (r : Except Fault Bool) (w w' : World) : Prop where
  said : r = .ok false ∧ (∃ box, w'.journal.boxes = w.journal.boxes ++ [box]) ∨ ∃ e, r = .error e
  unchanged : Unchanged w w'

theorem declined_fault (fault : Fault) (w : World) : Declined (.error fault) w w :=
  ⟨.inr ⟨fault, rfl⟩, rfl, rfl⟩

theorem declined_box (box : Box) (w : World) : Declined (.ok false) w
    { w with journal := { w.journal with boxes := w.journal.boxes ++ [box] } } :=
  ⟨.inl ⟨rfl, box, rfl⟩, rfl, rfl⟩

section

variable {id : Nat} {e : Editor} {s : Settings} {ms : List (String × Value)} {w w' : World}
  (hs : w.settings[e.settings]? = some s) (hdata : s.data = .object ms)

include hs hdata

theorem leaves_dropKey (key : String) : Leaves (dropKey e.settings key) w fun r w' =>
    r = .ok () ∧ Replaces e.settings (s.withMembers (dropMember key ms)) false w w' := by
  have hupdate : ∀ f : Settings → Settings, f s = s.withMembers (dropMember key ms) →
      Leaves (Settings.update e.settings f) w fun r w' =>
        r = .ok () ∧ Replaces e.settings (s.withMembers (dropMember key ms)) false w w' :=
    fun f hf => leaves_modify ⟨rfl, hf ▸ replaces_update hs f⟩
  exact hupdate _ (by simp only [hdata, withMembers])

/-- **Saving the grid** is all or nothing. A grid that was left blank is dropped in memory only. -/
theorem leaves_saveGrid : Leaves e.saveGrid w fun r w' =>
    (e.grid? w.display = none ∧ Declined r w w') ∨
    ∃ grid, e.grid? w.display = some grid ∧ r = .ok true ∧
      Replaces e.settings (s.withMembers (regrid grid ms)) grid.isSome w w' := by
  rw [saveGrid, grid?]
  cases e.rows with
  | none => exact leaves_throw_bind (.inl ⟨rfl, declined_fault _ w⟩)
  | some rows =>
    refine Ends.leaves_bind (show Ends _ w (w.display.typed rows) w from rfl) ?_
    cases e.columns with
    | none => exact leaves_throw_bind (.inl ⟨rfl, declined_fault _ w⟩)
    | some columns =>
      refine Ends.leaves_bind (show Ends _ w (w.display.typed columns) w from rfl) ?_
      dsimp only [bind, Option.bind]
      split
      · exact (leaves_dropKey hs hdata "buttons_shape").bind
          (fun _ w' h => leaves_pure (.inr ⟨none, rfl, rfl, h.2⟩)) fun _ _ h => by cases h.1
      cases readInteger? (w.display.typed rows).toList with
      | none => exact leaves_modify_bind (leaves_pure (.inl ⟨rfl, declined_box _ w⟩))
      | some r =>
        cases readInteger? (w.display.typed columns).toList with
        | none => exact leaves_modify_bind (leaves_pure (.inl ⟨rfl, declined_box _ w⟩))
        | some c =>
          exact (leaves_set hs hdata _ _).bind
            (fun _ w' h => leaves_pure (.inr ⟨some (r, c), rfl, rfl, h.2⟩))
            fun _ _ h => by cases h.1

end

/-! ### The bindings -/

def numbers (e : Editor) (d : Display) : List String :=
  e.bindingCells.map d.typed

/-- The bindings, each with the number and the name that were typed for it. -/
def lines (e : Editor) (d : Display) : List (Value × String × String) :=
  e.bindings.zip ((e.numbers d).zip (e.bindingNames.map d.written))

def saved (e : Editor) (d : Display) : List Value :=
  (e.lines d).map fun l => rebind l.1 l.2.1 l.2.2

/-- Every number that was typed is a number, and none was typed twice. -/
def Accepted (numbers : List String) : Prop :=
  (∀ t ∈ numbers, t ≠ "" → (readInteger? t.toList).isSome) ∧
    (numbers.filterMap fun t => readInteger? t.toList).Nodup

/-- The members with the bindings that were typed. -/
def rebound (e : Editor) (d : Display) (ms : List (String × Value)) : List (String × Value) :=
  if e.bindingCells = [] then ms
  else if e.saved d = [] then dropMember "bindings" ms
  else setMember "bindings" (.list (e.saved d)) ms

theorem rebindAll_eq (bindings : List Value) (numbers names : List String) :
    rebindAll bindings numbers names =
      (bindings.zip (numbers.zip names)).map fun l => rebind l.1 l.2.1 l.2.2 := by
  fun_induction rebindAll bindings numbers names with
  | case1 binding bindings number numbers name names ih =>
    rw [ih]
    rfl
  | case2 bindings numbers names h =>
    cases bindings <;> cases numbers <;> cases names <;>
      first | rfl | exact (h _ _ _ _ _ _ rfl rfl rfl).elim

theorem checkNumbers_eq_none_iff (seen : List Int) (numbers : List String) :
    checkNumbers seen numbers = none ↔
      Accepted numbers ∧ ∀ n ∈ numbers.filterMap fun t => readInteger? t.toList, n ∉ seen := by
  fun_induction checkNumbers seen numbers with
  | case1 => simp [Accepted]
  | case2 seen rest ih =>
    have hblank : readInteger? [] = none := by decide
    simp [ih, Accepted, hblank]
  | case3 seen number rest hne hread => simp [Accepted, hne, hread]
  | case4 seen number rest hne n hread hseen => simp_all [Accepted]
  | case5 seen number rest hne n hread hseen ih =>
    simp only [ih, Accepted, filterMap_cons, hread, nodup_cons, mem_cons, not_or]
    grind

theorem ends_cells (w : World) (cells : List Nat) :
    Ends (cells.mapM Job.cellStripped) w (cells.map w.display.typed) w := by
  induction cells with
  | nil => exact ends_pure.mpr ⟨rfl, rfl⟩
  | cons cell cells ih =>
    rw [mapM_cons]
    refine Ends.bind (show Ends _ w (w.display.typed cell) w from rfl) ?_
    exact ih.bind (ends_pure.mpr ⟨rfl, rfl⟩)

/-- Saving stopped with a fault, or something was said in a box. -/
def Rejected (r : Except Fault Unit) (w w' : World) : Prop :=
  r ≠ .ok () ∨ w.journal.boxes.length < w'.journal.boxes.length

/-- The parts behind the grid pass their checks. The names of folders never do. -/
def Passes (e : Editor) (d : Display) : Prop :=
  e.folders = [] ∧ Accepted (e.numbers d)

section

variable {id : Nat} {e : Editor} {s : Settings} {ms : List (String × Value)} {w w' : World}

theorem Shows.form (h : Shows w w') (e : Editor) :
    e.numbers w'.display = e.numbers w.display ∧ e.rebound w'.display = e.rebound w.display := by
  have hnumbers : e.numbers w'.display = e.numbers w.display := by rw [numbers, h.typed, numbers]
  refine ⟨hnumbers, ?_⟩
  funext ms
  rw [rebound, rebound, saved, saved, lines, lines, hnumbers, h.written]

variable (hs : w.settings[e.settings]? = some s) (hdata : s.data = .object ms)

include hs hdata

theorem leaves_saveBindings : Leaves e.saveBindings w fun r w' =>
    (¬ Accepted (e.numbers w.display) ∧ Declined r w w') ∨
    Accepted (e.numbers w.display) ∧ r = .ok true ∧ ∃ inFile,
      Replaces e.settings (s.withMembers (e.rebound w.display ms)) inFile w w' := by
  have hself : s.withMembers ms = s := by rw [withMembers, ← hdata]
  rw [saveBindings, rebound]
  split
  · rename_i hcells
    have hnil : e.bindingCells = [] := isEmpty_iff.mp hcells
    rw [if_pos hnil, numbers, hnil, hself]
    exact leaves_pure (.inr ⟨⟨by simp, by simp⟩, rfl, _, replaces_self hs⟩)
  rename_i hcells
  rw [if_neg fun h => hcells (isEmpty_iff.mpr h)]
  refine (ends_cells w _).leaves_bind ?_
  have hcheck := checkNumbers_eq_none_iff [] (e.numbers w.display)
  rw [numbers] at hcheck
  cases hfault : checkNumbers [] (e.bindingCells.map w.display.typed) with
  | some fault =>
    refine leaves_modify_bind (leaves_pure (.inl ⟨fun haccepted => ?_, declined_box _ w⟩))
    rw [hfault] at hcheck
    cases hcheck.mpr ⟨haccepted, by simp⟩
  | none =>
    have haccepted : Accepted (e.numbers w.display) := (hcheck.mp hfault).1
    refine Ends.leaves_bind (show Ends _ w w.display w from rfl) ?_
    have hsaved : rebindAll e.bindings (e.bindingCells.map w.display.typed)
        (e.bindingNames.map w.display.written) = e.saved w.display := rebindAll_eq _ _ _
    dsimp only
    split
    · rename_i hnil
      rw [if_pos (hsaved.symm.trans hnil)]
      exact (leaves_dropKey hs hdata _).bind
        (fun _ w' h => leaves_pure (.inr ⟨haccepted, rfl, _, h.2⟩)) fun _ _ h => by cases h.1
    · rename_i hne
      rw [if_neg fun h => hne (hsaved.trans h), ← hsaved]
      exact (leaves_set hs hdata _ _).bind
        (fun _ w' h => leaves_pure (.inr ⟨haccepted, rfl, _, h.2⟩)) fun _ _ h => by cases h.1

/-! ### Everything -/

theorem leaves_saveRest (window : Option Nat) : Leaves (e.saveRest window) w fun r w' =>
    (¬ e.Passes w.display ∧ Rejected r w w' ∧ Unchanged w w') ∨
    e.Passes w.display ∧ (window ≠ none → r = .ok ()) ∧ ∃ w₁,
      Replaces e.settings (s.withMembers (e.rebound w.display ms)) true w w₁ ∧ Heard w₁ w' := by
  unfold saveRest
  by_cases hfolders : e.folders = []
  case neg =>
    rw [if_pos (by simpa using hfolders)]
    exact leaves_throw_bind (.inl ⟨fun h => hfolders h.1, .inl nofun, rfl, rfl⟩)
  rw [if_neg (by simp [hfolders])]
  refine (leaves_saveBindings hs hdata).bind (fun go w₁ h => ?_) fun fault w₁ h => ?_
  · obtain ⟨hno, ⟨hgo, box, hbox⟩ | ⟨_, hgo⟩, hsame⟩ | ⟨haccepted, hgo, inFile, hall⟩ := h <;>
      cases hgo
    · exact leaves_pure (.inl ⟨fun h => hno h.2, .inr (by simp [hbox]), hsame⟩)
    refine (leaves_save (hall.getElem? hs)).bind (fun _ w₂ h => ?_) fun _ _ h => by cases h.1
    have htwice := hall.trans h.2 rfl
    refine (leaves_emit _ _ _ w₂).bind_ok fun _ w₃ h => ?_
    cases window with
    | none => exact .inr ⟨⟨hfolders, haccepted⟩, nofun, w₂, htwice, h⟩
    | some window =>
      exact leaves_modify (.inr ⟨⟨hfolders, haccepted⟩, fun _ => rfl, w₂, htwice, h.settings,
        h.files, h.boxes⟩)
  · obtain ⟨hno, -, hsame⟩ | ⟨-, hgo, -⟩ := h
    · exact .inl ⟨fun h => hno h.2, .inl nofun, hsame⟩
    · cases hgo

/-- **What is saved**: nothing if the grid is declined, and otherwise the grid at least. -/
theorem leaves_save_parts (he : w.editors[id]? = some e) (window : Option Nat) :
    Leaves (save id window) w fun r w' =>
      (e.grid? w.display = none ∧ Rejected r w w' ∧ Unchanged w w') ∨
      ∃ grid, e.grid? w.display = some grid ∧ ((¬ e.Passes w.display ∧ Rejected r w w' ∧
            Left e.settings (s.withMembers (regrid grid ms)) grid.isSome w w') ∨
          (e.Passes w.display ∧ (Rejected r w w' → window = none ∨ ¬ s.CanStore w.files) ∧
            Left e.settings (s.withMembers (e.rebound w.display (regrid grid ms))) true w w')) := by
  have hfind : Ends (byNumber id) w e w := by
    refine Ends.bind (ends_get.mpr ⟨rfl, rfl⟩) ?_
    rw [he]
    exact ends_pure.mpr ⟨rfl, rfl⟩
  refine hfind.leaves_bind ((leaves_saveGrid hs hdata).bind (fun go w₁ h => ?_) fun fault w₁ h => ?_)
  · obtain ⟨hgrid, ⟨hgo, box, hbox⟩ | ⟨_, hgo⟩, hsame⟩ | ⟨grid, hgrid, hgo, hnew⟩ := h <;> cases hgo
    · exact leaves_pure (.inl ⟨hgrid, .inr (by simp [hbox]), hsame⟩)
    have hrest := leaves_saveRest (hnew.getElem? hs) rfl window
    rw [Passes, (Shows.form hnew.toShows e).1, (Shows.form hnew.toShows e).2] at hrest
    refine hrest.mono fun r w' h => .inr ⟨grid, hgrid, ?_⟩
    obtain ⟨hno, hrejected, hsettings, hfiles⟩ | ⟨hyes, hok, w₂, hall, hheard⟩ := h
    · exact .inl ⟨hno, hrejected.imp_right hnew.boxes.length_le.trans_lt,
        hsettings.trans hnew.settings, hfiles.trans hnew.files⟩
    have htwice := hnew.trans hall rfl
    refine .inr ⟨hyes, fun hrejected => ?_, hheard.settings.trans htwice.settings,
      hheard.files.trans htwice.files⟩
    by_contra hnot
    obtain ⟨hopen, hcan⟩ : window ≠ none ∧ s.CanStore w.files := by simpa using hnot
    obtain hfault | hbox := hrejected
    · exact hfault (hok hopen)
    · exact absurd (congrArg List.length (hheard.boxes.trans (htwice.quiet hcan))) hbox.ne'
  · obtain ⟨hgrid, -, hsame⟩ | ⟨grid, -, hgo, -⟩ := h
    · exact .inl ⟨hgrid, .inl nofun, hsame⟩
    · cases hgo

/-- **A form that is rejected** for its grid changes nothing. One that is rejected for its folders
or its bindings changes the grid in memory, and in the file too unless the grid was left blank. Any
other form is rejected only after everything was saved: the window to close is missing, or the file
cannot be written. -/
theorem change_of_rejected_save (he : w.editors[id]? = some e) (window : Option Nat) :
    Leaves (save id window) w fun r w' =>
      (e.grid? w.display = none ∨ ¬ e.Passes w.display → Rejected r w w') ∧
      (Rejected r w w' → (e.grid? w.display = none ∧ Unchanged w w') ∨
        ∃ grid, e.grid? w.display = some grid ∧ ((¬ e.Passes w.display ∧
              Left e.settings (s.withMembers (regrid grid ms)) grid.isSome w w') ∨
            (window = none ∨ ¬ s.CanStore w.files) ∧
              Left e.settings (s.withMembers (e.rebound w.display (regrid grid ms))) true w w')) := by
  refine (leaves_save_parts hs hdata he window).mono fun r w' h => ?_
  obtain ⟨hgrid, hrejected, hsame⟩ | ⟨grid, hgrid, ⟨hno, hrejected, hleft⟩ | ⟨hyes, hwhy, hleft⟩⟩ := h
  · exact ⟨fun _ => hrejected, fun _ => .inl ⟨hgrid, hsame⟩⟩
  · exact ⟨fun _ => hrejected, fun _ => .inr ⟨grid, hgrid, .inl ⟨hno, hleft⟩⟩⟩
  · refine ⟨fun h => ?_, fun hrejected => .inr ⟨grid, hgrid, .inr ⟨hwhy hrejected, hleft⟩⟩⟩
    obtain hnone | hno := h
    · cases hgrid.symm.trans hnone
    · exact absurd hyes hno

end

def sampleBinding (button : Int) : Value :=
  .object [("button", .whole button), ("tool", .text "Pack"), ("name", .text "")]

/-- A form with two bindings and what was typed for the grid and for the numbers of the buttons. -/
def sampleForm (rows columns first second : String) : World where
  files := { root := .folder .nil, home := [] }
  settings := [{ file := "config.json", data := .object [
    ("buttons_shape", .list [.whole 2, .whole 4]),
    ("bindings", .list [sampleBinding 1, sampleBinding 2])] }]
  display := { cells := [rows, columns, first, second].map fun t => { value := .text t } }
  editors := [{
    settings := 0, background := .null, lighter := .null, text := .null, buttonText := .null
    rows := some 0, columns := some 1
    bindings := [sampleBinding 1, sampleBinding 2], bindingCells := [2, 3], bindingNames := [0, 1] }]

/-- The form is rejected because one number was typed twice. -/
theorem change_of_rejected_save_sampleForm :
    ¬ Accepted ["1", "1"] ∧ Leaves (save 0 (some 0)) (sampleForm "3" "4" "1" "1") fun r w' =>
      Rejected r (sampleForm "3" "4" "1" "1") w' := by
  have hno : ¬ Accepted ["1", "1"] := by
    rw [Accepted]
    decide +kernel
  refine ⟨hno, (change_of_rejected_save rfl rfl rfl (some 0)).mono fun r w' h => ?_⟩
  exact h.1 (.inr fun h => hno h.2)

/-- One number was typed twice. The grid was saved all the same. -/
theorem grid_saved_by_rejected_form :
    ∃ w', Ends (save 0 (some 0)) (sampleForm "3" "4" "1" "1") () w' ∧
      w'.journal.boxes = [.error "Error" (BindingFault.duplicate "1").message] ∧
      (w'.settings.map fun s => (s.data.get? "buttons_shape").map Value.plain) = [some "[3, 4]"] ∧
      (sampleForm "3" "4" "1" "1").files.exists? "config.json" = false ∧
      w'.files.exists? "config.json" = true :=
  ⟨_, Job.ends_of_doneIn (by decide +kernel), by decide +kernel, by decide +kernel,
    by decide +kernel, by decide +kernel⟩

/-! ### Numbers of buttons -/

def buttonNumber? (binding : Value) : Option Int :=
  (binding.get? "button").bind Value.asWhole?

def typedNumbers (ls : List (Value × String × String)) : List Int :=
  ls.filterMap fun l => readInteger? l.2.1.toList

def keptNumbers (ls : List (Value × String × String)) : List Int :=
  (ls.filter fun l => (readInteger? l.2.1.toList).isNone).filterMap fun l => buttonNumber? l.1

theorem buttonNumber?_rebind {binding : Value} (h : (buttonNumber? binding).isSome)
    (number name : String) :
    buttonNumber? (rebind binding number name) =
      (readInteger? number.toList).or (buttonNumber? binding) := by
  have hne : ("button" : String) ≠ "name" := by decide
  cases binding with
  | object members =>
    cases hread : readInteger? number.toList <;>
      simp [rebind, buttonNumber?, Value.get?, hread, member?_setMember, hne, Value.asWhole?]
  | _ => cases h

theorem perm_typed_kept (ls : List (Value × String × String)) :
    (ls.filterMap fun l => (readInteger? l.2.1.toList).or (buttonNumber? l.1)).Perm
      (typedNumbers ls ++ keptNumbers ls) := by
  induction ls with
  | nil => exact .nil
  | cons l ls ih =>
    rw [typedNumbers, keptNumbers] at ih ⊢
    cases hread : readInteger? l.2.1.toList with
    | some n => simpa [filterMap_cons, hread] using ih
    | none =>
      cases hold : buttonNumber? l.1 with
      | none => simpa [filterMap_cons, hread, hold] using ih
      | some n =>
        simp only [filterMap_cons, filter_cons, hread, hold, Option.none_or,
          Option.isNone_none, if_true]
        exact (ih.cons n).trans perm_middle.symm

theorem bindingFor_eq {bs : List Value} (h : ∀ b ∈ bs, (buttonNumber? b).isSome) (k : Nat) :
    Desktop.bindingFor k bs = .ok (bs.find? fun b => buttonNumber? b = some (k : Int)) := by
  induction bs with
  | nil => rfl
  | cons b bs ih =>
    obtain ⟨n, hn⟩ := Option.isSome_iff_exists.mp (h b mem_cons_self)
    obtain ⟨button, hbutton, hwhole⟩ := Option.bind_eq_some_iff.mp hn
    have hrequire : b.require (.text "button") = .ok button := by
      cases b with
      | object members =>
        rw [Value.get?] at hbutton
        rw [Value.require, hbutton]
      | _ => cases hbutton
    rw [Desktop.bindingFor, hrequire, find?_cons, hn, ih fun b hb => h b (mem_cons_of_mem _ hb)]
    by_cases hk : n = k <;> simp [bind, Except.bind, pure, Except.pure, hwhole, hk]

theorem find?_of_nodup {bs : List Value} (h : (bs.filterMap buttonNumber?).Nodup) {b : Value}
    (hb : b ∈ bs) {n : Int} (hn : buttonNumber? b = some n) :
    (bs.find? fun b => buttonNumber? b = some n) = some b := by
  induction bs with
  | nil => cases hb
  | cons c bs ih =>
    by_cases hc : buttonNumber? c = some n
    · rw [filterMap_cons, hc] at h
      obtain rfl | hmem := mem_cons.mp hb
      · simp [hc]
      · exact absurd (mem_filterMap.mpr ⟨b, hmem, hn⟩) (nodup_cons.mp h).1
    · have hmem : b ∈ bs := (mem_cons.mp hb).resolve_left fun h => hc (h ▸ hn)
      have hrest : (bs.filterMap buttonNumber?).Nodup :=
        h.sublist ((sublist_cons_self c bs).filterMap _)
      simpa [hc] using ih hrest hmem

section

variable {id : Nat} {e : Editor} {s : Settings} {ms : List (String × Value)} {w : World}

theorem sublist_zip {α β : Type} (xs : List α) (ys : List β) :
    ((xs.zip ys).map Prod.fst).Sublist xs ∧ ((xs.zip ys).map Prod.snd).Sublist ys := by
  induction xs generalizing ys with
  | nil => simp
  | cons x xs ih =>
    cases ys with
    | nil => simp
    | cons y ys => exact ⟨(ih ys).1.cons_cons x, (ih ys).2.cons_cons y⟩

theorem nodup_typedNumbers (h : Accepted (e.numbers w.display)) :
    (typedNumbers (e.lines w.display)).Nodup := by
  have hsub : ((e.lines w.display).map (·.2.1)).Sublist (e.numbers w.display) := by
    have hsnd := (sublist_zip e.bindings ((e.numbers w.display).zip
      (e.bindingNames.map w.display.written))).2.map Prod.fst
    rw [map_map] at hsnd
    exact hsnd.trans (sublist_zip _ _).1
  have hmap := h.2.sublist (hsub.filterMap _)
  rwa [filterMap_map] at hmap

theorem nodup_keptNumbers (h : (e.bindings.filterMap buttonNumber?).Nodup) (d : Display) :
    (keptNumbers (e.lines d)).Nodup := by
  have hsub := ((sublist_zip e.bindings ((e.numbers d).zip
    (e.bindingNames.map d.written))).1).filterMap buttonNumber?
  rw [filterMap_map] at hsub
  exact h.sublist ((filter_sublist.filterMap _).trans hsub)

/-- **Numbers of saved bindings.** A binding gets the number that was typed for it, and it keeps its
number if none was typed. If no number was used twice before, none is used twice afterwards exactly
if no number that was typed is also one that was kept; only the numbers that were typed are compared
with each other. The desktop takes the first binding with a number, so it finds all of them in that
case. -/
theorem numbers_of_saved_bindings (he : w.editors[id]? = some e)
    (hs : w.settings[e.settings]? = some s) (hdata : s.data = .object ms)
    (hfolders : e.folders = []) (hgrid : e.grid? w.display ≠ none)
    (haccepted : Accepted (e.numbers w.display)) (hlines : e.lines w.display ≠ [])
    (hwhole : ∀ b ∈ e.bindings, (buttonNumber? b).isSome)
    (hdistinct : (e.bindings.filterMap buttonNumber?).Nodup) (window : Option Nat) :
    Leaves (save id window) w fun _ w' => ∃ bs : List Value,
      ((w'.settings[e.settings]?).bind fun s => s.data.get? "bindings") = some (.list bs) ∧
      bs.map buttonNumber? = (e.lines w.display).map (fun l =>
        (readInteger? l.2.1.toList).or (buttonNumber? l.1)) ∧
      ((bs.filterMap buttonNumber?).Nodup ↔
        ∀ n ∈ typedNumbers (e.lines w.display), n ∉ keptNumbers (e.lines w.display)) ∧
      (∀ k : Nat, Desktop.bindingFor k bs =
        .ok (bs.find? fun b => buttonNumber? b = some (k : Int))) ∧
      ((bs.filterMap buttonNumber?).Nodup → ∀ b ∈ bs, ∀ k : Nat, buttonNumber? b = some (k : Int) →
        Desktop.bindingFor k bs = .ok (some b)) := by
  refine (leaves_save_parts hs hdata he window).mono fun r w' h => ?_
  obtain ⟨hnone, -⟩ | ⟨grid, -, ⟨hno, -⟩ | ⟨-, -, hleft⟩⟩ := h
  · exact absurd hnone hgrid
  · exact absurd ⟨hfolders, haccepted⟩ hno
  have hold : ∀ l ∈ e.lines w.display, (buttonNumber? l.1).isSome := fun l hl =>
    hwhole _ (of_mem_zip hl).1
  have hnumbers : (e.saved w.display).map buttonNumber? = (e.lines w.display).map (fun l =>
      (readInteger? l.2.1.toList).or (buttonNumber? l.1)) := by
    rw [saved, map_map]
    exact map_congr_left fun l hl => buttonNumber?_rebind (hold l hl) _ _
  have hsaved : ∀ b ∈ e.saved w.display, (buttonNumber? b).isSome := by
    intro b hb
    obtain ⟨l, hl, heq⟩ := mem_map.mp (hnumbers ▸ mem_map_of_mem hb)
    rw [← heq, Option.isSome_or, hold l hl, Bool.or_true]
  refine ⟨e.saved w.display, ?_, hnumbers, ?_, bindingFor_eq hsaved, fun hnodup b hb k hk => ?_⟩
  · have hcells : e.bindingCells ≠ [] := fun h => hlines (by simp [lines, numbers, h])
    have hne : e.saved w.display ≠ [] := by simpa [saved] using hlines
    obtain ⟨hn, -⟩ := List.getElem?_eq_some_iff.mp hs
    rw [hleft.settings, getElem?_set_self hn, rebound, if_neg hcells, if_neg hne]
    exact (member?_setMember _ _ _ _).trans (if_pos rfl)
  · have hperm := perm_typed_kept (e.lines w.display)
    have heq : (e.saved w.display).filterMap buttonNumber? = (e.lines w.display).filterMap fun l =>
          (readInteger? l.2.1.toList).or (buttonNumber? l.1) := by
      have hmap := congrArg (List.filterMap fun n => n) hnumbers
      rwa [filterMap_map, filterMap_map] at hmap
    rw [heq, hperm.nodup_iff, nodup_append]
    have htyped := nodup_typedNumbers haccepted
    have hkept := nodup_keptNumbers hdistinct w.display
    exact ⟨fun h n hn hmem => h.2.2 n hn n hmem rfl,
      fun h => ⟨htyped, hkept, fun a ha b hb hab => h a ha (hab ▸ hb)⟩⟩
  · rw [bindingFor_eq hsaved, find?_of_nodup hnodup hb hk]

end

/-- A number was typed for the second binding only, and it is a new one. -/
theorem numbers_of_saved_bindings_sampleForm :
    Leaves (save 0 (some 0)) (sampleForm "2" "4" "" "3") fun _ w' => ∃ bs : List Value,
      ((w'.settings[0]?).bind fun s => s.data.get? "bindings") = some (.list bs) ∧
      bs.map buttonNumber? = [some 1, some 3] ∧ (bs.filterMap buttonNumber?).Nodup := by
  have hgrid : (sampleForm "2" "4" "" "3").editors.map
      (fun e => (e.grid? (sampleForm "2" "4" "" "3").display).isSome) = [true] := by decide +kernel
  have haccepted : Accepted ["", "3"] := by
    rw [Accepted]
    decide +kernel
  refine (numbers_of_saved_bindings rfl rfl rfl rfl
    (Option.isSome_iff_ne_none.mp (List.cons.inj hgrid).1) haccepted nofun (by decide +kernel)
    (by decide +kernel) (some 0)).mono fun _ w' h => ?_
  obtain ⟨bs, hbs, hnumbers, hnodup, -⟩ := h
  exact ⟨bs, hbs, hnumbers.trans (by decide +kernel), hnodup.mpr (by decide +kernel)⟩

/-- The number that was typed for the second binding is the one that the first binding keeps. -/
theorem number_saved_twice :
    ∃ w', Ends (save 0 (some 0)) (sampleForm "2" "4" "" "1") () w' ∧ w'.journal.boxes = [] ∧
      (w'.settings.map fun s => ((s.data.get? "bindings").bind fun v => v.items.toOption).map
        (List.map buttonNumber?)) = [some [some 1, some 1]] :=
  ⟨_, Job.ends_of_doneIn (by decide +kernel), by decide +kernel, by decide +kernel⟩

end Editor

end ApkWorkshop
