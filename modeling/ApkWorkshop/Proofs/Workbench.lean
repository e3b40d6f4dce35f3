import ApkWorkshop.Proofs.FilePlaces
import ApkWorkshop.Proofs.Processes
import ApkWorkshop.Tool.Compiler

/-!
# Work in One Folder

A program that works on the entries of one folder finds each of them at the place of the folder
with one more name. `Bench` says what stands at all places, and each step of such work changes it at
a few of them.
-/

namespace ApkWorkshop

open List Function ApkWorkshop.Path Files Job

/-- What stands at each place: nothing, a folder, or a file with its content. -/
abbrev Standing := List String → Option (Option (List UInt8))

def Files.slot (f : Files) (dir name : String) : List String := f.wayTo dir ++ [name]

theorem Files.slot_inj {f : Files} {dir name other : String} :
    f.slot dir name = f.slot dir other ↔ name = other := by
  simp [slot]

/-- The files `f` stand as `s` says. They are proper, with a folder at the path `dir`, and they are
seen from the same folder as the files `base`. -/
structure Bench (base : Files) (dir : String) (s : Standing) (f : Files) : Prop where
  home : f.home = base.home
  proper : f.root.Proper
  folder : f.isFolder dir = true
  standing : f.standing = s

namespace Bench

variable {base f : Files} {dir name : String} {s : Standing} {content : List UInt8}

theorem wayTo_dir (h : Bench base dir s f) : f.wayTo dir = base.wayTo dir :=
  wayTo_congr h.home dir

theorem wayTo_entry (h : Bench base dir s f) (hname : ProperName name) :
    f.wayTo (join dir name) = base.slot dir name := by
  rw [wayTo_join f (ne_empty_of_isFolder h.folder) hname.plainName, h.wayTo_dir]
  rfl

theorem at_slot (h : Bench base dir s f) :
    f.standing (f.wayTo dir ++ [name]) = s (base.slot dir name) := by
  rw [h.standing, h.wayTo_dir]
  rfl

theorem exists?_entry (h : Bench base dir s f) (hname : ProperName name) :
    f.exists? (join dir name) = (s (base.slot dir name)).isSome := by
  rw [exists?_join h.folder hname, h.at_slot]

theorem isFolder_entry (h : Bench base dir s f) (hname : ProperName name) :
    f.isFolder (join dir name) = true ↔ s (base.slot dir name) = some none := by
  rw [isFolder_join h.folder hname, h.at_slot]

theorem of_standing {f' : Files} {s' : Standing} (h : Bench base dir s f) (hhome : f'.home = f.home)
    (hproper : f'.root.Proper) (hstanding : f'.standing = s')
    (hfolders : ∀ place, s place = some none → s' place = some none) : Bench base dir s' f' where
  home := hhome.trans h.home
  proper := hproper
  folder := by
    refine isFolder_of_standing hhome (fun place hplace => ?_) h.folder
    rw [h.standing] at hplace
    rw [hstanding]
    exact hfolders place hplace
  standing := hstanding

theorem folders_update {place : List String} (hfree : s place ≠ some none)
    (entry : Option (Option (List UInt8))) (other : List String) (h : s other = some none) :
    update s place entry other = some none := by
  have hne : other ≠ place := by
    rintro rfl
    exact hfree h
  rwa [update_of_ne hne]

theorem write (h : Bench base dir s f) (hname : ProperName name)
    (hfree : s (base.slot dir name) ≠ some none) (content : List UInt8) :
    ∃ f', f.write (join dir name) content = .ok f' ∧
      Bench base dir (update s (base.slot dir name) (some (some content))) f' := by
  have hslot : f.standing (f.wayTo dir ++ [name]) ≠ some none := by
    rw [h.at_slot]
    exact hfree
  have hwrite := (canWrite_join h.folder hname hslot).write content
  refine ⟨_, hwrite, h.of_standing (home_write hwrite) (proper_write h.proper hwrite) ?_
    (folders_update hfree _)⟩
  rw [standing_write hwrite, h.standing, h.wayTo_entry hname]

theorem removeFile (h : Bench base dir s f) (hname : ProperName name)
    (hfile : s (base.slot dir name) = some (some content)) :
    ∃ f', f.removeFile (join dir name) = .ok f' ∧
      Bench base dir (update s (base.slot dir name) none) f' := by
  obtain ⟨f', hremove⟩ := exists_removeFile_join h.folder hname (h.at_slot.trans hfile)
  refine ⟨f', hremove, h.of_standing (home_removeFile hremove)
    (proper_removeFile h.proper hremove) ?_ (folders_update (by simp [hfile]) _)⟩
  rw [standing_removeFile h.proper hremove, h.standing, h.wayTo_entry hname]

theorem move {other : String} (h : Bench base dir s f) (hname : ProperName name)
    (hother : ProperName other) (hne : name ≠ other)
    (hfile : s (base.slot dir name) = some (some content))
    (hfree : s (base.slot dir other) ≠ some none) :
    ∃ f', f.move (join dir name) (join dir other) = .ok f' ∧
      Bench base dir (update (update s (base.slot dir other) (some (some content)))
        (base.slot dir name) none) f' := by
  have hread := read_join h.folder hname (h.at_slot.trans hfile)
  have htarget : f.isFolder (join dir other) = false := by
    rw [← Bool.not_eq_true, h.isFolder_entry hother]
    exact hfree
  have hways : f.wayTo (join dir name) ≠ f.wayTo (join dir other) := by
    rw [h.wayTo_entry hname, h.wayTo_entry hother, Ne, slot_inj]
    exact hne
  -- first the file is written at its new place, and then the old one is removed
  obtain ⟨moved, hwrite, hmoved⟩ := h.write hother hfree content
  have hslots : base.slot dir name ≠ base.slot dir other := fun heq => hne (slot_inj.mp heq)
  have hstays : update s (base.slot dir other) (some (some content)) (base.slot dir name) =
      some (some content) := (update_of_ne hslots _ s).trans hfile
  obtain ⟨f', hremove, hf'⟩ := hmoved.removeFile hname hstays
  refine ⟨f', ?_, hf'⟩
  rw [move_eq hread htarget hways, hwrite]
  exact hremove

end Bench

/-! ### Steps of jobs -/

section

variable {α ε σ : Type} {a : α} {files : Files} {m : ExceptT ε (StateM σ) α}
  {handle : Fault → Job α} {w' w₁ w : World} {fault : Fault} {path : String} {s : σ}

theorem Job.ends_attempt {x : Except Fault α} (h : x = .ok a) : Ends (attempt x) w a w := by
  rw [h]
  rfl

theorem Job.ends_onFiles {f : Files → Except FileFault Files} (h : f w.files = .ok files) :
    Ends (onFiles f) w () { w with files } := by
  refine Ends.bind (a := w.files) rfl ?_
  rw [h]
  exact ends_modify.mpr rfl

theorem Job.leaves_makeFolders_bind {f : Unit → Job α} {Q : Except Fault α → World → Prop}
    (hok : (w.files.makeFolders path).2 = none →
      Leaves (f ()) { w with files := (w.files.makeFolders path).1 } Q)
    (herror : ∀ fault, (w.files.makeFolders path).2 = some fault →
      Q (.error (.file fault)) { w with files := (w.files.makeFolders path).1 }) :
    Leaves (makeFolders path >>= f) w Q := by
  rw [makeFolders, bind_assoc]
  refine leaves_files_bind ?_
  generalize w.files.makeFolders path = made at hok herror ⊢
  obtain ⟨files, _ | fault⟩ := made
  · exact hok rfl
  · exact herror fault rfl

theorem Leaves.tryFinally_modify {g : σ → σ} {Q : Except ε α → σ → Prop}
    (h : Leaves m s fun r s' => Q r (g s')) :
    Leaves (tryFinally m (modify g : ExceptT ε (StateM σ) PUnit)) s Q := by
  rw [Leaves, run_tryFinally_modify]
  exact h

theorem Job.ends_makeFolders (h : w.files.makeFolders path = (files, none)) :
    Ends (makeFolders path) w () { w with files } := by
  refine Ends.bind (a := w.files) rfl ?_
  rw [h]
  exact Ends.modify_bind (ends_pure.mpr ⟨rfl, rfl⟩)

theorem Leaves.exists_ends {P : α → σ → Prop} (h : Leaves m s fun r s' => ∃ a, r = .ok a ∧ P a s') :
    ∃ a s', Ends m s a s' ∧ P a s' := by
  obtain ⟨a, hrun, hP⟩ := h
  exact ⟨a, _, ends_of_run hrun, hP⟩

theorem Job.ends_orElse {m : Job α} (h : Ends m w a w') : Ends (m.orElse handle) w a w' := by
  have hm : m.doneIn w = (.ok a, w') := h
  change (m.orElse handle).doneIn w = (.ok a, w')
  rw [doneIn_orElse, hm]

theorem Job.doneIn_bind_error {β : Type} {m : Job α} {f : α → Job β}
    (h : m.doneIn w = (.error fault, w₁)) : (m >>= f).doneIn w = (.error fault, w₁) := by
  rw [doneIn] at h
  rw [doneIn, run_bind, h]

theorem Job.ends_orElse_of_error {m : Job α} (h : m.doneIn w = (.error fault, w₁))
    (hhandle : Ends (handle fault) w₁ a w') : Ends (m.orElse handle) w a w' := by
  change (m.orElse handle).doneIn w = (.ok a, w')
  rw [doneIn_orElse, h]
  exact hhandle

theorem Job.exists_ends_of_doneIn {m : Job α} {P : World → Prop}
    (h : (m.doneIn w).1.toOption = some a ∧ P (m.doneIn w).2) : ∃ w', Ends m w a w' ∧ P w' :=
  ⟨_, ends_of_doneIn h.1, h.2⟩

end

namespace Bench

variable {base : Files} {dir name : String} {s : Standing} {w : World}

open Tool.Compiler in
theorem ends_clear (h : Bench base dir s w.files) (hname : ProperName name)
    (hfree : s (base.slot dir name) ≠ some none) :
    ∃ files, Ends (clear (join dir name)) w () { w with files } ∧
      Bench base dir (update s (base.slot dir name) none) files := by
  have hstands : Ends (standsAt (join dir name)) w (s (base.slot dir name)).isSome w := by
    rw [← h.exists?_entry hname]
    exact ends_standsAt w _
  cases hentry : s (base.slot dir name) with
  | none =>
    rw [hentry] at hstands
    refine ⟨w.files, hstands.bind (ends_pure.mpr ⟨rfl, rfl⟩), ?_⟩
    rw [update_eq_self_iff.mpr hentry.symm]
    exact h
  | some entry =>
    rw [hentry] at hstands
    obtain ⟨content, rfl⟩ : ∃ content, entry = some content := by
      cases entry with
      | none => exact absurd hentry hfree
      | some content => exact ⟨content, rfl⟩
    obtain ⟨files, hremove, hfiles⟩ := h.removeFile hname hentry
    exact ⟨files, hstands.bind (ends_onFiles hremove), hfiles⟩

end Bench

/-! ### Processes that write one file -/

namespace Outcome

/-- A process that is told where to put its output and writes to no other place. The place is the
third of the four words of its command. -/
def OnlyOutput (o : Outcome) : Prop :=
  ∀ made ∈ o.made, (made.1 = .word 2 ∨ made.1 = .word (-2)) ∧ made.2.isSome

instance (o : Outcome) : Decidable o.OnlyOutput :=
  inferInstanceAs (Decidable (∀ made ∈ o.made, (made.1 = .word 2 ∨ made.1 = .word (-2)) ∧ _))

/-- The output of a process that runs to its end without fault, as it was written last. -/
def output? (o : Outcome) : Option (List UInt8) :=
  if o.refusal = none ∧ o.code = 0 then o.made.getLast?.bind (·.2) else none

end Outcome

/-- The output of the next process, and the outcomes that are left for later ones. None is started
if the program has no name. -/
def launch (program : Value) (outcomes : List Outcome) : Option (List UInt8) × List Outcome :=
  match program.path with
  | .ok _ => ((outcomes.headD {}).output?, outcomes.tail)
  | .error _ => (none, outcomes)

theorem launch_subset (program : Value) (outcomes : List Outcome) :
    (launch program outcomes).2 ⊆ outcomes := by
  rw [launch]
  split
  · exact tail_subset outcomes
  · exact List.Subset.refl outcomes

namespace Bench

variable {base : Files} {dir name : String} {s : Standing}

theorem left {f : Files} (h : Bench base dir s f) (hname : ProperName name)
    (hfree : s (base.slot dir name) ≠ some none) (program input : String)
    {made : List (MadeAt × Option (List UInt8))}
    (hmade : ∀ m ∈ made, (m.1 = .word 2 ∨ m.1 = .word (-2)) ∧ m.2.isSome) :
    ∃ files, left [program, "-o", Path.join dir name, input] made f = .ok files ∧
      Bench base dir (update s (base.slot dir name)
        (((made.getLast?.bind (·.2)).map some).or (s (base.slot dir name)))) files := by
  induction made generalizing s f with
  | nil => exact ⟨f, rfl, by simpa using h⟩
  | cons m rest ih =>
    obtain ⟨place, content⟩ := m
    obtain ⟨hplace, hcontent⟩ := hmade (place, content) mem_cons_self
    obtain ⟨bytes, rfl⟩ := Option.isSome_iff_exists.mp hcontent
    have hpath : madePath [program, "-o", Path.join dir name, input] place =
        some (join dir name) := by
      rcases hplace with rfl | rfl <;> rfl
    obtain ⟨files, hwrite, hfiles⟩ := h.write hname hfree bytes
    obtain ⟨files', hrest, hfiles'⟩ := ih hfiles (by simp) fun m hm =>
      hmade m (mem_cons_of_mem _ hm)
    refine ⟨files', ?_, ?_⟩
    · simp only [left, foldlM_cons, leave, hpath]
      rw [supply_join h.folder hname.plainName]
      rw [hwrite]
      exact hrest
    · rw [update_idem, update_self] at hfiles'
      convert hfiles' using 2
      cases rest with
      | nil => rfl
      | cons next rest =>
        have hsome : ((next :: rest).getLast?.bind (·.2)).isSome := by
          exact (hmade _ (mem_cons_of_mem _ (getLast_mem _))).2
        obtain ⟨last, hlast⟩ := Option.isSome_iff_exists.mp hsome
        rw [getLast?_cons_cons, hlast]
        rfl

/-- **A process is run to its end.** Its output stands at its place, and nothing else has changed;
if it fails, there may be something at its place. -/
theorem leaves_runChecked {w : World} (h : Bench base dir s w.files) (hname : ProperName name)
    (hfree : s (base.slot dir name) = none) (hout : ∀ o ∈ w.outside.outcomes, o.OnlyOutput)
    (program : Value) (input : String) :
    Leaves (runChecked [program, .text "-o", .text (Path.join dir name), .text input] none) w
      fun r w' => w'.tools = w.tools ∧ w'.outside.outcomes = (launch program w.outside.outcomes).2 ∧
        ∃ entry, entry ≠ some none ∧ Bench base dir (update s (base.slot dir name) entry) w'.files ∧
          (∀ o, r = .ok o → entry = (launch program w.outside.outcomes).1.map some) ∧
          ∀ e, r = .error e → (launch program w.outside.outcomes).1 = none := by
  have hstays : Bench base dir (update s (base.slot dir name) none) w.files := by
    rwa [update_eq_self_iff.mpr hfree.symm]
  rw [launch]
  refine (Job.leaves_runChecked _ none w).mono fun r w' hend => ?_
  obtain ⟨rfl, ⟨e, rfl⟩, _, hwords⟩ | ⟨command, files, hwords, rfl, hended⟩ := hend
  all_goals rw [Value.commandWords] at hwords
  · -- no command without the name of a program
    cases hpath : program.path with
    | ok word =>
      rw [hpath] at hwords
      cases hwords
    | error fault => exact ⟨rfl, rfl, none, by simp, hstays, by simp, fun _ _ => rfl⟩
  · cases hpath : program.path with
    | error fault =>
      rw [hpath] at hwords
      cases hwords
    | ok word =>
      rw [hpath] at hwords
      obtain rfl : [word, "-o", Path.join dir name, input] = command := Except.ok.inj hwords
      have honly : (w.outside.outcomes.headD {}).OnlyOutput := by
        cases houtcomes : w.outside.outcomes with
        | nil => exact fun _ hm => nomatch hm
        | cons o rest => exact hout o (by simp [houtcomes])
      obtain ⟨files', hleft, hbench⟩ := h.left hname (by simp [hfree]) word input honly
      rw [hfree, Option.or_none] at hbench
      have hentry (o : Option (List UInt8)) : o.map some ≠ some none := by simp
      refine ⟨rfl, rfl, ?_⟩
      rw [Outcome.output?]
      cases r with
      | ok o =>
        obtain ⟨rfl, hgood, hfiles⟩ := hended.ok o rfl
        rw [if_pos hgood, ← Except.ok.inj (hleft.symm.trans hfiles)]
        exact ⟨_, hentry _, hbench, fun _ _ => rfl, nofun⟩
      | error e =>
        obtain ⟨hnot, hfiles⟩ := hended.error e files' rfl hleft
        rw [if_neg hnot]
        obtain rfl | rfl := hfiles
        · exact ⟨none, by simp, hstays, nofun, fun _ _ => rfl⟩
        · exact ⟨_, hentry _, hbench, nofun, fun _ _ => rfl⟩

end Bench

end ApkWorkshop
