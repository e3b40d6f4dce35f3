import ApkWorkshop.Proofs.Workbench
import ApkWorkshop.Tool.PackApk

/-!
# Steps of Packing

A package is built, the key is looked up, and the package is signed. Each of these steps runs other
programs, works on the files and shows progress, and each may stop anywhere.

* `Desk` — what the steps work on; `Desk.Ran` is a process that ran, `Desk.Clears` a file that was
  removed if it was there;
* `Works` — what a step keeps however it ends, and the progress that it has shown;
* `Climbs` — **a step with its end**: it shows progress up to some point, and if it is done, all of
  it, and then what was done is told by a relation between the desk before and after;
* `climbs_build`, `climbs_keyData`, `climbs_sign` — the three steps.
-/

namespace ApkWorkshop

open Text List World Job

/-- What a tool that packs keeps while it is at work: who is told, its report, and its times. -/
structure Stance where
  log : Sink
  progress : Sink
  report : String
  times : PackTimes

/-- The name of the package, the folder it goes to, and the times. -/
def Tool.packing (t : Tool) : String × String × PackTimes :=
  match t.part with
  | .packApk name output times => (name, output, times)
  | _ => ("", "", {})

def Tool.stance (t : Tool) : Stance :=
  ⟨t.log, t.progress, t.report, t.packing.2.2⟩

theorem World.tool_modify {w : World} {id : Nat} (hid : id < w.tools.length) (f : Tool → Tool) :
    ({ w with tools := w.tools.modify id f } : World).tool id = f (w.tool id) := by
  simp only [tool, getElem?_modify, if_true, getElem?_eq_getElem hid]
  rfl

/-! ### The desk -/

/-- What a tool that packs works on: the files, what the next processes will do, the folders of the
version, the name of the package, and the folder it goes to. -/
structure Desk where
  files : Files
  outcomes : List Outcome
  folders : List (String × String)
  name : String
  output : String

/-- What a tool that packs works on in a world. -/
def World.desk (w : World) (id : Nat) : Desk :=
  ⟨w.files, w.outside.outcomes, (w.tool id).paths, (w.tool id).packing.1, (w.tool id).packing.2.1⟩

theorem Told.desk {w w' : World} (h : Told w w') (id : Nat) : w'.desk id = w.desk id := by
  rw [World.desk, h.files, h.outside, h.tool, World.desk]

namespace Desk

def next (d : Desk) : Outcome := d.outcomes.headD {}

def package (d : Desk) (mark : String) : String := Path.join d.output (mark ++ d.name ++ ".apk")

def signed (d : Desk) : String := Path.join d.output (d.name ++ ".apk")

def Ran (d : Desk) (words : List Value) (d' : Desk) : Prop :=
  ∃ command files, Value.commandWords words = .ok command ∧ d.next.refusal = none ∧
    Job.left command d.next.made d.files = .ok files ∧
    d' = { d with files, outcomes := d.outcomes.tail }

def Clears (d : Desk) (path : String) (d' : Desk) : Prop :=
  d.files.exists? path = false ∧ d' = d ∨
    ∃ files, d.files.removeFile path = .ok files ∧ d' = { d with files }

end Desk

namespace Tool.PackApk

theorem ends_target (w : World) (id : Nat) : Ends (target id) w (w.tool id).packing w := by
  refine (ends_byNumber w id).bind ?_
  rw [packing]
  cases (w.tool id).part <;> exact ends_pure.mpr ⟨rfl, rfl⟩

/-- A tool has been at work and has shown this progress, if its reader notes everything. -/
structure Works (id : Nat) (v : List Int) (w w' : World) : Prop where
  stance : (w'.tool id).stance = (w.tool id).stance
  count : w'.tools.length = w.tools.length
  clock : w'.outside.clock = w.outside.clock
  now : w'.outside.now = w.outside.now
  shown : (w.tool id).progress = .recorder [] →
    w'.journal.progress = w.journal.progress ++ v.map .whole

def Passes {α : Type} (id : Nat) (v : List Int) (m : Job α) : Prop :=
  ∀ w, Leaves m w fun _ w' => Works id v w w' ∧ w'.desk id = w.desk id

/-- How a step ended that began in the world `w`: progress was shown up to some point; if the step
is `done`, up to the end, and `Q` holds of the desk. -/
def Climbed {α : Type} (id : Nat) (v : List Int) (done : α → Prop) (Q : α → Desk → Prop) (w : World)
    (r : Except Fault α) (w' : World) : Prop :=
  ∃ u, u <+: v ∧ Works id u w w' ∧ ∀ a, r = .ok a → done a → u = v ∧ Q a (w'.desk id)

def Climbs {α : Type} (id : Nat) (d : Desk) (v : List Int) (done : α → Prop) (Q : α → Desk → Prop)
    (m : Job α) : Prop :=
  ∀ w, id < w.tools.length → w.desk id = d → Leaves m w (Climbed id v done Q w)

section

variable {id : Nat} {v u : List Int} {w w' w'' : World} {α : Type} {done : α → Prop}
  {Q : α → Desk → Prop}

theorem Works.trans (h : Works id v w w') (h' : Works id u w' w'') : Works id (v ++ u) w w'' := by
  refine ⟨h'.stance.trans h.stance, h'.count.trans h.count, h'.clock.trans h.clock,
    h'.now.trans h.now, fun hsink => ?_⟩
  have hsink' := (congrArg Stance.progress h.stance).trans hsink
  rw [h'.shown hsink', h.shown hsink, map_append, append_assoc]

theorem works_of_tools (htools : w'.tools = w.tools) (hclock : w'.outside.clock = w.outside.clock)
    (hnow : w'.outside.now = w.outside.now) (hshown : w'.journal.progress = w.journal.progress) :
    Works id [] w w' := by
  have htool : w'.tool id = w.tool id := by rw [tool, htools, tool]
  exact ⟨by rw [htool], by rw [htools], hclock, hnow, fun _ => by simp [hshown]⟩

theorem works_refl (w : World) : Works id [] w w := works_of_tools rfl rfl rfl rfl

theorem works_update {f : Tool → Tool} (hid : id < w.tools.length)
    (h : (f (w.tool id)).stance = (w.tool id).stance) :
    Works id [] w { w with tools := w.tools.modify id f } := by
  refine ⟨?_, length_modify _ _ _, rfl, rfl, fun _ => by simp⟩
  rwa [tool_modify hid]

theorem Climbed.after {r : Except Fault α} (h : Works id u w w')
    (h' : Climbed id v done Q w' r w'') : Climbed id (u ++ v) done Q w r w'' := by
  obtain ⟨rest, hrest, hworks, hdone⟩ := h'
  refine ⟨u ++ rest, (prefix_append_right_inj u).mpr hrest, h.trans hworks, fun a ha ha' => ?_⟩
  obtain ⟨rfl, hQ⟩ := hdone a ha ha'
  exact ⟨rfl, hQ⟩

theorem Climbed.fault {e : Fault} (h : Works id u w w') :
    Climbed id (u ++ v) done Q w (.error e) w' :=
  ⟨u, prefix_append u v, h, nofun⟩

end

/-! ### Steps that leave the desk as it is -/

section

variable {α : Type} {m : Job α}

theorem passes_yields (id : Nat) (h : ∀ w, ∃ x, Job.Yields m w x) : Passes id [] m := fun w => by
  obtain ⟨x, hx⟩ := h w
  rw [Leaves, ← doneIn, hx]
  exact ⟨works_refl w, rfl⟩

theorem passes_attempt (id : Nat) (x : Except Fault α) : Passes id [] (attempt x) :=
  passes_yields id fun w => ⟨x, yields_attempt x w⟩

theorem passes_setting (id : Nat) (key : String) (usual : Value) :
    Passes id [] (setting id key usual) :=
  passes_yields id fun w => ⟨_, yields_setting w id key usual⟩

theorem passes_stands (id : Nat) (path : Value) : Passes id [] (stands path) :=
  passes_yields id fun w => ⟨_, yields_attempt (path.standsIn w.files) w⟩

theorem passes_say (id : Nat) (line : String) : Passes id [] (say id line) := by
  intro w
  -- the reader of the log writes to the journal, but never progress
  have hshown : Leaves (say id line) w fun _ w' => w'.journal.progress = w.journal.progress := by
    refine (ends_byNumber w id).leaves_bind ?_
    cases (w.tool id).log with
    | silent => exact leaves_pure rfl
    | recorder failsOn =>
      refine leaves_modify_bind ?_
      rw [Sink.failOn]
      split
      · exact leaves_throw rfl
      · exact leaves_pure rfl
    | desktop number =>
      refine (Desktop.ends_byNumber w number).leaves_bind ?_
      split
      · exact leaves_modify_bind (leaves_modify_bind (leaves_modify rfl))
      · exact leaves_modify rfl
  have htold : Told w ((say id line).doneIn w).2 := tells_say id line w
  exact ⟨works_of_tools htold.tools (congrArg Outside.clock htold.outside)
    (congrArg Outside.now htold.outside) hshown, htold.desk id⟩

theorem passes_showProgress (id : Nat) (v : Int) : Passes id [v] (showProgress id v) := by
  intro w
  refine (ends_byNumber w id).leaves_bind ?_
  cases hsink : (w.tool id).progress with
  | silent => exact leaves_pure ⟨⟨rfl, rfl, rfl, rfl, fun h => by simp [hsink] at h⟩, rfl⟩
  | recorder failsOn =>
    refine leaves_modify_bind ?_
    rw [Sink.failOn]
    split
    · exact leaves_throw ⟨⟨rfl, rfl, rfl, rfl, fun _ => rfl⟩, rfl⟩
    · exact leaves_pure ⟨⟨rfl, rfl, rfl, rfl, fun _ => rfl⟩, rfl⟩
  | desktop number =>
    exact (Desktop.ends_byNumber w number).leaves_bind
      (leaves_modify ⟨⟨rfl, rfl, rfl, rfl, fun h => by simp [hsink] at h⟩, rfl⟩)

theorem passes_openFile (id : Nat) (file : String) : Passes id [] (Settings.openFile file) := by
  intro w
  refine (Settings.ends_openFile_held w file).leaves ?_
  obtain ⟨_, _, h⟩ := Settings.opened_rest w file
  rw [h]
  exact ⟨works_of_tools rfl rfl rfl rfl, rfl⟩

end

/-! ### Steps in a row -/

section

variable {α β : Type} {id : Nat} {d : Desk} {v u : List Int} {m : Job α} {f : α → Job β}
  {next : Unit → Job β} {done : α → Prop} {done' : β → Prop} {Q : α → Desk → Prop}
  {Q' : β → Desk → Prop} {path : String}

theorem Climbs.onward {w x : World} (hm : Climbs id d v done Q m) (h : Works id u w x)
    (hid : id < w.tools.length) (hx : x.desk id = d) : Leaves m x (Climbed id (u ++ v) done Q w) :=
  (hm x (h.count ▸ hid) hx).mono fun _ _ h' => h'.after h

theorem Passes.climbs (hm : Passes id u m) (hf : ∀ a, Climbs id d v done' Q' (f a)) :
    Climbs id d (u ++ v) done' Q' (m >>= f) := by
  rintro w hid rfl
  exact (hm w).bind (fun a w' h => (hf a).onward h.1 hid h.2) fun _ _ h => .fault h.1

theorem climbs_pure {a : α} (h : done a → v = [] ∧ Q a d) : Climbs id d v done Q (pure a) := by
  rintro w - rfl
  refine leaves_pure ⟨[], nil_prefix, works_refl w, fun b hb hdone => ?_⟩
  cases hb
  exact ⟨(h hdone).1.symm, (h hdone).2⟩

theorem climbs_refuse {a : α} (h : ¬ done a) (line : String) :
    Climbs id d v done Q (say id line >>= fun _ => pure a) :=
  (passes_say id line).climbs fun _ => climbs_pure fun hdone => absurd hdone h

theorem Climbs.orElse {handle : Fault → Job α} (hm : Climbs id d v done Q m)
    (hhandle : ∀ e u d, Climbs id d u done Q (handle e)) :
    Climbs id d v done Q (m.orElse handle) := fun w hid hw =>
  leaves_orElse (hm w hid hw) (fun _ _ h => h) fun e _ ⟨_, ⟨rest, hrest⟩, h, _⟩ =>
    hrest ▸ (hhandle e rest _).onward h hid rfl

theorem Climbs.mono {Q' : α → Desk → Prop} (hm : Climbs id d v done Q m)
    (hQ : ∀ a d', Q a d' → Q' a d') : Climbs id d v done Q' m := fun w hid hw =>
  (hm w hid hw).mono fun _ _ ⟨u, hus, h, hdone⟩ =>
    ⟨u, hus, h, fun a ha ha' => (hdone a ha ha').imp_right (hQ a _)⟩

theorem Climbs.bind (hm : Climbs id d u (fun _ => True) Q m)
    (hf : ∀ a d', Q a d' → Climbs id d' v done' Q' (f a)) :
    Climbs id d (u ++ v) done' Q' (m >>= f) := by
  intro w hid hw
  refine (hm w hid hw).bind (fun a w' ⟨u', _, h, hdone⟩ => ?_) fun e w' ⟨u', hus', h, _⟩ =>
    ⟨u', hus'.trans (prefix_append u v), h, nofun⟩
  obtain ⟨rfl, hQ⟩ := hdone a rfl trivial
  exact (hf a _ hQ).onward h hid rfl

end

/-! ### Single steps -/

section

variable (id : Nat) (d : Desk)

theorem climbs_standsAt (path : String) : Climbs id d [] (fun _ => True)
    (fun there d' => there = d.files.exists? path ∧ d = d') (standsAt path) := by
  rintro w - rfl
  exact (ends_standsAt w path).leaves
    ⟨[], nil_prefix, works_refl w, fun a ha _ => by cases ha; exact ⟨rfl, rfl, rfl⟩⟩

theorem climbs_attempt {α : Type} (x : Except Fault α) : Climbs id d [] (fun _ => True)
    (fun a d' => x = .ok a ∧ d = d') (attempt x) := by
  rintro w - rfl
  rw [Leaves, ← doneIn, yields_attempt x w]
  exact ⟨[], nil_prefix, works_refl w, fun a ha _ => ⟨rfl, ha, rfl⟩⟩

theorem climbs_folder (key : String) : Climbs id d [] (fun _ => True)
    (fun path d' => d.folders.lookup key = some path ∧ d = d') (folder id key) := by
  rintro w - rfl
  refine (ends_byNumber w id).leaves_bind ?_
  split
  · rename_i path hpath
    exact leaves_pure ⟨[], nil_prefix, works_refl w, fun a ha _ => by
      cases ha
      exact ⟨rfl, hpath, rfl⟩⟩
  · exact leaves_throw (.fault (u := []) (works_refl w))

theorem climbs_files {w : World} {files : Files} {Q : Desk → Prop}
    (hQ : Q { w.desk id with files }) :
    Climbed id [] (fun _ => True) (fun (_ : Unit) => Q) w (.ok ()) { w with files } :=
  ⟨[], nil_prefix, works_of_tools rfl rfl rfl rfl, fun _ _ _ => ⟨rfl, hQ⟩⟩

theorem climbs_onFiles (change : Files → Except FileFault Files) : Climbs id d [] (fun _ => True)
    (fun _ d' => ∃ files, change d.files = .ok files ∧ d' = { d with files })
    (onFiles change) := by
  rintro w - rfl
  exact leaves_onFiles (fun files h => climbs_files id ⟨files, h, rfl⟩)
    fun _ _ => .fault (u := []) (works_refl w)

theorem climbs_makeFolders (path : String) : Climbs id d [] (fun _ => True)
    (fun _ d' => ∃ files, d.files.makeFolders path = (files, none) ∧ d' = { d with files })
    (makeFolders path) := by
  rintro w - rfl
  refine leaves_files_bind ?_
  change Leaves _ w (Climbed id [] _ (fun _ d' => ∃ files, w.files.makeFolders path = _ ∧ _) w)
  generalize w.files.makeFolders path = made
  obtain ⟨files, _ | fault⟩ := made
  · exact leaves_modify_bind (leaves_pure (climbs_files id ⟨files, rfl, rfl⟩))
  · exact leaves_modify_bind (leaves_throw (.fault (u := []) (works_of_tools rfl rfl rfl rfl)))

theorem climbs_removeIfThere (path : String) : Climbs id d [] (fun _ => True)
    (fun _ d' => d.Clears path d') (removeIfThere path) := by
  refine (climbs_standsAt id d path).bind (v := []) ?_
  rintro there _ ⟨hthere, rfl⟩
  split
  · exact (climbs_onFiles id _ _).mono fun _ _ h => .inr h
  · exact climbs_pure fun _ => ⟨rfl, .inl ⟨by simp_all, rfl⟩⟩

theorem climbs_ended {good : Outcome → Prop} {m : Job Outcome} {words : List Value}
    (h : ∀ w, Leaves m w (Job.Commanded good words w)) (hgood : ∀ o, good o → o.refusal = none) :
    Climbs id d [] (fun _ => True) (fun _ d' => good d.next ∧ d.Ran words d') m := by
  rintro w - rfl
  refine (h w).mono fun r w' hend => ?_
  obtain ⟨rfl, ⟨e, rfl⟩, -⟩ | ⟨command, files, hcommand, rfl, hended⟩ := hend
  · exact .fault (u := []) (works_refl _)
  · refine ⟨[], nil_prefix, works_of_tools rfl rfl rfl rfl, fun o ho _ => ?_⟩
    obtain ⟨rfl, ho, hleft⟩ := hended.ok o ho
    exact ⟨rfl, ho, command, files, hcommand, hgood _ ho, hleft, rfl⟩

theorem climbs_run (words : List Value) (seconds : Option Nat) : Climbs id d [] (fun _ => True)
    (fun _ d' => d.Ran words d') (Job.run words seconds) :=
  (climbs_ended id d (leaves_run words seconds) fun _ ho => ho).mono fun _ _ h => h.2

theorem climbs_runChecked (words : List Value) (seconds : Option Nat) : Climbs id d []
    (fun _ => True) (fun _ d' => d.next.code = 0 ∧ d.Ran words d')
    (runChecked words seconds) :=
  (climbs_ended id d (leaves_runChecked words seconds) fun _ ho => ho.1).mono
    fun _ _ h => h.imp_left And.right

end

/-! ### The three steps -/

/-- A package was built: the folder for packages was there, and the program ran that builds it. -/
def Built (d : Desk) (path : String) (d' : Desk) : Prop :=
  ∃ (files : Files) (output : String) (java apktool : Value) (unpacked : String),
    d.folders.lookup "output" = some output ∧ (d.files.root.Proper → files.root.Proper) ∧
    output ≠ "" ∧ path = { d with files, output }.package "unsigned_" ∧ d.next.code = 0 ∧
    { d with files, output }.Ran [java, .text "-jar", apktool, .text "b", .text unpacked,
      .text "-o", .text path] d'

theorem climbs_build (id : Nat) (d : Desk) : Climbs id d [] (fun package => package.isSome)
    (fun package d' => ∃ path, package = some path ∧ Built d path d') (build id) := by
  refine Climbs.orElse ?_ fun e u d => ?_
  · refine (climbs_folder id d _).bind ?_
    rintro unpacked _ ⟨-, rfl⟩
    refine (climbs_folder id d _).bind ?_
    rintro output _ ⟨houtput, rfl⟩ w hid rfl
    have htarget := ends_target w id
    rw [World.desk] at houtput ⊢
    rcases hpacking : (w.tool id).packing with ⟨name, old, times⟩
    rw [hpacking] at htarget houtput
    refine htarget.leaves_bind (leaves_modify_bind ?_)
    refine Climbs.onward (d := ⟨w.files, w.outside.outcomes, (w.tool id).paths, name, output⟩)
      (u := []) ?_ (works_update hid (by rw [stance, stance, hpacking]; rfl)) hid
      (by rw [World.desk, tool_modify hid]; rfl)
    refine (climbs_standsAt id _ _).bind ?_
    rintro there _ ⟨-, rfl⟩
    split
    · exact climbs_refuse (by simp) _
    refine (climbs_makeFolders id _ _).bind ?_
    rintro _ _ ⟨made, hmade, rfl⟩
    dsimp only at hmade
    refine (passes_setting id _ _).climbs fun apktool => (passes_setting id _ _).climbs fun java => ?_
    have hproper (h : w.files.root.Proper) : made.root.Proper := by
      have hroot := Files.proper_makeFolders h output
      rwa [hmade] at hroot
    have hgiven : output ≠ "" := by
      rintro rfl
      cases hmade
    split
    · exact climbs_refuse (by simp) _
    refine (climbs_standsAt id _ _).bind ?_
    rintro old _ ⟨-, rfl⟩
    split
    on_goal 1 =>
      refine (passes_say id _).climbs fun _ => (climbs_onFiles id _ _).bind ?_
      rintro _ _ ⟨files, hfiles, rfl⟩
      replace hproper (h : w.files.root.Proper) := Files.proper_removeFile (hproper h) hfiles
    all_goals
      refine (passes_say id _).climbs fun _ => (climbs_runChecked id _ _ _).bind ?_
      rintro _ d' ⟨hcode, hran⟩
      refine (climbs_standsAt id _ _).bind ?_
      rintro there _ ⟨-, rfl⟩
      split
      · exact (passes_say id _).climbs fun _ => climbs_pure fun _ => ⟨rfl, _, rfl, _, output, java,
          apktool, unpacked, houtput, hproper, hgiven, rfl, hcode, hran⟩
      · exact climbs_refuse (by simp) _
  · dsimp only
    split <;> exact climbs_refuse (by simp) _

/-- **Looking for the key** shows no progress and leaves the desk as it is. -/
theorem climbs_keyData (id : Nat) (d : Desk) :
    Climbs id d [] (fun key => key.isSome) (fun _ d' => d' = d) (keyData id) := by
  refine Climbs.orElse ?_ fun e u d => climbs_refuse (by simp) _
  rintro w₀ hid rfl
  refine (ends_byNumber w₀ id).leaves_bind ((ends_settings w₀ _).leaves_bind ?_)
  refine (passes_openFile id _).climbs (u := []) (fun settings => ?_) w₀ hid rfl
  rintro w hid hw
  refine leaves_modify_bind (Climbs.onward (d := w₀.desk id) (u := []) ?_ (works_update hid rfl) hid
    (by rw [← hw, World.desk, tool_modify hid]; rfl))
  refine (passes_setting id _ _).climbs fun path => (passes_setting id _ _).climbs fun password =>
    (passes_setting id _ _).climbs fun keyName => ?_
  split
  · exact climbs_refuse (by simp) _
  refine (passes_stands id _).climbs fun there => ?_
  split
  · exact climbs_refuse (by simp) _
  split
  · exact climbs_refuse (by simp) _
  split
  · exact climbs_refuse (by simp) _
  exact (passes_attempt id _).climbs fun _ => (passes_say id _).climbs fun _ =>
    (passes_say id _).climbs fun _ => climbs_pure fun _ => ⟨rfl, rfl⟩

/-- A package was aligned and signed. Older files were removed before, and intermediate ones
after. -/
def Signed (d : Desk) (package : String) (d' : Desk) : Prop :=
  ∃ (d₁ ready aligned signed d₂ d₃ : Desk) (aligner signer key : Value) (words : List Value),
    d.Clears (d.package "aligned_") d₁ ∧ d₁.Clears d.signed ready ∧ (ready.next.code = 0 ∧
      ready.Ran [aligner, .text "-v", .text "-p", .text "4", .text package,
        .text (d.package "aligned_")] aligned) ∧
    signCommand signer key d.signed (d.package "aligned_") = .ok words ∧
    (aligned.next.code = 0 ∧ aligned.Ran words signed) ∧ signed.Clears (d.package "aligned_") d₂ ∧
    d₂.Clears package d₃ ∧ d₃.Clears (d.signed ++ ".idsig") d'

/-- **Signing** shows its progress up to 90, as far as it comes. -/
theorem climbs_sign (id : Nat) (d : Desk) (package : String) (key : Value) :
    Climbs id d [65, 80, 90] (· = true) (fun _ d' => Signed d package d')
      (sign id (.text package) key) := by
  refine Climbs.orElse ?_ fun e u d => ?_
  · refine (passes_say id _).climbs fun _ => (passes_stands id _).climbs fun there => ?_
    split
    · exact climbs_refuse (by simp) _
    refine (passes_setting id _ _).climbs fun signer => (passes_setting id _ _).climbs fun aligner =>
      (passes_setting id _ _).climbs fun java => ?_
    split
    · exact climbs_refuse (by simp) _
    refine (passes_attempt id _).climbs fun _ => ?_
    rintro w hid rfl
    refine (ends_target w id).leaves_bind (Climbs.onward (u := []) ?_ (works_refl w) hid rfl)
    refine (climbs_removeIfThere id _ _).bind fun _ d₁ h₁ => (climbs_removeIfThere id _ _).bind
      fun _ ready h₂ => (passes_say id _).climbs fun _ => (passes_showProgress id 65).climbs fun _ => ?_
    refine (climbs_runChecked id _ _ _).bind fun _ aligned hran₁ => (passes_say id _).climbs fun _ =>
      (passes_showProgress id 80).climbs fun _ => (climbs_attempt id _ _).bind ?_
    rintro words _ ⟨hwords, rfl⟩
    refine (climbs_runChecked id _ _ _).bind fun _ signed hran₂ => (passes_say id _).climbs fun _ =>
      (passes_say id _).climbs fun _ => (passes_showProgress id 90).climbs fun _ =>
        (climbs_removeIfThere id _ _).bind fun _ d₂ h₃ => ?_
    have hdone (d₃ d' : Desk) (h₄ : d₂.Clears package d₃)
        (h₅ : d₃.Clears ((w.desk id).signed ++ ".idsig") d') : Signed (w.desk id) package d' :=
      ⟨d₁, ready, aligned, signed, d₂, d₃, aligner, signer, key, words, h₁, h₂, hran₁, hwords, hran₂,
        h₃, h₄, h₅⟩
    refine (climbs_standsAt id d₂ package).bind ?_
    rintro there _ ⟨hthere, rfl⟩
    cases there with
    | true =>
      refine (climbs_attempt id _ _).bind ?_
      rintro path _ ⟨hpath, rfl⟩
      obtain rfl : package = path := Except.ok.inj hpath
      refine (climbs_onFiles id _ _).bind ?_
      rintro _ _ ⟨files, hfiles, rfl⟩
      exact (climbs_removeIfThere id _ _).bind fun _ d' h₅ => (passes_say id _).climbs fun _ =>
        climbs_pure fun _ => ⟨rfl, hdone _ d' (.inr ⟨files, hfiles, rfl⟩) h₅⟩
    | false =>
      exact (climbs_removeIfThere id _ _).bind fun _ d' h₅ => (passes_say id _).climbs fun _ =>
        climbs_pure fun _ => ⟨rfl, hdone _ d' (.inl ⟨hthere.symm, rfl⟩) h₅⟩
  · dsimp only
    split <;> exact climbs_refuse (by simp) _

/-- A tool with everything that it needs, and what the programs will do. -/
def readyToPack (outcomes : List Outcome) : World where
  files := {
    root := .folder (.cons "c" (.file (encode ("\x7b\"last_keystore\": \"k\", " ++
        "\"last_keystore_password\": \"p\", \"last_alias\": \"a\", \"apksigner\": \"s\", " ++
        "\"zipalign\": \"z\", \"java\": \"j\"\x7d")))
      (.cons "k" (.file []) (.cons "u" (.folder .nil) .nil)))
    home := [] }
  settings := [{ file := "c", data := .object [("apktool", .text "t"), ("java", .text "j")] }]
  tools := [{
    settings := 0, part := .packApk "x" "o" {}, progress := .recorder []
    paths := [("apk_unpacked", "u"), ("output", "o")] }]
  outside := { outcomes }

end Tool.PackApk

end ApkWorkshop
