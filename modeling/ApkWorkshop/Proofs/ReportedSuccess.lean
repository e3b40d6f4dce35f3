import ApkWorkshop.Proofs.FolderWalks
import ApkWorkshop.Proofs.PackingSteps
import ApkWorkshop.Tool.Car

/-!
# Reported Success

A tool reports success once, at its end. `Finds` says what must have happened by then; every other
step is `Quiet` about it. For a signed package it is known that three programs exited with zero, for
an archive only that there is one (`evidence_of_success`). Neither says that the result is new, or
that it is there at all (`success_without_result`).
-/

namespace ApkWorkshop

open Text Tool.PackApk ApkWorkshop.Path

variable {f f' : Files}

/-! ### Files of one folder -/

theorem Files.proper_supply {path : String} {content : Option (List UInt8)} (hf : f.root.Proper)
    (h : f.supply path content = .ok f') : f'.root.Proper := by
  cases content with
  | none =>
    rw [supply, Except.ok.injEq] at h
    exact h ▸ proper_makeFolders hf path
  | some bytes =>
    refine proper_write ?_ h
    split
    exacts [hf, proper_makeFolders hf _]

theorem Job.proper_left {command : List String} {made : List (MadeAt × Option (List UInt8))}
    (hf : f.root.Proper) (h : left command made f = .ok f') : f'.root.Proper := by
  induction made generalizing f with
  | nil => exact Except.ok.inj h ▸ hf
  | cons m rest ih =>
    rw [left, List.foldlM_cons, leave] at h
    cases hpath : madePath command m.1 with
    | none =>
      rw [hpath] at h
      exact ih hf h
    | some path =>
      rw [hpath] at h
      dsimp only at h
      cases hsupply : f.supply path m.2 with
      | error fault =>
        rw [hsupply] at h
        cases h
      | ok f₁ =>
        rw [hsupply] at h
        exact ih (Files.proper_supply hf hsupply) h

/-- **A file is removed** from a folder; all other entries stay. -/
theorem Files.exists?_removeFile {dir name other : String} (hf : f.root.Proper) (hdir : dir ≠ "")
    (hname : ProperName name) (hother : ProperName other)
    (h : f.removeFile (join dir name) = .ok f') :
    f'.exists? (join dir other) = (f.exists? (join dir other) && other ≠ name) := by
  obtain ⟨place, content, hlocate⟩ : ∃ place content,
      f.locate (join dir name) = .found place (.file content) := by
    rw [removeFile] at h
    split at h
    · rename_i place content hlocate
      exact ⟨place, content, hlocate⟩
    all_goals cases h
  have hbench : Bench f dir f.standing f :=
    ⟨rfl, hf, isFolder_of_locate_join hdir hname.plainName hlocate, rfl⟩
  have hfree : f.standing (f.slot dir name) ≠ some none := by
    rw [Ne, ← hbench.isFolder_entry hname, isFolder, hlocate]
    simp
  have hbench' := hbench.of_standing (home_removeFile h) (proper_removeFile hf h)
    (standing_removeFile hf h) (by rw [hbench.wayTo_entry hname]; exact Bench.folders_update hfree _)
  rw [hbench'.exists?_entry hother, hbench.exists?_entry hother, hbench.wayTo_entry hname]
  by_cases hne : other = name
  · simp [hne]
  · rw [Function.update_of_ne (mt slot_inj.mp hne)]
    simp [hne]

namespace Desk

section

variable {d d' : Desk} {words : List Value} {path : String}

theorem Ran.exists_files (h : d.Ran words d') :
    ∃ files, d' = { d with files, outcomes := d.outcomes.tail } := by
  obtain ⟨-, files, -, -, -, hd'⟩ := h
  exact ⟨files, hd'⟩

theorem Ran.proper (h : d.Ran words d') (hd : d.files.root.Proper) : d'.files.root.Proper := by
  obtain ⟨command, files, -, -, hleft, rfl⟩ := h
  exact Job.proper_left hd hleft

theorem Clears.exists_files (h : d.Clears path d') : ∃ files, d' = { d with files } := by
  obtain ⟨-, rfl⟩ | ⟨files, -, rfl⟩ := h
  exacts [⟨_, rfl⟩, ⟨files, rfl⟩]

theorem Clears.proper (h : d.Clears path d') (hd : d.files.root.Proper) : d'.files.root.Proper := by
  obtain ⟨-, rfl⟩ | ⟨files, hremove, rfl⟩ := h
  exacts [hd, Files.proper_removeFile hd hremove]

end

theorem Clears.exists? {d d' : Desk} {dir name other : String} (h : d.Clears (join dir name) d')
    (hd : d.files.root.Proper) (hdir : dir ≠ "") (hname : ProperName name)
    (hother : ProperName other) : d'.files.exists? (join dir other) =
      (d.files.exists? (join dir other) && other ≠ name) := by
  obtain ⟨hfree, rfl⟩ | ⟨files, hremove, rfl⟩ := h
  · by_cases hne : other = name
    · simp [hne, hfree]
    · simp [hne]
  · exact Files.exists?_removeFile hd hdir hname hother hremove

end Desk

/-! ### Jobs that may report -/

/-- What a tool reports and works on is as before. -/
structure Quiet (id : Nat) (w w' : World) : Prop where
  count : w'.tools.length = w.tools.length
  report : (w'.tool id).report = (w.tool id).report
  desk : w'.desk id = w.desk id

def Found (id : Nat) (text : String) (R : Desk → Prop) (w : World) : Prop :=
  id < w.tools.length ∧ ((w.tool id).report = text → R (w.desk id))

/-- A job that begins at the desk `d`, with nothing reported yet. -/
def Finds {α : Type} (id : Nat) (text : String) (R : Desk → Prop) (d : Desk) (m : Job α) : Prop :=
  ∀ w, id < w.tools.length → (w.tool id).report ≠ text → w.desk id = d →
    Leaves m w fun _ w' => Found id text R w'

section

variable {α β : Type} {id : Nat} {text : String} {R : Desk → Prop} {d : Desk} {m : Job α}
  {f : α → Job β} {w w' w'' : World} {vs : List Int}

theorem Quiet.refl (w : World) : Quiet id w w := ⟨rfl, rfl, rfl⟩

theorem Quiet.trans (w w' w'' : World) (h : Quiet id w w') (h' : Quiet id w' w'') :
    Quiet id w w'' :=
  ⟨h'.count.trans h.count, h'.report.trans h.report, h'.desk.trans h.desk⟩

theorem quiet_of_passes (h : Passes id vs m) : Within (Quiet id) m := fun w =>
  (h w).mono fun _ _ ⟨hworks, hdesk⟩ => ⟨hworks.count, congrArg Stance.report hworks.stance, hdesk⟩

theorem quiet_clock : Within (Quiet id) Job.clock := fun w => by
  refine leaves_get_bind ?_
  split
  · exact leaves_get_bind (leaves_pure (.refl w))
  · exact leaves_modify_bind (leaves_pure ⟨rfl, rfl, rfl⟩)

theorem quiet_ask (title message : String) : Within (Quiet id) (Job.ask title message) := fun w =>
  (Job.leaves_ask title message w).mono fun _ w' h => by
    rw [h.2]
    exact ⟨rfl, rfl, rfl⟩

theorem Found.quiet (h : Found id text R w) (hq : Quiet id w w') : Found id text R w' :=
  ⟨hq.count ▸ h.1, hq.desk ▸ hq.report ▸ h.2⟩

theorem found_of_ne (hid : id < w.tools.length) (h : (w.tool id).report ≠ text) :
    Found id text R w := ⟨hid, fun htext => absurd htext h⟩

theorem finds_quiet (h : Within (Quiet id) m) : Finds id text R d m := fun w hid hreport _ =>
  (h w).mono fun _ _ hq => (found_of_ne hid hreport).quiet hq

theorem Finds.after (h : Within (Quiet id) m) (hf : ∀ a, Finds id text R d (f a)) :
    Finds id text R d (m >>= f) := fun w hid hreport hw =>
  (h w).bind (fun a w' hq => hf a w' (hq.count ▸ hid) (hq.report ▸ hreport) (hq.desk.trans hw))
    fun _ _ hq => (found_of_ne hid hreport).quiet hq

theorem Finds.orElse {handle : Fault → Job α} (hm : Finds id text R d m)
    (hhandle : ∀ e w, Found id text R w → Leaves (handle e) w fun _ w' => Found id text R w') :
    Finds id text R d (m.orElse handle) := fun w hid hreport hw =>
  Job.leaves_orElse (hm w hid hreport hw) (fun _ _ h => h) hhandle

theorem leaves_conclude {s : String} {next : Unit → Job β} (hid : id < w.tools.length)
    (hR : s = text → R (w.desk id)) (h : Within (Quiet id) (next ())) :
    Leaves (Tool.conclude id s >>= next) w fun _ w' => Found id text R w' := by
  refine leaves_modify_bind ((h _).mono fun _ w' => Found.quiet ⟨?_, ?_⟩)
  · simpa using hid
  · rw [World.desk, World.tool_modify hid]
    exact hR

theorem finds_climbs {done : α → Prop} {Q : α → Desk → Prop} (h : Climbs id d vs done Q m)
    (hf : ∀ a d', (done a → Q a d') → Finds id text R d' (f a)) : Finds id text R d (m >>= f) := by
  intro w hid hreport hw
  refine (h w hid hw).bind (fun a w' ⟨us, _, hworks, hdone⟩ => ?_) fun _ w' ⟨us, _, hworks, _⟩ => ?_
  all_goals
    have hid' : id < w'.tools.length := hworks.count ▸ hid
    have hreport' : (w'.tool id).report ≠ text := by
      rwa [show (w'.tool id).report = _ from congrArg Stance.report hworks.stance]
  · exact hf a _ (fun ha => (hdone a rfl ha).2) w' hid' hreport' rfl
  · exact found_of_ne hid' hreport'

end

/-! ### Packing -/

namespace Tool.PackApk

section

variable {id : Nat} {text : String} {R : Desk → Prop} {d : Desk}

theorem finds_timed {α β : Type} {vs : List Int} {done : α → Prop} {Q : α → Desk → Prop}
    {job : Job α} {f : α × Double → Job β} (h : Climbs id d vs done Q job)
    (hf : ∀ a span d', (done a → Q a d') → Finds id text R d' (f (a, span))) :
    Finds id text R d (timed job >>= f) := by
  rw [timed, bind_assoc]
  refine .after quiet_clock fun start => ?_
  rw [bind_assoc]
  refine finds_climbs h fun a d' ha => ?_
  rw [bind_assoc]
  refine .after quiet_clock fun now => ?_
  exact hf a _ d' ha

theorem quiet_remember (f : PackTimes → PackTimes) : Within (Quiet id) (remember id f) := by
  refine fun w => (ends_target w id).leaves_bind (leaves_modify ?_)
  by_cases hid : id < w.tools.length
  · refine ⟨List.length_modify _ _ _, ?_, ?_⟩
    · rw [World.tool_modify hid]
    · rw [World.desk, World.tool_modify hid]
      rfl
  · rw [List.modify_eq_self (by omega)]
    exact .refl w

theorem quiet_showTimes : Within (Quiet id) (showTimes id) := by
  have hsay (what : String) (seconds : Double) :
      Within (Quiet id) (showTimes.sayTime id what seconds) :=
    (quiet_of_passes (passes_attempt id _)).bind Quiet.trans fun _ =>
      quiet_of_passes (passes_say id _)
  refine quiet_clock.bind Quiet.trans fun now w => (ends_target w id).leaves_bind ?_
  dsimp only
  split
  · exact leaves_throw (.refl w)
  · exact ((quiet_of_passes (passes_say id _)).bind Quiet.trans fun _ => (hsay _ _).bind Quiet.trans
      fun _ => (hsay _ _).bind Quiet.trans fun _ => (hsay _ _).bind Quiet.trans fun _ => hsay _ _) w

theorem finds_attempted : Finds id "APK packaged and signed successfully"
    (fun d' => ∃ package d₁, Built d package d₁ ∧ Signed d₁ package d') d
    (packAndSign.attempted id) := by
  have hshow (v : Int) : Within (Quiet id) (showProgress id v) :=
    quiet_of_passes (passes_showProgress id v)
  have hsay (line : String) : Within (Quiet id) (say id line) := quiet_of_passes (passes_say id line)
  refine .after (hsay _) fun _ => .after (hshow 10) fun _ => ?_
  refine finds_timed (climbs_build id d) fun package span d₁ hbuilt => ?_
  refine .after (quiet_remember _) fun _ => ?_
  cases package with
  | none => exact finds_quiet (hshow 0)
  | some package =>
  obtain ⟨_, hpath, hbuilt⟩ := hbuilt rfl
  cases hpath
  refine .after (hshow 50) fun _ => finds_timed (climbs_keyData id d₁) fun key span d₂ hkey => ?_
  refine .after (quiet_remember _) fun _ => ?_
  cases key with
  | none => exact finds_quiet (hshow 0)
  | some key =>
  obtain rfl := hkey rfl
  refine .after (hshow 60) fun _ => finds_timed (climbs_sign id d₂ package key)
    fun success span d' hsigned => ?_
  refine .after (quiet_remember _) fun _ => ?_
  cases success with
  | false => exact .after (hshow 0) fun _ => finds_quiet (hsay _)
  | true =>
    refine .after (hshow 100) fun _ => .after quiet_showTimes fun _ w hid _ hw => ?_
    exact leaves_conclude hid (fun _ => hw ▸ ⟨package, d₂, hbuilt, hsigned rfl⟩) (hsay _)

theorem finds_packAndSign : Finds id "APK packaged and signed successfully"
    (fun d' => ∃ package d₁, Built d package d₁ ∧ Signed d₁ package d') d (packAndSign id) := by
  refine .after quiet_clock fun start => .after (quiet_remember _) fun _ => ?_
  refine Finds.orElse finds_attempted fun e w h => ?_
  have hhandle := (quiet_of_passes (passes_say id ("❌ Packaging error: " ++ e.message))).bind
    Quiet.trans fun _ => quiet_of_passes (passes_showProgress id 0)
  exact (hhandle w).mono fun _ _ hq => h.quiet hq

/-- Three programs ran and exited with zero. Before the last two there was no signed package, and
there is one in the end if they have left one. -/
def Packed (d d' : Desk) : Prop :=
  ∃ (begun built ready aligned signed : Desk) (java apktool aligner signer key : Value)
    (unpacked : String) (words : List Value),
    d.folders.lookup "output" = some d'.output ∧ begun.outcomes = d.outcomes ∧
    begun.next.code = 0 ∧ begun.Ran [java, .text "-jar", apktool,
      .text "b", .text unpacked, .text "-o", .text (d'.package "unsigned_")] built ∧
    ready.outcomes = built.outcomes ∧ ready.files.exists? d'.signed = false ∧
    ready.next.code = 0 ∧ ready.Ran [aligner, .text "-v", .text "-p", .text "4",
      .text (d'.package "unsigned_"), .text (d'.package "aligned_")] aligned ∧
    signCommand signer key d'.signed (d'.package "aligned_") = .ok words ∧
    aligned.next.code = 0 ∧ aligned.Ran words signed ∧
    d'.outcomes = signed.outcomes ∧ d'.files.exists? d'.signed = signed.files.exists? d'.signed

theorem packed_of_signed {package : String} {d₁ d' : Desk} (hbuilt : Built d package d₁)
    (hsigned : Signed d₁ package d') (hd : d.files.root.Proper) (hslash : '/' ∉ d.name.toList)
    (hzero : d.name.toList.contains (Char.ofNat 0) = false) : Packed d d' := by
  have hproper (mark : String) (hmark : '/' ∉ mark.toList ∧
      mark.toList.contains (Char.ofNat 0) = false) : ProperName (mark ++ d.name ++ ".apk") := by
    refine properName_append ?_ ?_ (by decide) (by decide)
    · simp [hmark.1, hslash]
    · rw [String.toList_append, List.contains_append, hmark.2, hzero]
      rfl
  have hsignedName : ProperName (d.name ++ ".apk") :=
    properName_append hslash hzero (by decide) (by decide)
  obtain ⟨files, output, java, apktool, unpacked, hfolder, hfiles, houtput, rfl, hcode, hran⟩ := hbuilt
  obtain ⟨d₂, ready, aligned, signed, d₃, d₄, aligner, signer, key, words, h₁, h₂, ⟨hcode₁, hran₁⟩,
    hwords, ⟨hcode₂, hran₂⟩, h₃, h₄, h₅⟩ := hsigned
  -- the name of the package and its folder are the same at each desk
  obtain ⟨f₁, rfl⟩ := hran.exists_files
  obtain ⟨f₂, rfl⟩ := h₁.exists_files
  obtain ⟨f₃, rfl⟩ := h₂.exists_files
  obtain ⟨f₄, rfl⟩ := hran₁.exists_files
  obtain ⟨f₅, rfl⟩ := hran₂.exists_files
  obtain ⟨f₆, rfl⟩ := h₃.exists_files
  obtain ⟨f₇, rfl⟩ := h₄.exists_files
  obtain ⟨f₈, rfl⟩ := h₅.exists_files
  have hroot₁ := h₁.proper (hran.proper (hfiles hd))
  have hroot₂ := hran₂.proper (hran₁.proper (h₂.proper hroot₁))
  have hne (mark : String) (hmark : 0 < mark.length) :
      d.name ++ ".apk" ≠ mark ++ d.name ++ ".apk" := fun h => by
    have hlength := congrArg String.length h
    simp only [String.length_append] at hlength
    omega
  have hidsig : ProperName (d.name ++ ".apk" ++ ".idsig") :=
    properName_append hsignedName.no_slash hsignedName.no_zero (by decide) (by decide)
  have hne₅ : d.name ++ ".apk" ≠ d.name ++ ".apk" ++ ".idsig" := fun h => by
    have hlength := congrArg String.length h
    simp [String.length_append] at hlength
  have hpath := join_append output hsignedName.plainName ".idsig"
  refine ⟨{ d with files, output }, _, _, _, _, java, apktool, aligner, signer, key, unpacked, words,
    hfolder, rfl, hcode, hran, ?_, ?_, hcode₁, hran₁, hwords, hcode₂, hran₂, ?_, ?_⟩
  · rfl
  · exact (h₂.exists? hroot₁ houtput hsignedName hsignedName).trans (by simp)
  · rfl
  · have h₅' := h₅
    change Desk.Clears _ (join output (d.name ++ ".apk") ++ ".idsig") _ at h₅'
    rw [← hpath] at h₅'
    have e₅ := h₅'.exists? (h₄.proper (h₃.proper hroot₂)) houtput hidsig hsignedName
    have e₄ := h₄.exists? (h₃.proper hroot₂) houtput (hproper "unsigned_" (by decide)) hsignedName
    have e₃ := h₃.exists? hroot₂ houtput (hproper "aligned_" (by decide)) hsignedName
    rw [decide_eq_true hne₅, Bool.and_true] at e₅
    rw [decide_eq_true (hne "unsigned_" (by decide)), Bool.and_true] at e₄
    rw [decide_eq_true (hne "aligned_" (by decide)), Bool.and_true] at e₃
    exact e₅.trans (e₄.trans e₃)

end

end Tool.PackApk

/-! ### Archives -/

namespace Tool.Car

/-- The packer ran to its end, with whatever code, and there is an archive. -/
def Archived (d d' : Desk) : Prop :=
  ∃ (begun : Desk) (script : Value) (source unpacked : String),
    d.folders.lookup "apk_unpacked" = some unpacked ∧ begun.outcomes = d.outcomes ∧
    begun.Ran [.text "python", script, .text "-p", .text source, .text (archivePath unpacked)] d' ∧
    d'.files.exists? (archivePath unpacked) = true

theorem finds_pack {id : Nat} {d : Desk} :
    Finds id "CAR packaging completed successfully" (Archived d) d (pack id) := by
  have hsay (line : String) : Within (Quiet id) (say id line) := quiet_of_passes (passes_say id line)
  refine .after (quiet_ask _ _) fun wanted => ?_
  split
  · exact .after (hsay _) fun _ => finds_quiet (within_pure Quiet.refl _)
  refine .after (quiet_of_passes (passes_setting id _ _)) fun script => ?_
  refine finds_climbs (climbs_folder id d _) fun lu d' hd' => ?_
  obtain ⟨-, rfl⟩ := hd' trivial
  refine finds_climbs (climbs_folder id d _) fun unpacked d' hd' => ?_
  obtain ⟨hunpacked, rfl⟩ := hd' trivial
  refine finds_climbs (climbs_standsAt id d _) fun there d' hd' => ?_
  obtain ⟨-, rfl⟩ := hd' trivial
  split
  · exact fun w hid _ _ => leaves_conclude hid (by simp)
      ((hsay _).bind Quiet.trans fun _ => within_pure Quiet.refl _)
  refine .after (hsay _) fun _ => .after (hsay _) fun _ => Finds.orElse ?_ fun e w h => ?_
  · refine finds_climbs (climbs_folder id d _) fun output d' hd' => ?_
    obtain ⟨-, rfl⟩ := hd' trivial
    refine finds_climbs (climbs_makeFolders id d _) fun _ d' hd' => ?_
    obtain ⟨files, -, rfl⟩ := hd' trivial
    refine .after (hsay _) fun _ => finds_climbs (climbs_run id _ _ _) fun _ d' hran => ?_
    refine finds_climbs (climbs_standsAt id d' _) fun there _ hd' => ?_
    obtain ⟨hthere, rfl⟩ := hd' trivial
    split
    · exact fun w hid _ hw => leaves_conclude hid (fun _ => hw ▸ ⟨{ d with files }, script, _,
        unpacked, hunpacked, rfl, hran trivial, by simp_all⟩) (hsay _)
    · exact fun w hid _ _ => leaves_conclude hid (by simp) (hsay _)
  · refine leaves_conclude h.1 (fun heq => ?_) (hsay _)
    have hfirst := congrArg (fun s : String => s.toList.head?) heq
    simp at hfirst

end Tool.Car

/-! ### What a report of success shows -/

namespace Tool

/-- **Evidence of success.** A tool that comes to report an archive has run the packer to its end,
and there is an archive. One that comes to report a signed package has run three programs that exited
with zero, and the package is there if the last two have left it: none was there before. -/
theorem evidence_of_success {w : World} {id : Nat} (hid : id < w.tools.length) :
    ((w.tool id).report ≠ "CAR packaging completed successfully" →
      Leaves (Car.pack id) w fun _ w' =>
        (w'.tool id).report = "CAR packaging completed successfully" →
          Car.Archived (w.desk id) (w'.desk id)) ∧
    ((w.tool id).report ≠ "APK packaged and signed successfully" → w.files.root.Proper →
      '/' ∉ (w.desk id).name.toList → (w.desk id).name.toList.contains (Char.ofNat 0) = false →
      Leaves (packAndSign id) w fun _ w' =>
        (w'.tool id).report = "APK packaged and signed successfully" →
          PackApk.Packed (w.desk id) (w'.desk id)) := by
  refine ⟨fun hreport => ?_, fun hreport hproper hslash hzero => ?_⟩
  · exact (Car.finds_pack w hid hreport rfl).mono fun _ _ h => h.2
  · refine (finds_packAndSign w hid hreport rfl).mono fun _ w' h htext => ?_
    obtain ⟨package, d₁, hbuilt, hsigned⟩ := h.2 htext
    exact packed_of_signed hbuilt hsigned hproper hslash hzero

/-- A tool whose archive is left from an earlier run, and a packer that will fail. -/
def staleArchive : World where
  files := {
    root := .folder (.cons "l" (.folder .nil) (.cons "u" (.folder (.cons "assets"
      (.folder (.cons "resource.car" (.file []) .nil)) .nil)) .nil))
    home := [] }
  settings := [{ file := "c", data := .object [("corona-archiver", .text "s")] }]
  tools := [{
    settings := 0, part := .packCar
    paths := [("lu", "l"), ("apk_unpacked", "u"), ("output", "o")] }]
  outside := { outcomes := [{ code := 1 }], answers := [true] }

/-- Both reports of success, with what they are evidence of. -/
theorem evidence_of_success_readyToPack :
    let w := readyToPack [{ made := [(.word 6, some [])] }]
    let w' := ((packAndSign 0).doneIn w).2
    (w.files.root.Proper ∧ (w.desk 0).name = "x") ∧
      (w'.tool 0).report = "APK packaged and signed successfully" ∧
      PackApk.Packed (w.desk 0) (w'.desk 0) ∧
      Car.Archived (staleArchive.desk 0) (((Car.pack 0).doneIn staleArchive).2.desk 0) := by
  have hproper : (readyToPack [{ made := [(.word 6, some [])] }]).files.root.Proper :=
    Node.proper_of_isProper (by decide +kernel)
  refine ⟨⟨hproper, rfl⟩, by decide +kernel, ?_, ?_⟩
  · exact (evidence_of_success (by decide)).2 (by decide) hproper (by decide) (by decide)
      (by decide +kernel)
  · exact (evidence_of_success (w := staleArchive) (by decide)).1 (by decide) (by decide +kernel)

/-- Success is reported for an archive that was there before, though the packer failed and left
nothing, and for a signed package that is not there. -/
theorem success_without_result :
    ((((Car.pack 0).doneIn staleArchive).2.tool 0).report = "CAR packaging completed successfully" ∧
      staleArchive.outside.outcomes = [{ code := 1, made := [] }] ∧
      staleArchive.files.exists? (Car.archivePath "u") = true) ∧
    ∃ w', ((packAndSign 0).doneIn (readyToPack [{ made := [(.word 6, some [])] }])).2 = w' ∧
      (w'.tool 0).report = "APK packaged and signed successfully" ∧
      w'.files.exists? (w'.desk 0).signed = false :=
  ⟨⟨by decide +kernel, rfl, by decide +kernel⟩, _, rfl, by decide +kernel, by decide +kernel⟩

end Tool

end ApkWorkshop
