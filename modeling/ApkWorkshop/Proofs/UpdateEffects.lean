import ApkWorkshop.Proofs.FileArrivals

/-!
# What an Update Can Change

An update can stop at every file of its list, and the settings it writes to can hold anything. This
module bounds what is different afterwards, however it ends.
-/

namespace ApkWorkshop.Update

open List Function ApkWorkshop.Path Files Settings Job

variable {remote : String → Except String (List UInt8)} {items all : List Value} {f f' : Files}
  {path : String} {w : World} {version v : Value} {room : List String}

/-! ### The room is made and removed -/

/-- Files in which an update does no harm: the room is a new folder in one that is there, no path of
the update leads into it, and each listed path leads down from the working folder, to no folder. -/
structure Harmless (f : Files) (room : List String) (items : List Value) : Prop where
  proper : f.root.Proper
  home : f.standing f.home = some none
  isRoom : IsRoom room
  above : f.standing room.dropLast = some none
  vacant : f.standing room = none
  modest : ∀ path, .text path ∈ items → Modest f path
  outside : ∀ path, path = "config.json" ∨ .text path ∈ items → ¬ room <+: f.wayTo path

theorem isFolder_root (h : f.standing [] = some none) : f.isFolder "/" = true := by
  obtain ⟨entries, hroot⟩ := standing_folder_iff.mp h
  have hparts : parts "/" = ["", ""] := by decide
  have horigin : f.origin "/" = [] := rfl
  rw [isFolder, locate_of_follow (by decide) (by decide), horigin, hparts, follow_cons hroot,
    if_pos (.inl rfl), follow_cons hroot, if_pos (.inl rfl), follow, hroot]

section

variable (h : Harmless f room items)

include h

theorem Harmless.standing_above {above : List String} (habove : above <+: room)
    (hne : above ≠ room) : f.standing above = some none := by
  refine Files.standing_above h.above ?_
  rw [← dropLast_append_getLast h.isRoom.ne_nil] at habove
  refine ( prefix_concat_iff.mp habove).resolve_left fun heq => hne ?_
  rwa [dropLast_append_getLast] at heq

theorem Harmless.exists_makeFolders :
    ∃ f', f.makeFolders (temporaryFolder room) = (f', none) ∧ Files.Deepens [] room f f' ∧
      f'.isFolder (temporaryFolder room) = true := by
  have hwayTo : f.wayTo "/" = [] := rfl
  have hroot : f.standing [] = some none :=
    h.standing_above nil_prefix (Ne.symm h.isRoom.ne_nil)
  have hfree : ∀ above, above <+: room → ∀ content,
      f.standing (f.wayTo "/" ++ above) ≠ some (some content) := by
    intro above habove content
    rw [hwayTo, nil_append]
    by_cases heq : above = room
    · rw [heq, h.vacant]
      simp
    · rw [h.standing_above habove heq]
      simp
  have hmade := Files.exists_makeFolders (isFolder_root hroot) (by decide) h.isRoom.proper hfree
  rwa [hwayTo] at hmade

theorem Harmless.arrives_made (hdeepens : Files.Deepens [] room f f') :
    Arrives room remote items f f' :=
  .of_deepens hdeepens (prefix_refl room) (prefix_refl room) fun _ => h.standing_above

theorem Harmless.fetching_made (hdeepens : Files.Deepens [] room f f')
    (hfolder : f'.isFolder (temporaryFolder room) = true) : Fetching room items f' := by
  have hout := fun path hpath => h.outside path (.inr hpath)
  have hmade : Arrives room (fun _ => .error "") items f f' := h.arrives_made hdeepens
  refine ⟨hmade.proper h.proper, hfolder, fun path hpath =>
    hmade.modest (h.modest path hpath) (hout path hpath), fun path hpath => ?_⟩
  rw [wayTo_congr hdeepens.home]
  exact hout path hpath

end

section

variable (hroom : IsRoom room)

include hroom

theorem standing_cleared (f : Files) {place : List String} (hplace : ¬ room <+: place) :
    ((f.removeTree (temporaryFolder room)).toOption.getD f).standing place = f.standing place := by
  cases hremove : f.removeTree (temporaryFolder room) with
  | error fault => rfl
  | ok f' => exact standing_removeTree hremove (by rwa [wayTo_temporaryFolder hroom])

theorem standing_room_cleared (hf : f.root.Proper)
    (hfolder : f.isFolder (temporaryFolder room) = true) (rest : List String) :
    ((f.removeTree (temporaryFolder room)).toOption.getD f).standing (room ++ rest) = none := by
  obtain ⟨place, entries, hlocate⟩ := exists_locate_of_isFolder hfolder
  have hplace := (wayTo_of_locate hlocate).symm.trans (wayTo_temporaryFolder hroom f)
  have hremove : f.removeTree (temporaryFolder room) =
      .ok { f with root := f.root.remove room } := by
    rw [Files.removeTree, hlocate, hplace]
  rw [hremove]
  change ((f.root.remove room).get? (room ++ rest)).map Node.content? = none
  rw [Node.get?_remove_append hf hroom.ne_nil]
  rfl

end

theorem home_cleared (f : Files) (room : List String) :
    ((f.removeTree (temporaryFolder room)).toOption.getD f).home = f.home := by
  cases hremove : f.removeTree (temporaryFolder room) with
  | error fault => rfl
  | ok f' => exact (spares_removeTree hremove).home

/-! ### The version is entered -/

/-- The settings are as they were, or they are an object that is written with a new version. -/
def Entered (version : Value) (f f' : Files) : Prop :=
  f' = f ∨ ∃ members, Settings.load f "config.json" = .ok (.object members) ∧ f.write "config.json"
      (Text.encode ((Value.object (setMember "version" version members)).document 2)) = .ok f'

namespace Entered

theorem keeps (h : Entered version f f') :
    f'.home = f.home ∧ ∀ place, place ≠ f.wayTo "config.json" →
      f'.standing place = f.standing place := by
  rcases h with rfl | ⟨members, -, hwrite⟩
  · exact ⟨rfl, fun _ _ => rfl⟩
  · refine ⟨home_write hwrite, fun place hplace => ?_⟩
    have hstanding := congrFun (standing_write hwrite) place
    rwa [update_of_ne hplace] at hstanding

theorem folders (h : Entered version f f') {place : List String}
    (hplace : f.standing place = some none) : f'.standing place = some none := by
  rcases h with rfl | ⟨members, -, hwrite⟩
  · exact hplace
  · exact folder_write hwrite hplace

theorem proper (h : Entered version f f') (hf : f.root.Proper) : f'.root.Proper := by
  rcases h with rfl | ⟨members, -, hwrite⟩
  · exact hf
  · exact proper_write hf hwrite

/-- The settings that are loaded once the version is entered. -/
theorem load (h : Entered version f f') (hversion : version.Storable) :
    f' = f ∨ ∃ members, Settings.load f "config.json" = .ok (.object members) ∧
      Settings.load f' "config.json" = .ok (.object (setMember "version" version members)) := by
  refine h.imp_right fun ⟨members, hload, hwrite⟩ => ⟨members, hload, ?_⟩
  exact load_of_read ((storable_of_load hload).setMember "version" hversion) (read_write hwrite)

end Entered

theorem leaves_enterVersion (version : Value) (w : World) : Leaves (enterVersion version) w
    fun r w' => r = .ok () ∧ Entered version w.files w'.files := by
  have hentered : Leaves (enterVersion.entered version) w fun _ w' =>
      Entered version w.files w'.files := by
    refine leaves_files_bind (leaves_attempt_bind (fun data hload => ?_) fun e _ => .inl rfl)
    refine leaves_attempt_bind (fun new hnew => ?_) fun e _ => .inl rfl
    refine leaves_onFiles_bind (fun files hwrite => ?_) fun fault _ => .inl rfl
    cases data with
    | object members =>
      cases hnew
      exact leaves_modify (.inr ⟨members, hload, hwrite⟩)
    | _ => cases hnew
  exact leaves_orElse hentered (fun _ w' hend => ⟨rfl, hend⟩)
    fun fault w' hend => leaves_modify ⟨rfl, hend⟩

/-! ### Installing -/

/-- What an installation leaves behind: files were fetched, the version was entered unless the work
stopped before, and the room was removed. -/
structure Installed (room : List String) (remote : String → Except String (List UInt8))
    (items : List Value) (version : Value) (f fetched entered : Files) (r : Except Fault Unit)
    (f' : Files) : Prop where
  arrives : Arrives room remote items f fetched
  fetching : Fetching room items fetched
  enters : Entered version fetched entered
  stopped : r ≠ .ok () → entered = fetched
  files : f' = (entered.removeTree (temporaryFolder room)).toOption.getD entered

/-- **An installation** fetches files, enters the version, and removes the room. What is known of
the files that were fetched is known in the end. -/
theorem leaves_install {Q : Except Fault Unit → Files → Prop}
    (h : Harmless w.files w.outside.temporary items) (version : Value)
    (hQ : ∀ made, Files.Deepens [] w.outside.temporary w.files made →
      Fetching w.outside.temporary items made →
      Leaves (items.forM (updateFile (temporaryFolder w.outside.temporary))) { w with files := made }
        fun r w' => Q r w'.files) :
    Leaves (install items version) w fun r w' => ∃ fetched entered, Q r fetched ∧
      Installed w.outside.temporary w.outside.remote items version w.files fetched entered r
        w'.files := by
  obtain ⟨made, hmake, hdeepens, hfolder⟩ := h.exists_makeFolders
  have hmade : Arrives w.outside.temporary w.outside.remote items w.files made :=
    h.arrives_made hdeepens
  have hfetching := h.fetching_made hdeepens hfolder
  have hall := (hQ made hdeepens hfetching).and
    (leaves_arrivals (w := { w with files := made }) h.isRoom hfetching (Subset.refl _))
  refine leaves_get_bind ((ends_makeFolders hmake).leaves_bind (Leaves.tryFinally_modify ?_))
  refine hall.bind (fun _ w' hend => ?_) fun e w' hend => ?_
  · obtain ⟨hfetched, -, harrives⟩ := hend
    refine (leaves_enterVersion version w').bind (fun _ w'' hentered => ?_) fun e w'' hentered => ?_
    · exact leaves_modify ⟨w'.files, w''.files, hfetched, hmade.trans harrives,
        harrives.fetching hfetching, hentered.2, fun hr => absurd rfl hr, rfl⟩
    · cases hentered.1
  · obtain ⟨hfetched, -, harrives⟩ := hend
    exact ⟨w'.files, w'.files, hfetched, hmade.trans harrives, harrives.fetching hfetching, .inl rfl,
      fun _ => rfl, rfl⟩

/-! ### The settings -/

theorem wayTo_settings (f : Files) : f.wayTo "config.json" = f.home ++ ["config.json"] := by
  rfl

/-- **The settings** depend on what stands at their place. -/
theorem load_settings_congr (hhome : f'.home = f.home) (hfolder : f.standing f.home = some none)
    (hfolder' : f'.standing f.home = some none)
    (h : f'.standing (f.wayTo "config.json") = f.standing (f.wayTo "config.json")) :
    Settings.load f' "config.json" = Settings.load f "config.json" := by
  have hname : ProperName "config.json" := by decide
  have hlocate := locate_name hfolder hname
  have hlocate' := locate_name (f := f') (by rw [hhome, hfolder']) hname
  rw [hhome] at hlocate'
  rw [wayTo_settings, standing, standing] at h
  rw [Settings.load, Settings.load, Files.exists?, Files.exists?, Files.read, Files.read, hlocate,
    hlocate']
  cases hnode : f.root.get? (f.home ++ ["config.json"]) with
  | none =>
    rw [hnode, Option.map_none, Option.map_eq_none_iff] at h
    rw [h]
  | some node =>
    rw [hnode] at h
    obtain ⟨node', hnode', hcontent⟩ := Option.map_eq_some_iff.mp h
    cases node <;> cases node' <;> simp_all [Node.content?]

theorem load_cleared (hroom : IsRoom room) (hfolder : f.standing f.home = some none)
    (hhome : ¬ room <+: f.home) (hsettings : ¬ room <+: f.wayTo "config.json") :
    Settings.load ((f.removeTree (temporaryFolder room)).toOption.getD f) "config.json" =
      Settings.load f "config.json" := by
  refine load_settings_congr (home_cleared f room) hfolder ?_ (standing_cleared hroom f hsettings)
  rw [standing_cleared hroom f hhome, hfolder]

section

variable (h : Harmless f room items)

include h

theorem Harmless.not_room_home : ¬ room <+: f.home := by
  rintro ⟨rest, hrest⟩
  have hnone := standing_append_of_none h.vacant rest
  rw [hrest, h.home] at hnone
  cases hnone

variable (hunlisted : ∀ path, .text path ∈ items → f.wayTo path ≠ f.wayTo "config.json")
  (harrives : Arrives room remote items f f')

include hunlisted harrives

theorem Harmless.standing_settings :
    f'.standing (f.wayTo "config.json") = f.standing (f.wayTo "config.json") := by
  have hout := h.outside "config.json" (.inl rfl)
  have hfolder : f'.standing (f.wayTo "config.json") = some none ↔
      f.standing (f.wayTo "config.json") = some none :=
    ⟨harrives.fresh _ hout, harrives.folders _⟩
  have hcontent := (harrives.content _ hout).resolve_right fun ⟨path, bytes, hpath, hway, _⟩ =>
    hunlisted path hpath hway
  rw [contentAt_eq_standing, contentAt_eq_standing] at hcontent
  rcases hnew : f'.standing (f.wayTo "config.json") with _ | _ | new <;>
    rcases hold : f.standing (f.wayTo "config.json") with _ | _ | old <;> simp_all

theorem Harmless.load_settings :
    Settings.load f' "config.json" = Settings.load f "config.json" :=
  load_settings_congr harrives.home h.home (harrives.folders _ h.home)
    (h.standing_settings hunlisted harrives)

end

/-! ### What is different afterwards -/

/-- The document that announces the newest version, if it can be read. -/
def announcement (remote : String → Except String (List UInt8)) : Option Value :=
  (remote (address ++ "latest.json")).toOption.bind fun bytes => (documentOf bytes).toOption

/-- The announced files; none if there is no announcement with a list of them. -/
def listed (remote : String → Except String (List UInt8)) : List Value :=
  ((announcement remote).bind fun info =>
    (info.lookup "updated_files" (.list [])).toOption.bind (·.items?)).getD []

/-- The version that is announced; without one, that of the settings. -/
def newest? (w : World) : Option Value :=
  (announcement w.outside.remote).bind fun info =>
    (info.lookup "version" (versionIn w.files "config.json")).toOption

/-- What can be different after an update: files at places of listed paths, which have what the
network delivers for them, and the version in the settings. Settings that are not there count as an
empty object. -/
structure Bounded (w : World) (f' : Files) : Prop where
  home : f'.home = w.files.home
  gone : f'.standing w.outside.temporary = none
  folders : ∀ place, w.files.standing place = some none → f'.standing place = some none
  content : ∀ place, place ≠ w.files.wayTo "config.json" →
    f'.contentAt place = w.files.contentAt place ∨
      Delivered w.outside.remote (listed w.outside.remote) w.files place (f'.contentAt place)
  settings :
    f'.contentAt (w.files.wayTo "config.json") = w.files.contentAt (w.files.wayTo "config.json") ∨
      ∃ version members, newest? w = some version ∧
        Settings.load w.files "config.json" = .ok (.object members) ∧
        Settings.load f' "config.json" = .ok (.object (setMember "version" version members))

section

variable {fetched entered : Files} {r : Except Fault Unit}
  (hend : Installed room remote items version f fetched entered r f')

include hend

theorem Installed.home : f'.home = f.home := by
  rw [hend.files, home_cleared, hend.enters.keeps.1, hend.arrives.home]

variable (h : Harmless f room items)

include h

/-- What stands outside of the room, but for the settings, was fetched. -/
theorem Installed.standing {place : List String} (hout : ¬ room <+: place)
    (hplace : place ≠ f.wayTo "config.json") : f'.standing place = fetched.standing place := by
  rw [hend.files, standing_cleared h.isRoom entered hout, hend.enters.keeps.2]
  rwa [wayTo_congr hend.arrives.home]

theorem Installed.folders {place : List String} (hplace : f.standing place = some none) :
    f'.standing place = some none := by
  rw [hend.files, standing_cleared h.isRoom entered,
    hend.enters.folders (hend.arrives.folders place hplace)]
  rintro ⟨rest, rfl⟩
  rw [standing_append_of_none h.vacant] at hplace
  cases hplace

theorem Installed.standing_room (rest : List String) : f'.standing (room ++ rest) = none := by
  rw [hend.files]
  exact standing_room_cleared h.isRoom (hend.enters.proper hend.fetching.proper)
    (isFolder_of_standing hend.enters.keeps.1 (fun _ => hend.enters.folders)
      hend.fetching.folder) rest

theorem Installed.load :
    Settings.load f' "config.json" = Settings.load entered "config.json" := by
  have hhome : entered.home = f.home := hend.enters.keeps.1.trans hend.arrives.home
  rw [hend.files]
  refine load_cleared h.isRoom ?_ ?_ ?_
  · rw [hhome]
    exact hend.enters.folders (hend.arrives.folders _ h.home)
  · rw [hhome]
    exact h.not_room_home
  · rw [wayTo_congr hhome]
    exact h.outside _ (.inl rfl)

end

/-- **The end of an installation**: the room is gone, and the settings are loaded from what was
written. -/
theorem Installed.bounded {fetched entered : Files} {r : Except Fault Unit}
    (h : Harmless w.files w.outside.temporary (listed w.outside.remote))
    (hunlisted : ∀ path, .text path ∈ listed w.outside.remote →
      w.files.wayTo path ≠ w.files.wayTo "config.json")
    (hversion : newest? w = some version) (hstorable : version.Storable)
    (hend : Installed w.outside.temporary w.outside.remote (listed w.outside.remote) version w.files
      fetched entered r f') : Bounded w f' := by
  refine ⟨hend.home, append_nil w.outside.temporary ▸ hend.standing_room h [],
    fun place => hend.folders h, fun place hplace => ?_, ?_⟩
  · by_cases hout : w.outside.temporary <+: place
    · -- nothing stood there before, and nothing is left
      obtain ⟨rest, rfl⟩ := hout
      rw [contentAt_eq_standing, contentAt_eq_standing, hend.standing_room h,
        standing_append_of_none h.vacant]
      exact .inl rfl
    · rw [contentAt_eq_standing, hend.standing h hout hplace, ← contentAt_eq_standing]
      exact hend.arrives.content place hout
  · rcases hend.enters.load hstorable with heq | ⟨members, hload, hload'⟩
    · refine .inl ?_
      rw [contentAt_eq_standing, contentAt_eq_standing, hend.files,
        standing_cleared h.isRoom entered (h.outside _ (.inl rfl)), heq,
        h.standing_settings hunlisted hend.arrives]
    · rw [h.load_settings hunlisted hend.arrives] at hload
      exact .inr ⟨version, members, hversion, hload, (hend.load h).trans hload'⟩

/-! ### Announced versions -/

theorem storable_of_lookup {usual found : Value} {name : String} (h : v.Storable)
    (husual : usual.Storable) (hfound : v.lookup name usual = .ok found) : found.Storable := by
  cases h with
  | object hnames hvalues =>
    rename_i members
    rw [Value.lookup, Except.ok.injEq] at hfound
    rw [← hfound]
    cases hmember : member? members name with
    | none => exact husual
    | some found =>
      obtain ⟨xs, ys, heq, -⟩ := lookup_eq_some_iff.mp hmember
      exact hvalues (name, found) (by simp [heq])
  | _ => cases hfound

theorem storable_versionIn (f : Files) (file : String) : (versionIn f file).Storable := by
  rw [versionIn]
  split
  · rename_i data hload
    cases hlookup : data.lookup "version" noVersion with
    | error fault => exact .text _
    | ok version => exact storable_of_lookup (storable_of_load hload) (.text _) hlookup
  · exact .text _

theorem storable_of_documentOf {bytes : List UInt8} (h : documentOf bytes = .ok v) :
    v.Storable := by
  rw [documentOf] at h
  cases hchars : charsOf bytes with
  | error fault =>
    rw [hchars] at h
    cases h
  | ok cs =>
    rw [hchars] at h
    dsimp only [Bind.bind, Except.bind] at h
    split at h
    · cases h
    · rename_i hread
      cases h
      exact Document.storable_of_readChars hread

theorem storable_newest (h : newest? w = some version) : version.Storable := by
  obtain ⟨info, hinfo, hversion⟩ := Option.bind_eq_some_iff.mp h
  obtain ⟨bytes, -, hdocument⟩ := Option.bind_eq_some_iff.mp hinfo
  exact storable_of_lookup (storable_of_documentOf (toOption_eq_some hdocument))
    (storable_versionIn _ _) (toOption_eq_some hversion)

/-! ### Every end of an update -/

theorem ends_currentVersion (file : String) (w : World) :
    Ends (currentVersion file) w (versionIn w.files file) w :=
  Ends.bind (a := w.files) rfl (ends_pure.mpr ⟨rfl, rfl⟩)

theorem leaves_latest (w : World) : Leaves latest w fun r w' => Told w w' ∧
    r = .ok ((announcement w.outside.remote).getD .null) := by
  have hfetched : Leaves latest.fetched w fun r w' => Told w w' ∧
      r.toOption = announcement w.outside.remote := by
    refine (leaves_fetch "latest.json" w).bind (fun bytes w' hend => ?_) fun e w' hend => ?_
    · have hfound : some bytes = (w.outside.remote (address ++ "latest.json")).toOption := hend.2
      rw [announcement, ← hfound, Option.bind_some]
      cases documentOf bytes with
      | _ => exact ⟨hend.1, rfl⟩
    · have hfound : none = (w.outside.remote (address ++ "latest.json")).toOption := hend.2
      rw [announcement, ← hfound]
      exact ⟨hend.1, rfl⟩
  refine leaves_orElse hfetched (fun info w' hend => ?_) fun e w' hend => ?_
  · rw [← hend.2]
    exact ⟨hend.1, rfl⟩
  · rw [← hend.2]
    exact leaves_modify_bind (leaves_pure ⟨hend.1.trans ⟨rfl, rfl⟩, rfl⟩)

theorem leaves_ask (current newest : Value) (w : World) : Leaves (ask current newest) w fun r w' =>
    r = .ok (w.outside.answers.headD false) ∧ w'.files = w.files ∧
      ∃ answers, w'.outside = { w.outside with answers } := by
  obtain ⟨window, display, hopen⟩ : ∃ window display, Ends openMain w window { w with display } :=
    ⟨_, _, rfl⟩
  refine hopen.leaves_bind ?_
  refine (Job.leaves_ask _ _ _).bind (fun wanted w' hend => ?_) fun e w' hend => ?_
  · obtain ⟨hwanted, hw'⟩ := hend
    refine leaves_modify_bind (leaves_pure ⟨hwanted, ?_, w.outside.answers.tail, ?_⟩)
    · rw [hw']
    · rw [hw']
  · cases hend.1

theorem items?_of_items (h : v.items = .ok items) : v.items? = some items := by
  rw [Value.items] at h
  split at h
  · rename_i hitems
    rw [hitems, Except.ok.inj h]
  · cases h

/-- **An update** leaves all files alone, or it installs what is announced. -/
theorem leaves_run {Q : Except Fault Unit → World → Prop}
    (hstay : ∀ r w', w'.files = w.files → Q r w')
    (hinstall : ∀ version w' answers, newest? w = some version → w'.files = w.files →
      w'.outside = { w.outside with answers } →
      Leaves (install (listed w.outside.remote) version) w' Q) : Leaves run w Q := by
  refine (ends_currentVersion "config.json" w).leaves_bind ?_
  refine (leaves_latest w).bind (fun found w₁ hend => ?_) fun e w₁ hend => hstay _ _ hend.1.files
  obtain ⟨htold, hfound⟩ := hend
  rcases Option.eq_none_or_eq_some (announcement w.outside.remote) with hnone | ⟨info, hinfo⟩
  · rw [hnone] at hfound
    obtain rfl : found = .null := Except.ok.inj hfound
    exact leaves_pure (hstay _ _ htold.files)
  rw [hinfo] at hfound
  obtain rfl : found = info := Except.ok.inj hfound
  split
  · exact leaves_pure (hstay _ _ htold.files)
  refine Job.leaves_attempt_bind (fun version hversion => ?_) fun e _ => hstay _ _ htold.files
  split
  · exact leaves_modify_bind (leaves_pure (hstay _ _ htold.files))
  refine (leaves_ask _ version w₁).bind (fun wanted w₂ hend => ?_) fun e w₂ hend => by cases hend.1
  obtain ⟨-, hfiles, answers, houtside⟩ := hend
  rw [htold.files] at hfiles
  rw [htold.outside] at houtside
  split
  · exact leaves_modify_bind (leaves_pure (hstay _ _ hfiles))
  refine Job.leaves_attempt_bind (fun files hlisted => ?_) fun e _ => hstay _ _ hfiles
  refine Job.leaves_attempt_bind (fun length _ => leaves_modify_bind ?_) fun e _ => hstay _ _ hfiles
  refine Job.leaves_attempt_bind (fun items hitems => ?_) fun e _ => hstay _ _ hfiles
  have hall : listed w.outside.remote = items := by
    rw [listed, hinfo, Option.bind_some, hlisted]
    simp [Except.toOption, items?_of_items hitems]
  rw [← hall]
  refine hinstall version _ answers ?_ hfiles houtside
  rw [newest?, hinfo]
  exact congrArg Except.toOption hversion

/-- **An update changes listed files and the version in the settings**, and nothing else, however it
ends. -/
theorem update_bounded (h : Harmless w.files w.outside.temporary (listed w.outside.remote))
    (hunlisted : ∀ path, .text path ∈ listed w.outside.remote →
      w.files.wayTo path ≠ w.files.wayTo "config.json") :
    Leaves run w fun _ w' => Bounded w w'.files := by
  refine leaves_run (fun r w' hfiles => ?_) fun version w₁ answers hversion hfiles houtside => ?_
  · rw [hfiles]
    exact ⟨rfl, h.vacant, fun _ => id, fun _ _ => .inl rfl, .inl rfl⟩
  · have hinstall := @leaves_install _ w₁ (fun _ _ => True) (by rw [houtside, hfiles]; exact h) version
      fun _ _ _ => trivial
    refine hinstall.mono fun r w' hend => ?_
    obtain ⟨fetched, entered, -, hinstalled⟩ := hend
    rw [houtside, hfiles] at hinstalled
    exact hinstalled.bounded h hunlisted hversion (storable_newest hversion)

theorem documentOf_of_chars {bytes : List UInt8} {cs : List Char} (hchars : charsOf bytes = .ok cs)
    (hread : Document.readChars cs = .ok v) : documentOf bytes = .ok v := by
  rw [documentOf, hchars]
  dsimp only [Bind.bind, Except.bind]
  rw [hread]
  rfl

/-- The announcement of a version with two files. -/
def twoFilesAnnounced : String :=
  "\x7b\"version\": \"2.0\", \"updated_files\": [\"a.py\", \"b.txt\"]\x7d"

/-- Of two listed files only one can be fetched. -/
def halfPublished : World where
  files := ⟨.folder (.cons "tmp" (.folder .nil) (.cons "app" (.folder (.cons "b.txt" (.file [2])
    (.cons "a.py" (.file [1]) (.cons "config.json"
      (.file (Text.encode "\x7b\"version\": \"0.0.1\"\x7d")) .nil)))) .nil)), ["app"]⟩
  outside := {
    answers := [true]
    remote := published [("a.py", [3]), ("latest.json", Text.encode twoFilesAnnounced)] }

theorem announcement_halfPublished : announcement halfPublished.outside.remote =
    some (.object [("version", .text "2.0"),
      ("updated_files", .list [.text "a.py", .text "b.txt"])]) := by
  have hbytes : (halfPublished.outside.remote (address ++ "latest.json")).toOption =
    some (Text.encode twoFilesAnnounced) := by decide +kernel
  have hchars : (charsOf (Text.encode twoFilesAnnounced)).toOption =
    some twoFilesAnnounced.toList := by decide +kernel
  rw [announcement, hbytes, Option.bind_some,
    documentOf_of_chars (toOption_eq_some hchars) (by cbv)]
  rfl

theorem listed_halfPublished :
    listed halfPublished.outside.remote = [.text "a.py", .text "b.txt"] := by
  rw [listed, announcement_halfPublished]
  rfl

theorem mem_listed_halfPublished (h : .text path ∈ listed halfPublished.outside.remote) :
    path = "a.py" ∨ path = "b.txt" := by
  rw [listed_halfPublished] at h
  simpa using h

theorem harmless_halfPublished : Harmless halfPublished.files ["tmp", "update"]
    (listed halfPublished.outside.remote) := by
  refine ⟨Node.proper_of_isProper (by decide), by decide +kernel, ⟨by decide, by decide⟩,
    by decide +kernel, by decide +kernel, fun path hpath => ?_, fun path hpath => ?_⟩
  · rcases mem_listed_halfPublished hpath with rfl | rfl <;>
      exact ⟨by decide, by decide, by decide +kernel⟩
  · rcases hpath.imp_right mem_listed_halfPublished with rfl | rfl | rfl <;> decide

/-- The update replaces the one published file and enters the new version. -/
theorem update_bounded_halfPublished :
    Leaves run halfPublished (fun _ w' => Bounded halfPublished w'.files) ∧
    (run.doneIn halfPublished).2.files.contentAt ["app", "a.py"] = some [3] ∧
    (Value.text "2.0").same (versionIn (run.doneIn halfPublished).2.files "config.json") = true := by
  refine ⟨update_bounded harmless_halfPublished fun path hpath => ?_, by decide +kernel,
    by decide +kernel⟩
  rcases mem_listed_halfPublished hpath with rfl | rfl <;> decide

end ApkWorkshop.Update
