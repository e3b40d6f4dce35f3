import ApkWorkshop.Proofs.DecompiledPaths
import ApkWorkshop.Proofs.MadeFolders
import ApkWorkshop.Proofs.Workbench
import ApkWorkshop.Update.Update

/-!
# Files That Arrive

An update fetches one file after the other into a folder of its own, called the room here, and moves
each to its place. Fetching changes the files step by step (`Arrives`), and each step keeps what the
next one needs (`Fetching`).
-/

namespace ApkWorkshop

open List Function ApkWorkshop.Path Files

namespace Files

variable {f f' : Files} {path : String} {content : List UInt8} {place above : List String}

theorem standing_ne_folder_of_write (h : f.write path content = .ok f') :
    f.standing (f.wayTo path) ≠ some none := by
  obtain ⟨place, hplace, -⟩ := canWrite_of_write h
  intro hfolder
  obtain ⟨entries, hentries⟩ := standing_folder_iff.mp hfolder
  rw [hplace.wayTo] at hentries
  exact hplace.place.2 entries hentries

theorem folder_write (h : f.write path content = .ok f') (hplace : f.standing place = some none) :
    f'.standing place = some none := by
  rw [standing_write h, update_of_ne, hplace]
  rintro rfl
  exact standing_ne_folder_of_write h hplace

theorem standing_of_read (h : f.read path = .ok content) :
    f.standing (f.wayTo path) = some (some content) := by
  obtain ⟨place, hlocate⟩ := exists_locate_of_read h
  rw [wayTo_of_locate hlocate, standing, get?_of_locate hlocate]
  rfl

theorem standing_above (h : f.standing place = some none) (habove : above <+: place) :
    f.standing above = some none := by
  obtain ⟨rest, rfl⟩ := habove
  by_cases hrest : rest = []
  · rwa [hrest, append_nil] at h
  · obtain ⟨entries, hentries⟩ := standing_folder_iff.mp h
    exact standing_folder_iff.mpr
      (Node.exists_folder_of_get?_append (by rw [hentries]; rfl) hrest)

end Files

namespace Update

/-! ### The room -/

/-- The way to a folder: some proper names. -/
structure IsRoom (room : List String) : Prop where
  ne_nil : room ≠ []
  proper : ∀ name ∈ room, ProperName name

variable {room : List String}

section

variable (hroom : IsRoom room)

include hroom

theorem IsRoom.plain : ∀ name ∈ room, PlainName name := fun name hname =>
  (hroom.proper name hname).plainName

theorem wayTo_temporaryFolder (f : Files) : f.wayTo (temporaryFolder room) = room := by
  rw [temporaryFolder, f.wayTo_joinAll "/" hroom.plain]
  rfl

theorem descending_temporaryFolder : Descending (temporaryFolder room) :=
  Descending.joinAll ⟨by decide, by decide⟩ hroom.plain

variable {path : String} (h : Path.isAbsolute path = false)

include h

theorem join_arriving :
    Path.join (temporaryFolder room) path = temporaryFolder room ++ "/" ++ path := by
  obtain ⟨rest, name, rfl⟩ := (eq_nil_or_concat' room).resolve_left hroom.ne_nil
  rw [temporaryFolder, joinAll_concat]
  exact join_relative _ (hroom.plain name (by simp)) h

theorem parts_arriving :
    Path.parts (Path.join (temporaryFolder room) path) =
      Path.parts (temporaryFolder room) ++ Path.parts path := by
  rw [join_arriving hroom h, parts, String.toList_append, String.toList_append, append_assoc]
  exact partsFrom_append [] _ _

theorem descending_arriving (hdown : ".." ∉ Path.parts path) :
    Path.Descending (Path.join (temporaryFolder room) path) := by
  obtain ⟨habsolute, hup⟩ := descending_temporaryFolder hroom
  have hhead : (temporaryFolder room).toList.head? = some '/' := eq_of_beq habsolute
  refine ⟨?_, ?_⟩
  · rw [isAbsolute, join_arriving hroom h, String.append_assoc, String.toList_append,
      head?_append_of_ne_nil _ (ne_nil_of_mem (mem_of_mem_head? hhead)), hhead]
    rfl
  · rw [parts_arriving hroom h, mem_append, not_or]
    exact ⟨hup, hdown⟩

theorem resolve_arriving : resolve [] (Path.parts (Path.join (temporaryFolder room) path)) =
    resolve room (Path.parts path) := by
  have hway := wayTo_temporaryFolder hroom ⟨.folder .nil, []⟩
  rw [wayTo, origin, ite_self] at hway
  rw [parts_arriving hroom h, resolve_append, hway]

end

/-! ### Listed paths -/

variable {remote : String → Except String (List UInt8)} {items all : List Value} {f f' : Files}
  {path dir : String} {w : World} {v : Value}

/-- A path that leads down from the working folder, and not to a folder. -/
structure Modest (f : Files) (path : String) : Prop where
  relative : Path.isAbsolute path = false
  down : ".." ∉ Path.parts path
  target : f.standing (f.wayTo path) ≠ some none

theorem Modest.room_above (h : Modest f path) (hroom : IsRoom room) (f' : Files) :
    room <+: f'.wayTo (Path.join (temporaryFolder room) path) := by
  rw [wayTo, origin, (descending_arriving hroom h.relative h.down).1, if_pos rfl,
    resolve_arriving hroom h.relative]
  exact prefix_resolve room h.down

/-! ### Steps of fetching -/

/-- A content that the network delivers for a listed path to the place. -/
def Delivered (remote : String → Except String (List UInt8)) (items : List Value) (f : Files)
    (place : List String) (content : Option (List UInt8)) : Prop :=
  ∃ path bytes, .text path ∈ items ∧ f.wayTo path = place ∧ remote (address ++ path) = .ok bytes ∧
    content = some bytes

/-- What fetching listed files does: outside of the room, no content differs but at places of listed
paths, and folders stay what they are. -/
structure Arrives (room : List String) (remote : String → Except String (List UInt8))
    (items : List Value) (f f' : Files) : Prop where
  home : f'.home = f.home
  proper : f.root.Proper → f'.root.Proper
  folders : ∀ place, f.standing place = some none → f'.standing place = some none
  fresh : ∀ place, ¬ room <+: place → f'.standing place = some none → f.standing place = some none
  content : ∀ place, ¬ room <+: place → f'.contentAt place = f.contentAt place ∨
    Delivered remote items f place (f'.contentAt place)

/-- Files in which listed paths can be fetched. -/
structure Fetching (room : List String) (all : List Value) (f : Files) : Prop where
  proper : f.root.Proper
  folder : f.isFolder (temporaryFolder room) = true
  modest : ∀ path, .text path ∈ all → Modest f path
  outside : ∀ path, .text path ∈ all → ¬ room <+: f.wayTo path

theorem Fetching.above (h : Fetching room all f) (hroom : IsRoom room) {above : List String}
    (habove : above <+: room) : f.standing above = some none := by
  have hfolder := standing_of_isFolder h.folder
  rw [wayTo_temporaryFolder hroom] at hfolder
  exact standing_above hfolder habove

namespace Arrives

theorem refl (f : Files) : Arrives room remote items f f :=
  ⟨rfl, id, fun _ => id, fun _ _ => id, fun _ _ => .inl rfl⟩

theorem trans {f'' : Files} (h : Arrives room remote items f f')
    (h' : Arrives room remote items f' f'') : Arrives room remote items f f'' := by
  refine ⟨h'.home.trans h.home, h'.proper ∘ h.proper,
    fun place hplace => h'.folders place (h.folders place hplace),
    fun place hout hplace => h.fresh place hout (h'.fresh place hout hplace),
    fun place hplace => ?_⟩
  rcases h'.content place hplace with hsame | ⟨path, bytes, hpath, hway, harrived⟩
  · rw [hsame]
    exact h.content place hplace
  · rw [wayTo_congr h.home] at hway
    exact .inr ⟨path, bytes, hpath, hway, harrived⟩

theorem modest (h : Arrives room remote items f f') (hpath : Modest f path)
    (hout : ¬ room <+: f.wayTo path) : Modest f' path := by
  refine ⟨hpath.relative, hpath.down, ?_⟩
  rw [wayTo_congr h.home]
  exact fun hfolder => hpath.target (h.fresh _ hout hfolder)

theorem fetching (h : Arrives room remote items f f') (hf : Fetching room all f) :
    Fetching room all f' := by
  refine ⟨h.proper hf.proper, isFolder_of_standing h.home h.folders hf.folder,
    fun path hpath => h.modest (hf.modest path hpath) (hf.outside path hpath), fun path hpath => ?_⟩
  rw [wayTo_congr h.home]
  exact hf.outside path hpath

theorem of_deepens {goal way : List String} (h : Files.Deepens [] goal f f') (hgoal : goal <+: way)
    (hway : room <+: way) (habove : ∀ above, above <+: room → above ≠ room →
      f.standing above = some none) : Arrives room remote items f f' := by
  refine ⟨h.home, h.proper, fun place hplace => ?_, fun place hout hplace => ?_,
    fun place _ => .inl ?_⟩
  · rcases h.standing place with hsame | ⟨hnone, -⟩
    · rw [hsame, hplace]
    · rw [hnone] at hplace
      cases hplace
  · rcases h.standing place with hsame | ⟨-, -, -, hbelow⟩
    · rw [← hsame, hplace]
    · -- a new folder lies on the way to the room, where folders are already, or in it
      rw [nil_append] at hbelow
      have hplace' := ( prefix_or_prefix_of_prefix (hbelow.trans hgoal) hway).resolve_right hout
      refine habove place hplace' ?_
      rintro rfl
      exact hout (prefix_refl place)
  · rw [contentAt_eq_standing, contentAt_eq_standing]
    rcases h.standing place with hsame | ⟨hnone, hnew, -⟩
    · rw [hsame]
    · rw [hnone, hnew]
      rfl

theorem of_write {target : String} {bytes : List UInt8} (h : f.write target bytes = .ok f')
    (hway : room <+: f.wayTo target) : Arrives room remote items f f' := by
  have hstanding := standing_write h
  refine ⟨home_write h, fun hf => proper_write hf h, fun _ => folder_write h,
    fun place _ hplace => ?_, fun place hplace => .inl ?_⟩
  · by_cases heq : place = f.wayTo target
    · rw [heq, hstanding, update_self] at hplace
      cases hplace
    · rwa [hstanding, update_of_ne heq] at hplace
  · rw [contentAt_eq_standing, contentAt_eq_standing, hstanding, update_of_ne]
    rintro rfl
    exact hplace hway

/-- What stands where, once a file that arrived is moved to its place. -/
theorem standing_moved {bytes : List UInt8} (hroom : IsRoom room) (hf : f.root.Proper)
    (hpath : Modest f path) (hout : ¬ room <+: f.wayTo path)
    (hread : f.read (Path.join (temporaryFolder room) path) = .ok bytes)
    (hmove : f.move (Path.join (temporaryFolder room) path) path = .ok f') :
    f'.home = f.home ∧ f'.root.Proper ∧ f'.standing = Function.update
      (Function.update f.standing (f.wayTo path) (some (some bytes)))
        (f.wayTo (Path.join (temporaryFolder room) path)) none := by
  refine standing_move hf hread ?_ (fun heq => hout (heq ▸ hpath.room_above hroom f)) hmove
  by_contra hfolder
  exact hpath.target (standing_of_isFolder (by simpa using hfolder))

theorem of_move {bytes : List UInt8} (hroom : IsRoom room) (hf : f.root.Proper)
    (hpath : Modest f path) (hout : ¬ room <+: f.wayTo path) (hmem : .text path ∈ items)
    (hremote : remote (address ++ path) = .ok bytes)
    (hread : f.read (Path.join (temporaryFolder room) path) = .ok bytes)
    (hmove : f.move (Path.join (temporaryFolder room) path) path = .ok f') :
    Arrives room remote items f f' := by
  have hway := hpath.room_above hroom f
  have hsource := standing_of_read hread
  obtain ⟨hhome, hproper, hstanding⟩ := standing_moved hroom hf hpath hout hread hmove
  generalize f.wayTo (Path.join (temporaryFolder room) path) = source at *
  refine ⟨hhome, fun _ => hproper, fun place hplace => ?_, fun place _ hplace => ?_,
    fun place hplace => ?_⟩
  · rw [hstanding, update_of_ne, update_of_ne, hplace]
    · rintro rfl
      exact hpath.target hplace
    · rintro rfl
      rw [hsource] at hplace
      cases hplace
  · rw [hstanding] at hplace
    by_cases hleft : place = source
    · rw [hleft, update_self] at hplace
      cases hplace
    rw [update_of_ne hleft] at hplace
    by_cases hright : place = f.wayTo path
    · rw [hright, update_self] at hplace
      cases hplace
    · rwa [update_of_ne hright] at hplace
  · have hleft : place ≠ source := by
      rintro rfl
      exact hplace hway
    rw [contentAt_eq_standing, contentAt_eq_standing, hstanding, update_of_ne hleft]
    by_cases hright : place = f.wayTo path
    · rw [hright, update_self]
      exact .inr ⟨path, bytes, hmem, rfl, hremote, rfl⟩
    · rw [update_of_ne hright]
      exact .inl rfl

end Arrives

/-! ### One file -/

theorem leaves_fetch (name : String) (w : World) : Leaves (fetch name) w fun r w' =>
    Told w w' ∧ r.toOption = (w.outside.remote (address ++ name)).toOption := by
  refine leaves_modify_bind (leaves_get_bind ?_)
  cases hanswer : w.outside.remote (address ++ name) with
  | error message => exact leaves_throw ⟨⟨rfl, rfl⟩, rfl⟩
  | ok bytes => exact leaves_pure ⟨⟨rfl, rfl⟩, rfl⟩

/-- A file was fetched to a path, after folders were made for it. If it was not, its bytes are not
there or could not be written. -/
def Downloads (made : Files × Option FileFault) (found : Option (List UInt8)) (target : String)
    (f' : Files) : Bool → Prop
  | true => ∃ bytes, found = some bytes ∧ made.1.write target bytes = .ok f'
  | false => f' = made.1 ∧
      (made.2 = none → ∀ bytes f'', found = some bytes → made.1.write target bytes ≠ .ok f'')

variable {made : Files × Option FileFault}

theorem leaves_fetched {target : String} (hmade : w.files.makeFolders (Path.folder target) = made) :
    Leaves (download.fetched (.text path) target) w fun r w' => w'.outside = w.outside ∧
      Downloads made (w.outside.remote (address ++ path)).toOption target w'.files
        (r.toOption.getD false) := by
  refine Job.leaves_makeFolders_bind (fun _ => ?_) fun fault hfault => ?_
  · rw [hmade]
    refine (leaves_fetch path _).bind (fun bytes w' hend => ?_) fun e w' hend => ?_
    · obtain ⟨htold, hfound⟩ := hend
      have hbytes : some bytes = (w.outside.remote (address ++ path)).toOption := hfound
      have hfiles : w'.files = made.1 := htold.files
      rw [← hbytes]
      refine Job.leaves_onFiles_bind (fun written hwritten => leaves_pure ?_) fun fault hfault => ?_
      · exact ⟨htold.outside, bytes, rfl, hfiles ▸ hwritten⟩
      · refine ⟨htold.outside, hfiles, fun _ other f'' hother hwrite => ?_⟩
        rw [← Option.some.inj hother, ← hfiles, hfault] at hwrite
        cases hwrite
    · obtain ⟨htold, hfound⟩ := hend
      have hnone : none = (w.outside.remote (address ++ path)).toOption := hfound
      rw [← hnone]
      exact ⟨htold.outside, htold.files, fun _ bytes f'' hbytes => by cases hbytes⟩
  · rw [hmade] at hfault ⊢
    exact ⟨rfl, rfl, fun hnone => by rw [hnone] at hfault; cases hfault⟩

/-- **A download** ends well, whether there is a file or not. -/
theorem leaves_download (hmade : w.files.makeFolders (Path.folder (Path.join dir path)) = made) :
    Leaves (download (.text path) (.text dir)) w fun r w' => w'.outside = w.outside ∧ ∃ b,
      r = .ok b ∧ Downloads made (w.outside.remote (address ++ path)).toOption (Path.join dir path)
        w'.files b := by
  rw [download]
  refine Job.leaves_attempt_bind (fun target htarget => ?_) fun fault hfault => ?_
  swap
  · cases hfault
  obtain rfl : Path.join dir path = target := Except.ok.inj htarget
  refine Job.leaves_orElse (leaves_fetched hmade) (fun b w' hend => ?_) fun fault w' hend => ?_
  · exact ⟨hend.1, b, rfl, hend.2⟩
  · exact leaves_modify_bind (leaves_pure ⟨hend.1, false, rfl, hend.2⟩)

/-- **One file** is not fetched, or it is written to where it arrives and, if this is possible,
moved. -/
theorem leaves_updateText {Q : Except Fault Unit → World → Prop}
    (hmade : w.files.makeFolders (Path.folder (Path.join dir path)) = made)
    (hmissing : ∀ w', w'.outside = w.outside →
      Downloads made (w.outside.remote (address ++ path)).toOption (Path.join dir path) w'.files
        false → Q (.ok ()) w')
    (hfetched : ∀ w' bytes, w'.outside = w.outside →
      w.outside.remote (address ++ path) = .ok bytes →
      made.1.write (Path.join dir path) bytes = .ok w'.files →
        (∀ fault, Q (.error fault) w') ∧
        ∀ moved w'', w'.files.move (Path.join dir path) path = .ok moved →
          w''.outside = w.outside → w''.files = moved → Q (.ok ()) w'') :
    Leaves (updateFile dir (.text path)) w Q := by
  refine (leaves_download hmade).bind (fun b w' hend => ?_) fun e w' hend => ?_
  swap
  · obtain ⟨-, b, hb, -⟩ := hend
    cases hb
  obtain ⟨houtside, b, hb, hdownloads⟩ := hend
  cases hb
  cases b with
  | false => exact leaves_pure (hmissing w' houtside hdownloads)
  | true =>
    obtain ⟨bytes, hbytes, hwrite⟩ := hdownloads
    have hremote : w.outside.remote (address ++ path) = .ok bytes := by
      cases hanswer : w.outside.remote (address ++ path) with
      | error message =>
        rw [hanswer] at hbytes
        cases hbytes
      | ok found =>
        rw [hanswer] at hbytes
        rw [Option.some.inj hbytes]
    obtain ⟨hstopped, hmoved⟩ := hfetched w' bytes houtside hremote hwrite
    refine Job.leaves_attempt_bind (fun target htarget => ?_) fun fault hfault => ?_
    swap
    · cases hfault
    obtain rfl : path = target := Except.ok.inj htarget
    exact Job.leaves_onFiles_bind (fun moved hmove => leaves_modify (hmoved moved _ hmove houtside rfl))
      fun fault _ => hstopped _

theorem leaves_updateFile_of_error {e : Fault} (h : (Value.text dir).joinPath v = .error e) :
    Leaves (updateFile dir v) w fun r w' => r = .error e ∧ w' = w := by
  have hdownload : Leaves (download v (.text dir)) w fun r w' => r = .error e ∧ w' = w := by
    refine Job.leaves_attempt_bind (fun target htarget => ?_) fun fault hfault => ?_
    · cases h.symm.trans htarget
    · exact ⟨congrArg Except.error (Except.error.inj (hfault.symm.trans h)), rfl⟩
  refine hdownload.bind (fun b w' hend => ?_) fun fault w' hend => ?_
  · cases hend.1
  · exact ⟨congrArg Except.error (Except.error.inj hend.1), hend.2⟩

/-! ### All listed files -/

/-- Whether or not the folders for a file can all be made, they are on the way to where it
arrives. -/
theorem Fetching.arrives_made (h : Fetching room all f) (hroom : IsRoom room)
    (hmem : .text path ∈ all) : Arrives room remote all f
      (f.makeFolders (Path.folder (Path.join (temporaryFolder room) path))).1 := by
  have hpath := h.modest path hmem
  have hdescending := descending_arriving hroom hpath.relative hpath.down
  refine .of_deepens (deepens_makeFolders _ hdescending.folder.1) hdescending.folder.2 ?_
    fun above habove _ => h.above hroom habove
  rw [resolve_arriving hroom hpath.relative]
  exact prefix_resolve room hpath.down

theorem leaves_arrival (hroom : IsRoom room) (h : Fetching room all w.files)
    (hmem : .text path ∈ all) :
    Leaves (updateFile (temporaryFolder room) (.text path)) w fun _ w' => w'.outside = w.outside ∧
      Arrives room w.outside.remote all w.files w'.files := by
  have hpath := h.modest path hmem
  have hout := h.outside path hmem
  have hmade : Arrives room w.outside.remote all w.files _ := h.arrives_made hroom hmem
  refine leaves_updateText rfl (fun w' houtside hdownloads => ⟨houtside, ?_⟩)
    fun w' bytes houtside hremote hwrite => ?_
  · rw [hdownloads.1]
    exact hmade
  have hwritten := hmade.trans (.of_write hwrite (hpath.room_above hroom _))
  refine ⟨fun fault => ⟨houtside, hwritten⟩, fun moved w'' hmove houtside' hfiles => ⟨houtside', ?_⟩⟩
  rw [hfiles]
  refine hwritten.trans (.of_move hroom (hwritten.proper h.proper) (hwritten.modest hpath hout) ?_
    hmem hremote (read_write hwrite) hmove)
  rwa [wayTo_congr hwritten.home]

/-- **All listed files**, up to the first that stops the work. -/
theorem leaves_arrivals (hroom : IsRoom room) (h : Fetching room all w.files)
    (hitems : items ⊆ all) :
    Leaves (items.forM (updateFile (temporaryFolder room))) w fun _ w' =>
      w'.outside = w.outside ∧ Arrives room w.outside.remote all w.files w'.files := by
  induction items generalizing w with
  | nil => exact leaves_pure ⟨rfl, .refl _⟩
  | cons v items ih =>
    have hfirst : Leaves (updateFile (temporaryFolder room) v) w fun _ w' =>
        w'.outside = w.outside ∧ Arrives room w.outside.remote all w.files w'.files := by
      cases v with
      | text path => exact leaves_arrival hroom h (hitems mem_cons_self)
      | _ =>
        refine (leaves_updateFile_of_error rfl).mono fun r w' hend => ?_
        obtain ⟨-, rfl⟩ := hend
        exact ⟨rfl, .refl _⟩
    refine hfirst.bind (fun _ w' hend => ?_) fun _ _ hend => hend
    refine (ih (hend.2.fetching h) fun u hu => hitems (mem_cons_of_mem v hu)).mono
      fun r w'' hrest => ⟨hrest.1.trans hend.1, ?_⟩
    rw [hend.1] at hrest
    exact hend.2.trans hrest.2

end Update

end ApkWorkshop
