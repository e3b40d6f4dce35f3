import ApkWorkshop.Proofs.UpdateEffects

/-!
# Updates That Are Recorded

The new version is entered into the settings behind the last listed file. A file that cannot be
moved stops the update before that, but one that cannot be fetched only leaves a line on the console.
So a recorded update has fetched what the network delivers, and not always what is listed.
-/

namespace ApkWorkshop

open Text List Function ApkWorkshop.Path Files

/-! ### Tidy paths -/

namespace Path

theorem joinWith_partsFrom (part cs : List Char) :
    joinWith "/" (partsFrom part cs) = String.ofList (part.reverse ++ cs) := by
  induction cs generalizing part with
  | nil => rw [partsFrom, joinWith, append_nil]
  | cons c cs ih =>
    by_cases hc : c = '/'
    · obtain ⟨first, rest, hrest⟩ := exists_cons_of_ne_nil (partsFrom_ne_nil [] cs)
      have hcs := ih []
      rw [hrest] at hcs
      rw [hc, partsFrom, hrest, joinWith, hcs, ← String.toList_inj]
      · simp
      · simp
    · rw [partsFrom.eq_3 _ _ _ hc, ih, reverse_cons, append_assoc, singleton_append]

theorem joinWith_parts (path : String) : joinWith "/" (parts path) = path := by
  rw [parts, joinWith_partsFrom, reverse_nil, nil_append, String.ofList_toList]

theorem parts_injective : Function.Injective parts := fun path other h => by
  rw [← joinWith_parts path, h, joinWith_parts]

def Tidy (path : String) : Prop :=
  ∀ name ∈ parts path, ProperName name

instance (path : String) : Decidable (Tidy path) :=
  inferInstanceAs (Decidable (∀ name ∈ parts path, ProperName name))

theorem join_of_tidy (dir : String) {path : String} (h : Tidy path) :
    join dir path = joinAll dir (parts path) := by
  have hjoin := join_joinWith dir (partsFrom_ne_nil [] path.toList)
    fun name hname => (h name hname).plainName
  rwa [← parts, joinWith_parts] at hjoin

end Path

namespace Files

theorem wayTo_of_tidy (f : Files) {path : String} (h : Path.Tidy path) :
    f.wayTo path = f.home ++ parts path := by
  have hjoin := join_of_tidy "" h
  rw [show Path.join "" path = path by simp [Path.join]] at hjoin
  calc f.wayTo path = f.wayTo (Path.joinAll "" (Path.parts path)) := by rw [← hjoin]
    _ = f.wayTo "" ++ Path.parts path := f.wayTo_joinAll "" fun name hname => (h name hname).plainName
    _ = f.home ++ parts path := rfl

theorem wayTo_injective_of_tidy {f : Files} {path other : String} (h : Path.Tidy path)
    (hother : Path.Tidy other) (heq : f.wayTo path = f.wayTo other) : path = other := by
  rw [f.wayTo_of_tidy h, f.wayTo_of_tidy hother] at heq
  exact parts_injective (append_cancel_left heq)

end Files

namespace Update

variable {all items : List Value} {f f' : Files} {path : String} {w : World} {version : Value}
  {room : List String}

/-! ### Nothing is in the way -/

/-- The listed paths are tidy, and none of them leads through another one. -/
structure Listing (all : List Value) : Prop where
  tidy : ∀ path, .text path ∈ all → Path.Tidy path
  apart : ∀ path other, .text path ∈ all → .text other ∈ all →
    Path.parts path <+: Path.parts other → path = other

/-- Nothing is in the way where listed files arrive. -/
structure Ready (room : List String) (all : List Value) (f : Files) : Prop where
  no_file : ∀ rest content, f.standing (room ++ rest) ≠ some (some content)
  free : ∀ path, .text path ∈ all → f.standing (room ++ Path.parts path) = none

theorem Ready.congr (h : Ready room all f)
    (heq : ∀ rest, f'.standing (room ++ rest) = f.standing (room ++ rest)) : Ready room all f' := by
  refine ⟨fun rest => ?_, fun path hpath => ?_⟩
  · rw [heq]
    exact h.no_file rest
  · rw [heq, h.free path hpath]

theorem Ready.deepens (h : Ready room all f) (hall : Listing all) (hpath : .text path ∈ all)
    {above : List String} {name : String} (hparts : parts path = above ++ [name])
    (hdeepens : Files.Deepens room above f f') : Ready room all f' where
  no_file rest := hdeepens.no_file (h.no_file rest)
  free other hother := by
    rcases hdeepens.standing (room ++ parts other) with hsame | ⟨-, -, -, hbelow⟩
    · rw [hsame, h.free other hother]
    · -- a folder for one file would be the place of another one
      have habove : parts other <+: above := (prefix_append_right_inj room).mp hbelow
      have hprefix : parts other <+: parts path := by
        rw [hparts]
        exact habove.trans (prefix_append above [name])
      rw [hall.apart other path hother hpath hprefix, hparts] at habove
      have hlength := habove.length_le
      rw [length_append, length_singleton] at hlength
      omega

/-- Nothing is in the way in a room that has just been made. -/
theorem Harmless.ready (h : Harmless f room all) (hdeepens : Files.Deepens [] room f f') :
    Ready room all f' := by
  have hempty : ∀ rest, f.standing (room ++ rest) = none := standing_append_of_none h.vacant
  refine ⟨fun rest => hdeepens.no_file fun content => ?_, fun path _ => ?_⟩
  · rw [hempty]
    simp
  · rcases hdeepens.standing (room ++ parts path) with hsame | ⟨-, -, -, hbelow⟩
    · rw [hsame, hempty]
    · -- the room itself is the last folder that was made
      have hlength := hbelow.length_le
      have hparts := length_pos_of_ne_nil (partsFrom_ne_nil [] path.toList)
      rw [nil_append, length_append, parts] at hlength
      omega

/-! ### One file -/

/-- The folder is there in which a file arrives. -/
def Awaited (room : List String) (path : String) (f : Files) : Prop :=
  ∃ dir name, Path.join (temporaryFolder room) path = Path.join dir name ∧ ProperName name ∧
    f.isFolder dir = true ∧ f.wayTo dir ++ [name] = room ++ Path.parts path

section

variable (hroom : IsRoom room) (hpath : .text path ∈ all)

include hroom hpath

/-- **The folders above a file that arrives** can be made. -/
theorem Ready.exists_makeFolders (h : Ready room all f) (hall : Listing all)
    (hfolder : f.isFolder (temporaryFolder room) = true) :
    ∃ f', f.makeFolders (Path.folder (Path.join (temporaryFolder room) path)) = (f', none) ∧
      Ready room all f' ∧ Awaited room path f' := by
  have htidy := hall.tidy path hpath
  obtain ⟨above, name, hparts⟩ : ∃ above name, parts path = above ++ [name] :=
    (eq_nil_or_concat' _).resolve_left (partsFrom_ne_nil [] path.toList)
  have hname : ProperName name := htidy name (by simp [hparts])
  have habove : ∀ other ∈ above, ProperName other := fun other hother =>
    htidy other (by rw [hparts]; exact mem_append_left [name] hother)
  have hplain : ∀ other ∈ above, PlainName other := fun other hother =>
    (habove other hother).plainName
  have hjoin : Path.join (temporaryFolder room) path =
      Path.join (joinAll (temporaryFolder room) above) name := by
    rw [join_of_tidy _ htidy, hparts, joinAll_concat]
  obtain ⟨hnonempty, hbare⟩ := bare_joinAll (show "/" ≠ "" by decide) (by decide) hroom.plain
  obtain ⟨hne, hbareAbove⟩ := bare_joinAll hnonempty hbare hplain
  obtain ⟨f', hmake, hdeepens, hdir⟩ :=
    Files.exists_makeFolders hfolder hbare habove fun rest _ => by
      rw [wayTo_temporaryFolder hroom]
      exact h.no_file rest
  rw [wayTo_temporaryFolder hroom] at hdeepens
  refine ⟨f', ?_, h.deepens hall hpath hparts hdeepens, joinAll (temporaryFolder room) above, name,
    hjoin, hname, hdir, ?_⟩
  · rw [hjoin, temporaryFolder, folder_join hne hbareAbove hname.plainName]
    exact hmake
  · rw [f'.wayTo_joinAll _ hplain, wayTo_temporaryFolder hroom, hparts, append_assoc]

/-- **A file that arrives** can be written, and once it is moved nothing is left of it in the
room. -/
theorem Ready.exists_write (h : Ready room all f) (hfetching : Fetching room all f)
    (hawaited : Awaited room path f) (bytes : List UInt8) :
    ∃ f', f.write (Path.join (temporaryFolder room) path) bytes = .ok f' ∧
      ∀ f'', f'.move (Path.join (temporaryFolder room) path) path = .ok f'' →
        Ready room all f'' ∧ f''.contentAt (f.wayTo path) = some bytes := by
  obtain ⟨dir, name, hjoin, hname, hdir, hplace⟩ := hawaited
  have hfree := h.free path hpath
  have hout := hfetching.outside path hpath
  have hmodest := hfetching.modest path hpath
  have hwrite := (canWrite_join hdir hname (by rw [hplace, hfree]; simp)).write bytes
  rw [hplace, ← hjoin] at hwrite
  have hsource : f.wayTo (Path.join (temporaryFolder room) path) = room ++ parts path := by
    rw [hjoin, f.wayTo_entry dir hname.plainName, hplace]
  generalize ({ f with root := f.root.put (room ++ parts path) (.file bytes) } : Files) = f'
    at hwrite
  refine ⟨f', hwrite, fun f'' hmove => ?_⟩
  have hwritten : Arrives room (fun _ => .error "") all f f' :=
    .of_write hwrite (by rw [hsource]; exact prefix_append room _)
  have hway := wayTo_congr hwritten.home path
  obtain ⟨-, -, hmoved⟩ := Arrives.standing_moved hroom (hwritten.proper hfetching.proper)
    (hwritten.modest hmodest hout) (by rwa [hway]) (read_write hwrite) hmove
  have hwrite' := standing_write hwrite
  rw [hsource] at hwrite'
  rw [wayTo_congr hwritten.home (Path.join _ _), hsource, hway, hwrite'] at hmoved
  have hne : f.wayTo path ≠ room ++ parts path := fun heq => hout (heq ▸ prefix_append room _)
  refine ⟨h.congr fun rest => ?_, ?_⟩
  · -- the place where it arrived was free, and it is free again
    rw [hmoved]
    by_cases hrest : rest = parts path
    · rw [hrest, update_self, hfree]
    · have hother : room ++ rest ≠ room ++ parts path := fun heq => hrest (append_cancel_left heq)
      rw [update_of_ne hother, update_of_ne, update_of_ne hother]
      exact fun heq => hout (heq ▸ prefix_append room rest)
  · rw [contentAt_eq_standing, hmoved, update_of_ne hne, update_self]
    rfl

theorem leaves_updateText_ready (hall : Listing all) (h : Ready room all w.files)
    (hfetching : Fetching room all w.files) :
    Leaves (updateFile (temporaryFolder room) (.text path)) w fun r w' => r = .ok () →
      Ready room all w'.files ∧ ∀ bytes, w.outside.remote (address ++ path) = .ok bytes →
        w'.files.contentAt (w.files.wayTo path) = some bytes := by
  obtain ⟨made, hmake, hready, hawaited⟩ :=
    h.exists_makeFolders hroom hpath hall hfetching.folder
  have hmade : Arrives room w.outside.remote all w.files _ := hfetching.arrives_made hroom hpath
  rw [hmake] at hmade
  have hwritten := hready.exists_write hroom hpath (hmade.fetching hfetching) hawaited
  rw [wayTo_congr hmade.home] at hwritten
  refine leaves_updateText hmake (fun w' _ hdownloads _ => ?_)
    fun w' bytes _ hremote hwrite => ⟨fun fault hr => ?_, fun moved w'' hmove _ hfiles _ => ?_⟩
  · obtain ⟨hfiles, hfailed⟩ := hdownloads
    refine ⟨hfiles ▸ hready, fun bytes hbytes => ?_⟩
    obtain ⟨f', hwrite, -⟩ := hwritten bytes
    exact absurd hwrite (hfailed rfl bytes f' (by rw [hbytes]; rfl))
  · cases hr
  · obtain ⟨f', hwrite', hmoved⟩ := hwritten bytes
    obtain rfl : f' = w'.files := Except.ok.inj (hwrite'.symm.trans hwrite)
    obtain ⟨hready'', hcontent⟩ := hmoved moved hmove
    refine ⟨hfiles ▸ hready'', fun other hother => ?_⟩
    rw [hremote] at hother
    rw [hfiles, hcontent, Except.ok.inj hother]

end

/-! ### All files -/

/-- The listed items are paths, and a file that the network delivers is at its place. -/
def Arrived (w : World) (items : List Value) (f : Files) : Prop :=
  ∀ v ∈ items, ∃ path, v = .text path ∧ ∀ bytes, w.outside.remote (address ++ path) = .ok bytes →
    f.contentAt (w.files.wayTo path) = some bytes

/-- **All listed files** that the network delivers have arrived if nothing stopped the work. -/
theorem leaves_updateFiles (hroom : IsRoom room) (hall : Listing all) (hitems : items ⊆ all)
    (h : Ready room all w.files) (hfetching : Fetching room all w.files) :
    Leaves (items.forM (updateFile (temporaryFolder room))) w fun r w' => r = .ok () →
      Arrived w items w'.files := by
  induction items generalizing w with
  | nil => exact leaves_pure fun _ v hv => by cases hv
  | cons v items ih =>
    have hv : v ∈ all := hitems mem_cons_self
    have hrest : items ⊆ all := fun u hu => hitems (mem_cons_of_mem v hu)
    cases v with
    | text path =>
      have hfirst := (leaves_arrival hroom hfetching hv).and
        (leaves_updateText_ready hroom hv hall h hfetching)
      refine hfirst.bind (fun _ w' hend => ?_) fun e w' _ hr => by cases hr
      obtain ⟨⟨houtside, harrives⟩, hend⟩ := hend
      obtain ⟨hready, hcontent⟩ := hend rfl
      have hfetching' := harrives.fetching hfetching
      have hlater := (leaves_arrivals hroom hfetching' hrest).and (ih hrest hready hfetching')
      refine hlater.mono fun r w'' hlater hr u hu => ?_
      obtain ⟨⟨-, hsteps⟩, harrived⟩ := hlater
      rw [houtside] at hsteps
      rcases mem_cons.mp hu with rfl | hu
      · refine ⟨path, rfl, fun bytes hbytes => ?_⟩
        -- what is fetched later to the same place is the same file
        rcases hsteps.content _ (hfetching.outside path hv) with hsame | hagain
        · rw [hsame, hcontent bytes hbytes]
        · obtain ⟨other, found, hother, hway, hfound, heq⟩ := hagain
          rw [wayTo_congr harrives.home] at hway
          obtain rfl := wayTo_injective_of_tidy (hall.tidy other hother) (hall.tidy path hv) hway
          rw [hbytes] at hfound
          rw [heq, Except.ok.inj hfound]
      · obtain ⟨other, rfl, hother⟩ := harrived hr u hu
        rw [houtside, wayTo_congr harrives.home] at hother
        exact ⟨other, rfl, hother⟩
    | _ =>
      refine (leaves_updateFile_of_error rfl).bind (fun _ w' hend => ?_) fun e w' _ hr => by cases hr
      cases hend.1

/-! ### Recorded versions -/

theorem listing_halfPublished : Listing (listed halfPublished.outside.remote) := by
  refine ⟨fun path hpath => ?_, fun path other hpath hother hbelow => ?_⟩
  · rcases mem_listed_halfPublished hpath with rfl | rfl <;> decide
  · rcases mem_listed_halfPublished hpath with rfl | rfl <;>
      rcases mem_listed_halfPublished hother with rfl | rfl
    · rfl
    · exact absurd hbelow (by decide)
    · exact absurd hbelow (by decide)
    · rfl

theorem recorded_halfPublished : (Value.text "2.0").same
    (versionIn (run.doneIn halfPublished).2.files "config.json") = true := by
  decide +kernel

end Update

end ApkWorkshop
