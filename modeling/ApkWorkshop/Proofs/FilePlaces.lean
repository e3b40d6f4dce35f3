import ApkWorkshop.Proofs.FailedImport
import ApkWorkshop.Proofs.ProperTrees

/-!
# What Stands at Each Place

A path is a text, and a place is where it leads. What the operations on files do is told by what
stands at each place before and after.
-/

namespace ApkWorkshop

open List Option Function ApkWorkshop.Path

namespace Files

/-! ### Changes by place -/

variable {f : Files} {name : String}
section

variable {f' f : Files} {path source target : String} {content : List UInt8}
  {place start parts : List String} {root : Node} {entries : Entries}

theorem standing_write (h : f.write path content = .ok f') :
    f'.standing = Function.update f.standing (f.wayTo path) (some (some content)) := by
  obtain ⟨place, hplace, rfl⟩ := canWrite_of_write h
  rw [hplace.wayTo]
  obtain ⟨hfolder, hfree⟩ := hplace.place
  funext other
  by_cases hother : other = place
  · rw [hother, update_self, standing, Node.get?_put_self hfolder]
    rfl
  rw [update_of_ne hother, standing]
  by_cases hbelow : place <+: other
  · -- nothing stands below a file or a free place
    obtain ⟨rest, rfl⟩ := hbelow
    have hrest : rest ≠ [] := by
      rintro rfl
      exact hother (by simp)
    have hnone : f.root.get? (place ++ rest) = none := by
      by_contra hsome
      obtain ⟨entries, hentries⟩ := Node.exists_folder_of_get?_append
        (isSome_iff_ne_none.mpr hsome) hrest
      exact hfree entries hentries
    obtain ⟨name, rest, rfl⟩ := exists_cons_of_ne_nil hrest
    rw [Node.get?_put_append hfolder, standing, hnone, Node.get?_file_cons]
  · exact Node.map_content?_put hfolder _ hbelow

theorem standing_append_of_none (h : f.standing place = none) (rest : List String) :
    f.standing (place ++ rest) = none := by
  rw [standing, map_eq_none_iff] at h ⊢
  rw [Node.get?_append, h]
  rfl

theorem standing_removeFile (hf : f.root.Proper) (h : f.removeFile path = .ok f') :
    f'.standing = Function.update f.standing (f.wayTo path) none := by
  rw [removeFile] at h
  split at h
  · rename_i place content hlocate
    cases h
    have hne := ne_nil_of_locate_file hlocate
    rw [wayTo_of_locate hlocate]
    funext other
    by_cases hbelow : place <+: other
    · obtain ⟨rest, rfl⟩ := hbelow
      rw [standing, Node.get?_remove_append hf hne]
      by_cases hrest : rest = []
      · rw [hrest, append_nil, update_self]
        rfl
      · rw [update_of_ne (by simpa using hrest), standing, Node.get?_append,
          get?_of_locate hlocate]
        obtain ⟨name, rest, rfl⟩ := exists_cons_of_ne_nil hrest
        rfl
    · rw [update_of_ne]
      · exact Node.map_content?_remove hbelow
      · rintro rfl
        exact hbelow (prefix_refl _)
  · cases h
  · cases h

theorem home_removeFile (h : f.removeFile path = .ok f') : f'.home = f.home := by
  rw [removeFile] at h
  split at h
  · cases h
    rfl
  · cases h
  · cases h

theorem standing_removeTree (h : f.removeTree path = .ok f') (hplace : ¬ f.wayTo path <+: place) :
    f'.standing place = f.standing place := by
  rw [removeTree] at h
  split at h
  · rename_i found entries hlocate
    cases h
    rw [wayTo_of_locate hlocate] at hplace
    exact Node.map_content?_remove hplace
  · cases h
  · cases h

theorem move_eq (hsource : f.read source = .ok content) (htarget : f.isFolder target = false)
    (hne : f.wayTo source ≠ f.wayTo target) :
    f.move source target = (f.write target content).bind (·.removeFile source) := by
  obtain ⟨place, hlocate⟩ := exists_locate_of_read hsource
  have hfolder : f.isFolder source = false := by rw [isFolder, hlocate]
  have hsame : f.samePlace source target = false := by
    rw [samePlace, hlocate]
    cases hspot : f.locate target with
    | found other node =>
      rw [wayTo_of_locate hlocate, wayTo_of_locate hspot] at hne
      simpa using hne
    | _ => rfl
  rw [move]
  simp only [htarget, hfolder, hsame, hsource, Bool.false_and, Bool.false_eq_true, if_false]
  rfl

/-- **Moving a file** puts it at the place of the target and leaves its own place free. -/
theorem standing_move (hf : f.root.Proper) (hsource : f.read source = .ok content)
    (htarget : f.isFolder target = false) (hne : f.wayTo source ≠ f.wayTo target)
    (h : f.move source target = .ok f') :
    f'.home = f.home ∧ f'.root.Proper ∧ f'.standing = Function.update
      (Function.update f.standing (f.wayTo target) (some (some content))) (f.wayTo source) none := by
  rw [move_eq hsource htarget hne] at h
  cases hwrite : f.write target content with
  | error fault =>
    rw [hwrite] at h
    cases h
  | ok moved =>
    rw [hwrite] at h
    have hremove : moved.removeFile source = .ok f' := h
    have hhome := home_write hwrite
    have hproper := proper_write hf hwrite
    refine ⟨(home_removeFile hremove).trans hhome, proper_removeFile hproper hremove, ?_⟩
    rw [standing_removeFile hproper hremove, standing_write hwrite, wayTo_congr hhome]

/-! ### Paths to folders -/

theorem exists_folder_of_follow (h : follow root start parts = .found place (.folder entries)) :
    ∃ entries', root.get? start = some (.folder entries') := by
  cases parts with
  | nil =>
    obtain ⟨rfl, hstart⟩ := follow_nil_eq_found h
    exact ⟨entries, hstart⟩
  | cons part rest => exact (follow_cases h trivial).1

theorem follow_of_folders {root' : Node}
    (hroot : ∀ place entries, root.get? place = some (.folder entries) →
      ∃ entries', root'.get? place = some (.folder entries'))
    (h : follow root start parts = .found place (.folder entries)) :
    ∃ entries', follow root' start parts = .found place (.folder entries') := by
  induction parts generalizing start with
  | nil =>
    obtain ⟨rfl, hstart⟩ := follow_nil_eq_found h
    obtain ⟨entries', hentries'⟩ := hroot start entries hstart
    exact ⟨entries', by rw [follow, hentries']⟩
  | cons part rest ih =>
    obtain ⟨above, next, habove, hleads, hnext⟩ := follow_cons_eq_found h
    obtain ⟨above', habove'⟩ := hroot start above habove
    obtain ⟨inner, hinner⟩ := exists_folder_of_follow hnext
    obtain ⟨inner', hinner'⟩ := hroot next inner hinner
    have hleads' : Leads root' start part next := by
      cases hleads with
      | stay hstay => exact .stay hstay
      | up hup => exact .up hup
      | down hname hdown => exact .down hname (by rw [hinner']; rfl)
    rw [hleads'.follow_cons habove']
    exact ih hnext

/-- **A path leads to a folder** as long as no folder goes away. -/
theorem isFolder_of_standing (hhome : f'.home = f.home)
    (hstanding : ∀ place, f.standing place = some none → f'.standing place = some none)
    (h : f.isFolder path = true) : f'.isFolder path = true := by
  have hf' : f' = { f with root := f'.root } := by rw [← hhome]
  obtain ⟨place, entries, hlocate⟩ := exists_locate_of_isFolder h
  obtain ⟨hzero, hempty, hfollow⟩ := locate_eq_follow hlocate trivial
  obtain ⟨entries', hentries'⟩ := follow_of_folders
    (fun place entries hentries => standing_folder_iff.mp
      (hstanding place (standing_folder_iff.mpr ⟨entries, hentries⟩))) hfollow
  rw [isFolder, hf', locate_of_follow hzero hempty, hentries']

theorem standing_of_isFolder (h : f.isFolder path = true) :
    f.standing (f.wayTo path) = some none := by
  obtain ⟨place, entries, hlocate⟩ := exists_locate_of_isFolder h
  rw [wayTo_of_locate hlocate]
  exact standing_folder_iff.mpr ⟨entries, get?_of_locate hlocate⟩

theorem ne_empty_of_isFolder (h : f.isFolder path = true) : path ≠ "" := by
  obtain ⟨place, entries, hlocate⟩ := exists_locate_of_isFolder h
  exact (locate_eq_follow hlocate trivial).2.1

/-! ### A name behind the path of a folder -/

end

/-- **A name behind the path of a folder** leads to the entry with that name, or to the free place for
it. -/
theorem locate_join {dir : String} (hdir : f.isFolder dir = true) (hname : ProperName name) :
    f.locate (join dir name) = match f.root.get? (f.wayTo dir ++ [name]) with
      | some node => .found (f.wayTo dir ++ [name]) node
      | none => .vacant (f.wayTo dir ++ [name]) false := by
  have hne := ne_empty_of_isFolder hdir
  obtain ⟨place, entries, hlocate⟩ := exists_locate_of_isFolder hdir
  obtain ⟨hzero, -, hfollow⟩ := locate_eq_follow hlocate trivial
  obtain ⟨xs, hjoin, hxs⟩ := exists_join_eq hne hname.plainName
  have hparts : parts (join dir name) = partsFrom [] xs ++ [name] := by
    rw [parts, hjoin, partsFrom_append, partsFrom_of_not_mem hname.no_slash]
    simp
  have hxsFollow : follow f.root (f.origin dir) (partsFrom [] xs) =
      .found place (.folder entries) := by
    rw [parts] at hfollow
    rcases hxs with hxs | hxs
    · rwa [hxs] at hfollow
    · rw [hxs, partsFrom_append] at hfollow
      exact follow_of_slash hfollow
  have hzero' : (join dir name).toList.contains (Char.ofNat 0) = false := by
    have hxsZero : xs.contains (Char.ofNat 0) = false := by
      rcases hxs with hxs | hxs <;> · rw [hxs] at hzero; simp_all
    have hnameZero := hname.no_zero
    rw [hjoin]
    simp_all
  have hne' : Path.join dir name ≠ "" := Path.join_ne_empty hne name
  have hplace := get?_of_locate hlocate
  rw [wayTo_of_locate hlocate, locate_of_follow hzero' hne', origin_join f hne hname.plainName,
    hparts, follow_append hxsFollow]
  exact follow_name hplace hname

theorem locate_name (hhome : f.standing f.home = some none) (hname : ProperName name) :
    f.locate name = match f.root.get? (f.home ++ [name]) with
      | some node => .found (f.home ++ [name]) node
      | none => .vacant (f.home ++ [name]) false := by
  obtain ⟨entries, hentries⟩ := standing_folder_iff.mp hhome
  have horigin : f.origin name = f.home := by
    rw [origin, not_isAbsolute_of_plainName hname.plainName]
    rfl
  have hparts : parts name = [name] := by
    rw [parts, partsFrom_of_not_mem hname.no_slash]
    simp
  rw [locate_of_follow hname.no_zero hname.ne_empty, horigin, hparts]
  exact follow_name hentries hname

section

variable {f : Files} {dir name : String} (hdir : f.isFolder dir = true) (hname : ProperName name)
  {content : List UInt8}

include hdir hname

theorem exists?_join :
    f.exists? (join dir name) = (f.standing (f.wayTo dir ++ [name])).isSome := by
  rw [exists?, locate_join hdir hname, standing]
  cases f.root.get? (f.wayTo dir ++ [name]) <;> rfl

theorem isFolder_join :
    f.isFolder (join dir name) = true ↔ f.standing (f.wayTo dir ++ [name]) = some none := by
  rw [isFolder, locate_join hdir hname, standing]
  cases f.root.get? (f.wayTo dir ++ [name]) with
  | none => simp
  | some node => cases node <;> simp [Node.content?]

theorem read_join (h : f.standing (f.wayTo dir ++ [name]) = some (some content)) :
    f.read (join dir name) = .ok content := by
  rw [read, locate_join hdir hname]
  obtain ⟨node, hnode, hcontent⟩ := map_eq_some_iff.mp h
  rw [hnode]
  cases node with
  | file found =>
    obtain rfl : found = content := Option.some.inj hcontent
    rfl
  | folder entries => cases hcontent

theorem canWrite_join (h : f.standing (f.wayTo dir ++ [name]) ≠ some none) :
    f.CanWrite (join dir name) (f.wayTo dir ++ [name]) := by
  refine ⟨getLast?_ne_slash ?_, ?_⟩
  · rw [name_join (ne_empty_of_isFolder hdir) hname.plainName]
    exact hname.ne_empty
  · rw [locate_join hdir hname]
    rw [standing] at h
    cases hnode : f.root.get? (f.wayTo dir ++ [name]) with
    | none => exact .inr rfl
    | some node =>
      cases node with
      | file content => exact .inl ⟨content, rfl⟩
      | folder entries =>
        rw [hnode] at h
        exact absurd rfl h

theorem exists_removeFile_join (h : f.standing (f.wayTo dir ++ [name]) = some (some content)) :
    ∃ f', f.removeFile (join dir name) = .ok f' := by
  obtain ⟨place, hlocate⟩ := exists_locate_of_read (read_join hdir hname h)
  exact ⟨_, by rw [removeFile, hlocate]⟩

end

/-! ### Folders that are there -/

theorem parts_slashes (n : Nat) : partsFrom [] (replicate n '/') = replicate (n + 1) "" := by
  induction n with
  | zero => rfl
  | succ n ih => rw [replicate_succ, partsFrom, ih]; rfl

theorem partsFrom_append_slashes (xs : List Char) (n : Nat) :
    partsFrom [] (xs ++ replicate n '/') = partsFrom [] xs ++ replicate n "" := by
  cases n with
  | zero => simp
  | succ n => rw [replicate_succ, partsFrom_append, parts_slashes]

theorem follow_of_slashes {root node : Node} {start place parts : List String} {n : Nat}
    (h : follow root start (parts ++ replicate n "") = .found place node) :
    follow root start parts = .found place node := by
  induction n with
  | zero => simpa using h
  | succ n ih =>
    rw [replicate_succ', ← append_assoc] at h
    exact ih (follow_of_slash h)

theorem exists_bare (cs : List Char) : ∃ n, cs = bare cs ++ replicate n '/' := by
  rw [bare]
  split
  · exact ⟨0, by simp⟩
  refine ⟨(cs.reverse.takeWhile (· == '/')).length, ?_⟩
  have htake : cs.reverse.takeWhile (· == '/') =
      replicate (cs.reverse.takeWhile (· == '/')).length '/' :=
    eq_replicate_of_mem fun c hc => by simpa using mem_takeWhile_imp hc
  have hsplit := congrArg reverse (takeWhile_append_dropWhile (p := (· == '/')) (l := cs.reverse))
  rw [reverse_append, reverse_reverse, htake, reverse_replicate] at hsplit
  exact hsplit.symm

theorem bare_ne_nil {cs : List Char} (h : cs ≠ []) : bare cs ≠ [] := by
  intro hnil
  obtain ⟨n, hcs⟩ := exists_bare cs
  rw [hnil] at hcs
  rw [bare, if_pos (by rw [hcs]; simp)] at hnil
  exact h hnil

theorem isFolder_bare {path : String} (h : f.isFolder path = true) :
    f.isFolder (String.ofList (bare path.toList)) = true := by
  obtain ⟨place, entries, hlocate⟩ := exists_locate_of_isFolder h
  obtain ⟨hzero, hempty, hfollow⟩ := locate_eq_follow hlocate trivial
  obtain ⟨n, hpath⟩ := exists_bare path.toList
  have hne := bare_ne_nil (show path.toList ≠ [] by simpa using hempty)
  generalize bare path.toList = core at *
  have hcoreZero : (String.ofList core).toList.contains (Char.ofNat 0) = false := by
    simp_all
  have horigin : f.origin (String.ofList core) = f.origin path := by
    rw [origin, origin, isAbsolute, isAbsolute, String.toList_ofList, hpath,
      head?_append_of_ne_nil _ hne]
  rw [parts, hpath, partsFrom_append_slashes] at hfollow
  refine isFolder_of_follow hcoreZero (by simpa [← String.toList_inj] using hne)
    (?_ : _ = Spot.found place (.folder entries))
  rw [horigin, parts, String.toList_ofList, follow_of_slashes hfollow]

theorem isFolder_slash {xs : List Char} (h : f.isFolder (String.ofList xs) = true) :
    f.isFolder (String.ofList (xs ++ ['/'])) = true := by
  obtain ⟨place, entries, hlocate⟩ := exists_locate_of_isFolder h
  obtain ⟨hzero, hne, hfollow⟩ := locate_eq_follow hlocate trivial
  have hxs : xs ≠ [] := by
    rintro rfl
    exact hne rfl
  have hzero' : (String.ofList (xs ++ ['/'])).toList.contains (Char.ofNat 0) = false := by
    simp_all
  have horigin : f.origin (String.ofList (xs ++ ['/'])) = f.origin (String.ofList xs) := by
    rw [origin, origin, isAbsolute, isAbsolute, String.toList_ofList,
      String.toList_ofList, head?_append_of_ne_nil _ hxs]
  rw [parts, String.toList_ofList] at hfollow
  refine isFolder_of_follow hzero' (by simp [← String.toList_inj])
    (?_ : _ = Spot.found place (.folder entries))
  rw [horigin, parts, String.toList_ofList, partsFrom_append]
  exact follow_append_slash hfollow

end Files

theorem Path.exists_eq_append_name {path : String} (hslash : '/' ∈ path.toList) :
    ∃ xs, path.toList = xs ++ '/' :: (name path).toList ∧
      folder path = String.ofList (bare (xs ++ ['/'])) := by
  obtain ⟨ys, xs, hrev, hys⟩ := eq_append_cons_of_mem (mem_reverse.mpr hslash)
  have hpath : path.toList = xs.reverse ++ '/' :: ys.reverse := by
    rw [← reverse_reverse path.toList, hrev, reverse_append, reverse_cons,
      append_assoc, singleton_append]
  have hcut := VersionName.cut_append_slash xs.reverse (show '/' ∉ ys.reverse by simpa using hys)
  have hname : (name path).toList = ys.reverse := by
    rw [name, hpath, hcut, String.toList_ofList]
  exact ⟨xs.reverse, by rw [hname, hpath], by rw [folder, hpath, hcut]⟩

theorem Path.folder_of_not_mem {path : String} (h : '/' ∉ path.toList) :
    Path.folder path = "" ∧ Path.name path = path := by
  rw [folder, name, VersionName.cut_eq_of_not_mem h]
  exact ⟨rfl, String.ofList_toList⟩

namespace Files

variable {f : Files} {path dir name : String}

theorem isFolder_folder (h : f.isFolder path = true) (hslash : '/' ∈ path.toList) :
    f.isFolder (folder path) = true := by
  obtain ⟨xs, hpath, hfolder⟩ := exists_eq_append_name hslash
  obtain ⟨place, entries, hlocate⟩ := exists_locate_of_isFolder h
  obtain ⟨hzero, -, hfollow⟩ := locate_eq_follow hlocate trivial
  have hname : '/' ∉ (name path).toList := (exists_parts_name path).1
  rw [parts, hpath, partsFrom_append, partsFrom_of_not_mem hname] at hfollow
  obtain ⟨above, inner, habove⟩ := exists_follow_above hfollow
  have hdir : f.isFolder (String.ofList (xs ++ ['/'])) = true := by
    have hzero' : (String.ofList (xs ++ ['/'])).toList.contains (Char.ofNat 0) = false := by
      simp_all
    have horigin : f.origin (String.ofList (xs ++ ['/'])) = f.origin path := by
      rw [origin, origin, isAbsolute, isAbsolute, String.toList_ofList, hpath]
      cases xs <;> rfl
    refine isFolder_of_follow hzero' (by simp [← String.toList_inj])
      (?_ : _ = Spot.found above (.folder inner))
    rw [horigin, parts, String.toList_ofList, partsFrom_append]
    exact follow_append_slash habove
  rw [hfolder]
  have hbare := isFolder_bare hdir
  rwa [String.toList_ofList] at hbare

theorem makeFolders_of_isFolder (h : f.isFolder path = true) : f.makeFolders path = (f, none) := by
  have hensure : f.ensureFolder path = (f, none) := by
    obtain ⟨place, entries, hlocate⟩ := exists_locate_of_isFolder (isFolder_bare h)
    have hmake : f.makeFolder path = .error (.occupied path) := by
      rw [makeFolder, locateBare, hlocate]
    rw [ensureFolder, hmake]
    exact if_pos h
  have htrimmed : f.isFolder (if Path.name path = "" then Path.folder path else path) = true := by
    split
    · rename_i hname
      refine isFolder_folder h ?_
      by_contra hslash
      exact ne_empty_of_isFolder h ((folder_of_not_mem hslash).2 ▸ hname)
    · exact h
  rw [makeFolders, makeFoldersFuel]
  generalize (if Path.name path = "" then Path.folder path else path) = trimmed at *
  refine (if_neg fun hcondition => ?_).trans hensure
  simp only [Bool.and_eq_true, decide_eq_true_eq, Bool.not_eq_true', ne_eq] at hcondition
  obtain ⟨⟨hfolder, -⟩, hmissing⟩ := hcondition
  have hslash : '/' ∈ trimmed.toList := by
    by_contra hslash
    exact hfolder (folder_of_not_mem hslash).1
  obtain ⟨place, entries, hlocate⟩ := exists_locate_of_isFolder (isFolder_folder htrimmed hslash)
  rw [exists?, hlocate] at hmissing
  cases hmissing

theorem isFolder_folder_join (hdir : f.isFolder dir = true) (hname : PlainName name) :
    f.isFolder (folder (join dir name)) = true := by
  obtain ⟨xs, hjoin, hxs⟩ := exists_join_eq (ne_empty_of_isFolder hdir) hname
  have hslash : f.isFolder (String.ofList (xs ++ ['/'])) = true := by
    rcases hxs with hxs | hxs
    · exact isFolder_slash (by rwa [← hxs, String.ofList_toList])
    · rwa [← hxs, String.ofList_toList]
  have hbare := isFolder_bare hslash
  rw [String.toList_ofList] at hbare
  rwa [folder, hjoin, VersionName.cut_append_slash xs hname.no_slash]

theorem supply_join (hdir : f.isFolder dir = true) (hname : PlainName name) (content : List UInt8) :
    f.supply (join dir name) (some content) = f.write (join dir name) content := by
  have hfolder := isFolder_folder_join hdir hname
  rw [supply, if_neg (ne_empty_of_isFolder hfolder), makeFolders_of_isFolder hfolder]

end Files

end ApkWorkshop
