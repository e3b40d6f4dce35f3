import ApkWorkshop.Proofs.FolderWalks

/-!
# Folders That Are Made

Making a folder makes the folders above it first. Below a folder that is there this cannot fail, as
long as no file is on the way.
-/

namespace ApkWorkshop

open List Function ApkWorkshop.Path

/-! ### Bare paths -/

namespace Path

variable {dir name : String} {names : List String}

theorem bare_append_slash {cs : List Char} (hne : cs ≠ []) (h : cs.getLast? ≠ some '/') :
    bare (cs ++ ['/']) = cs := by
  have hcs := bare_eq_self h
  obtain ⟨c, hlast⟩ := Option.ne_none_iff_exists'.mp (mt getLast?_eq_none_iff.mp hne)
  have hc : (c == '/') = false := by
    rw [beq_eq_false_iff_ne]
    rintro rfl
    exact h hlast
  have hmixed : cs.all (· == '/') = false := by
    rw [all_eq_false]
    exact ⟨c, mem_of_getLast? hlast, by rw [hc]; simp⟩
  rw [bare, hmixed, if_neg (by simp)] at hcs
  rw [bare, all_append, hmixed, if_neg (by simp), reverse_append,
    reverse_singleton, singleton_append, dropWhile_cons_of_pos (by rfl), hcs]

theorem bare_join (dir : String) (hname : PlainName name) :
    bare (join dir name).toList = (join dir name).toList := by
  refine bare_eq_self ?_
  rw [getLast?_join dir hname]
  exact fun h => hname.no_slash (mem_of_getLast? h)

theorem folder_join (hne : dir ≠ "") (hbare : bare dir.toList = dir.toList)
    (hname : PlainName name) : folder (join dir name) = dir := by
  have hlist : dir.toList ≠ [] := by simpa using hne
  rw [join, Files.not_isAbsolute_of_plainName hname]
  simp only [Bool.false_eq_true, if_false, hne, decide_false, Bool.false_or]
  split
  · rename_i hslash
    obtain ⟨xs, hxs⟩ := getLast?_eq_some_iff.mp (eq_of_beq hslash)
    have hpath : (dir ++ name).toList = xs ++ '/' :: name.toList := by
      rw [String.toList_append, hxs, append_assoc, singleton_append]
    rw [folder, hpath, VersionName.cut_append_slash xs hname.no_slash, ← hxs, hbare,
      String.ofList_toList]
  · rename_i hslash
    have hpath : (dir ++ "/" ++ name).toList = dir.toList ++ '/' :: name.toList := by
      simp [String.toList_append]
    have hstrip : bare (dir.toList ++ ['/']) = dir.toList :=
      bare_append_slash hlist (by simpa using hslash)
    rw [folder, hpath, VersionName.cut_append_slash _ hname.no_slash, hstrip, String.ofList_toList]

theorem bare_joinAll (hne : dir ≠ "") (hbare : bare dir.toList = dir.toList)
    (hnames : ∀ name ∈ names, PlainName name) :
    joinAll dir names ≠ "" ∧ bare (joinAll dir names).toList = (joinAll dir names).toList := by
  rcases eq_nil_or_concat names with rfl | ⟨rest, name, rfl⟩
  · exact ⟨hne, hbare⟩
  · have hname : PlainName name := hnames name (by simp)
    rw [concat_eq_append, joinAll_concat]
    refine ⟨fun hempty => ?_, bare_join _ hname⟩
    have hlast := getLast?_join (joinAll dir rest) hname
    rw [hempty] at hlast
    exact hname.ne_empty (by simpa using (getLast?_eq_none_iff.mp hlast.symm))

theorem length_joinAll (dir : String) (hnames : ∀ name ∈ names, PlainName name) :
    dir.length + names.length ≤ (joinAll dir names).length := by
  induction names generalizing dir with
  | nil => exact Nat.le_refl _
  | cons name rest ih =>
    have hname := hnames name mem_cons_self
    have hlength : name.length ≠ 0 := by simpa using hname.ne_empty
    have hjoin : dir.length + name.length ≤ (join dir name).length := by
      rw [join, Files.not_isAbsolute_of_plainName hname]
      simp only [Bool.false_eq_true, if_false]
      split
      · rw [String.length_append]
      · rw [String.length_append, String.length_append]
        omega
    have hrest := ih (join dir name) fun other hother =>
      hnames other (mem_cons_of_mem name hother)
    rw [length_cons]
    change _ ≤ (joinAll (join dir name) rest).length
    omega

/-! ### Paths that do not go up -/

theorem prefix_advance (place : List String) {part : String} (h : part ≠ "..") :
    place <+: advance place part := by
  rw [advance]
  split
  · exact prefix_refl place
  · exact prefix_append place [part]

theorem prefix_resolve (place : List String) {parts : List String} (h : ".." ∉ parts) :
    place <+: resolve place parts := by
  induction parts generalizing place with
  | nil => exact prefix_refl place
  | cons part rest ih =>
    rw [mem_cons, not_or] at h
    exact (prefix_advance place (Ne.symm h.1)).trans (ih (advance place part) h.2)

def Descending (path : String) : Prop :=
  isAbsolute path = true ∧ ".." ∉ parts path

theorem Descending.join (h : Descending dir) (hname : PlainName name) :
    Descending (join dir name) := by
  have hdir : dir ≠ "" := by
    rintro rfl
    exact absurd h.1 (by decide)
  obtain ⟨xs, hjoin, hxs⟩ := Files.exists_parts_join hdir hname
  refine ⟨by rw [Files.isAbsolute_join hdir hname, h.1], ?_⟩
  rw [hjoin, mem_append, not_or, mem_singleton]
  refine ⟨fun hup => h.2 ?_, Ne.symm hname.ne_dots⟩
  rcases hxs with hxs | hxs
  · rw [hxs]
    exact hup
  · rw [hxs]
    exact mem_append_left [""] hup

theorem Descending.joinAll (h : Descending dir) (hnames : ∀ name ∈ names, PlainName name) :
    Descending (joinAll dir names) := by
  induction names generalizing dir with
  | nil => exact h
  | cons name rest ih =>
    exact ih (h.join (hnames name mem_cons_self)) fun other hother =>
      hnames other (mem_cons_of_mem name hother)

theorem Descending.folder {path : String} (h : Descending path) :
    Descending (folder path) ∧ resolve [] (parts (folder path)) <+: resolve [] (parts path) := by
  obtain ⟨habsolute, hdots⟩ := h
  have hhead : path.toList.head? = some '/' := eq_of_beq habsolute
  obtain ⟨xs, hpath, hfolder⟩ := exists_eq_append_name (mem_of_mem_head? hhead)
  obtain ⟨n, hbare⟩ := Files.exists_bare (xs ++ ['/'])
  have hname : '/' ∉ (name path).toList := (exists_parts_name path).1
  have hparts : parts path = partsFrom [] xs ++ [name path] := by
    rw [parts, hpath, partsFrom_append, partsFrom_of_not_mem hname, reverse_nil, nil_append,
      String.ofList_toList]
  -- the parts of the folder are those above the name, up to slashes at the end
  have habove : partsFrom [] xs ++ [""] = parts (Path.folder path) ++ replicate n "" := by
    rw [parts, hfolder, String.toList_ofList, ← Files.partsFrom_append_slashes, ← hbare,
      partsFrom_append]
    rfl
  rw [hparts, mem_append, not_or, mem_singleton] at hdots
  refine ⟨⟨?_, fun hmem => ?_⟩, ?_⟩
  · have hne := Files.bare_ne_nil (show xs ++ ['/'] ≠ [] by simp)
    have hslash : (xs ++ ['/']).head? = some '/' := by
      rw [hpath] at hhead
      cases xs with
      | nil => rfl
      | cons c xs => exact hhead
    rw [hbare, head?_append_of_ne_nil _ hne] at hslash
    rw [isAbsolute, hfolder, String.toList_ofList, hslash]
    rfl
  · have hup : ".." ∈ partsFrom [] xs ++ [""] := by
      rw [habove]
      exact mem_append_left _ hmem
    rw [mem_append] at hup
    exact hup.elim hdots.1 (by decide)
  · have hsame := congrArg (resolve []) habove
    rw [resolve_append, resolve_append, resolve_slashes (by simp),
      resolve_slashes (fun part hpart => eq_of_mem_replicate hpart)] at hsame
    rw [hparts, resolve_append, ← hsame]
    exact prefix_advance _ (Ne.symm hdots.2)

end Path

namespace Files

/-! ### One folder -/

variable {f : Files} {path : String}

theorem exists?_of_isFolder (h : f.isFolder path = true) : f.exists? path = true := by
  obtain ⟨place, entries, hlocate⟩ := exists_locate_of_isFolder h
  rw [exists?, hlocate]

theorem isFolder_of_exists? (h : f.exists? path = true)
    (hfree : ∀ content, f.standing (f.wayTo path) ≠ some (some content)) :
    f.isFolder path = true := by
  rw [exists?] at h
  split at h
  · rename_i place node hlocate
    cases node with
    | folder entries => rw [isFolder, hlocate]
    | file content =>
      refine absurd ?_ (hfree content)
      rw [wayTo_of_locate hlocate, standing, get?_of_locate hlocate]
      rfl
  · cases h

theorem standing_makeFolder {f' : Files} {place : List String} {slash : Bool}
    (hspot : f.locateBare path = .vacant place slash) (h : f.makeFolder path = .ok f') :
    f'.standing = Function.update f.standing place (some none) := by
  rw [makeFolder, hspot, Except.ok.injEq] at h
  obtain ⟨hfolder, hnone⟩ := free_of_locate hspot
  funext other
  rw [← h]
  by_cases hother : other = place
  · rw [hother, update_self, standing, Node.get?_put_self hfolder]
    rfl
  rw [update_of_ne hother, standing]
  by_cases hbelow : place <+: other
  · -- nothing stands below a free place or in an empty folder
    obtain ⟨rest, rfl⟩ := hbelow
    obtain ⟨name, rest, rfl⟩ := exists_cons_of_ne_nil
      (show rest ≠ [] by rintro rfl; exact hother (by simp))
    rw [Node.get?_put_append hfolder, standing, Node.get?_append, hnone]
    rfl
  · exact Node.map_content?_put hfolder _ hbelow

/-- **One folder in another one** can be made unless a file has its name. -/
theorem exists_ensureFolder {dir name : String} (hdir : f.isFolder dir = true)
    (hname : ProperName name)
    (hfree : ∀ content, f.standing (f.wayTo dir ++ [name]) ≠ some (some content)) :
    ∃ f', f.ensureFolder (join dir name) = (f', none) ∧ f'.home = f.home ∧
      (f.root.Proper → f'.root.Proper) ∧
      f'.standing = Function.update f.standing (f.wayTo dir ++ [name]) (some none) := by
  have hbare : f.locateBare (join dir name) = f.locate (join dir name) := by
    rw [locateBare, bare_join dir hname.plainName, String.ofList_toList]
  have hlocate := locate_join hdir hname
  cases hnode : f.root.get? (f.wayTo dir ++ [name]) with
  | none =>
    rw [hnode] at hlocate
    have hspot := hbare.trans hlocate
    have hmake : f.makeFolder (join dir name) =
        .ok { f with root := f.root.put (f.wayTo dir ++ [name]) (.folder .nil) } := by
      rw [makeFolder, hspot]
    exact ⟨{ f with root := f.root.put (f.wayTo dir ++ [name]) (.folder .nil) },
      by rw [ensureFolder, hmake], rfl, fun hf => proper_makeFolder hf hmake,
      standing_makeFolder hspot hmake⟩
  | some node =>
    cases node with
    | file content => exact absurd (by rw [standing, hnode]; rfl) (hfree content)
    | folder entries =>
      have hthere : f.standing (f.wayTo dir ++ [name]) = some none := by
        rw [standing, hnode]
        rfl
      rw [hnode] at hlocate
      refine ⟨f, ?_, rfl, fun hf => hf, ?_⟩
      · have hmake : f.makeFolder (join dir name) = .error (.occupied (join dir name)) := by
          rw [makeFolder, hbare, hlocate]
        rw [ensureFolder, hmake]
        exact if_pos ((isFolder_join hdir hname).mpr hthere)
      · rw [← hthere, update_eq_self]

/-! ### Folders below one another -/

/-- Only folders are new, and they lie on the way from one place down to another. -/
structure Deepens (above names : List String) (f f' : Files) : Prop where
  home : f'.home = f.home
  proper : f.root.Proper → f'.root.Proper
  standing : ∀ place, f'.standing place = f.standing place ∨
    f.standing place = none ∧ f'.standing place = some none ∧
      above <+: place ∧ place <+: above ++ names

namespace Deepens

variable {above names : List String} {f f' : Files}

theorem refl (above names : List String) (f : Files) : Deepens above names f f :=
  ⟨rfl, id, fun _ => .inl rfl⟩

theorem trans {f'' : Files} (h : Deepens above names f f') (h' : Deepens above names f' f'') :
    Deepens above names f f'' := by
  refine ⟨h'.home.trans h.home, h'.proper ∘ h.proper, fun place => ?_⟩
  rcases h.standing place with hsame | ⟨hnone, hnew, hplace⟩
  · rw [← hsame]
    exact h'.standing place
  · refine .inr ⟨hnone, ?_, hplace⟩
    rcases h'.standing place with hsame' | ⟨-, hnew', -⟩
    · rw [hsame', hnew]
    · exact hnew'

theorem no_file (h : Deepens above names f f') {place : List String}
    (hplace : ∀ content, f.standing place ≠ some (some content)) (content : List UInt8) :
    f'.standing place ≠ some (some content) := by
  rcases h.standing place with hsame | ⟨-, hnew, -⟩
  · rw [hsame]
    exact hplace content
  · rw [hnew]
    simp

theorem snoc {name : String} {f'' : Files} (h : Deepens above names f f')
    (hhome : f''.home = f'.home) (hproper : f'.root.Proper → f''.root.Proper)
    (hfree : ∀ content, f.standing (above ++ names ++ [name]) ≠ some (some content))
    (hstanding : f''.standing = Function.update f'.standing (above ++ names ++ [name]) (some none)) :
    Deepens above (names ++ [name]) f f'' := by
  refine ⟨hhome.trans h.home, fun hf => hproper (h.proper hf), fun place => ?_⟩
  rw [hstanding, ← append_assoc]
  by_cases hplace : place = above ++ names ++ [name]
  · subst hplace
    rw [update_self]
    cases hold : f.standing (above ++ names ++ [name]) with
    | none => exact .inr ⟨rfl, rfl, (prefix_append above names).trans (prefix_append _ _),
        prefix_refl _⟩
    | some inner =>
      cases inner with
      | none => exact .inl rfl
      | some content => exact absurd hold (hfree content)
  · rw [update_of_ne hplace]
    rcases h.standing place with hsame | ⟨hnone, hnew, habove, hbelow⟩
    · exact .inl hsame
    · exact .inr ⟨hnone, hnew, habove, hbelow.trans (prefix_append _ _)⟩

end Deepens

section

variable {f f' : Files} {dir name : String} (hne : dir ≠ "")
  (hbare : Path.bare dir.toList = dir.toList) (hname : ProperName name) {n : Nat}

include hne hbare hname

theorem makeFoldersFuel_join (h : f.exists? dir = true) :
    makeFoldersFuel (n + 1) f (join dir name) = f.ensureFolder (join dir name) := by
  have hlast := name_join hne hname.plainName
  have hfolder := folder_join hne hbare hname.plainName
  rw [makeFoldersFuel]
  simp only [hlast, hname.ne_empty, hfolder, h, if_false, Bool.not_true, Bool.and_false,
    Bool.false_eq_true]

theorem makeFoldersFuel_join_of_made (h : f.exists? dir = false)
    (hmade : makeFoldersFuel n f dir = (f', none)) :
    makeFoldersFuel (n + 1) f (join dir name) = f'.ensureFolder (join dir name) := by
  have hlast := name_join hne hname.plainName
  have hfolder := folder_join hne hbare hname.plainName
  rw [makeFoldersFuel]
  simp only [hlast, hname.ne_empty, hfolder, h, hne, hmade, hname.ne_dot, if_false, if_true,
    Bool.not_false, ne_eq, not_false_eq_true, decide_true, Bool.and_self]

end

section

variable {f : Files} {dir : String} (hdir : f.isFolder dir = true)
  (hbare : Path.bare dir.toList = dir.toList) {names : List String}

include hdir hbare

theorem exists_makeFoldersFuel (hne : names ≠ []) (hnames : ∀ name ∈ names, ProperName name)
    (hfree : ∀ above, above <+: names → ∀ content,
      f.standing (f.wayTo dir ++ above) ≠ some (some content)) {n : Nat} (hn : names.length ≤ n) :
    ∃ f', makeFoldersFuel n f (joinAll dir names) = (f', none) ∧
      Deepens (f.wayTo dir) names f f' ∧ f'.isFolder (joinAll dir names) = true := by
  -- the last folder is made in the one that all the other names lead to
  induction names using List.reverseRecOn generalizing n with
  | nil => exact absurd rfl hne
  | append_singleton rest name ih =>
    rw [length_append, length_singleton] at hn
    obtain ⟨n, rfl⟩ : ∃ m, n = m + 1 := ⟨n - 1, by omega⟩
    have hname : ProperName name := hnames name (by simp)
    have hrest : ∀ other ∈ rest, ProperName other := fun other hother =>
      hnames other (mem_append_left [name] hother)
    have hplain : ∀ other ∈ rest, PlainName other := fun other hother =>
      (hrest other hother).plainName
    have hway : f.wayTo (joinAll dir rest) = f.wayTo dir ++ rest :=
      f.wayTo_joinAll dir hplain
    obtain ⟨hnonempty, hbareRest⟩ := bare_joinAll (ne_empty_of_isFolder hdir) hbare hplain
    -- the folders above are there, or they are made
    obtain ⟨f', hrun, hdeepens, habove⟩ : ∃ f',
        makeFoldersFuel (n + 1) f (join (joinAll dir rest) name) =
          f'.ensureFolder (join (joinAll dir rest) name) ∧
        Deepens (f.wayTo dir) rest f f' ∧ f'.isFolder (joinAll dir rest) = true := by
      cases hthere : f.exists? (joinAll dir rest) with
      | true =>
        refine ⟨f, makeFoldersFuel_join hnonempty hbareRest hname hthere, .refl _ _ f,
          isFolder_of_exists? hthere ?_⟩
        rw [hway]
        exact hfree rest (prefix_append rest [name])
      | false =>
        have hrestNe : rest ≠ [] := by
          rintro rfl
          have hexists : f.exists? dir = true := exists?_of_isFolder hdir
          exact absurd (hthere.symm.trans hexists) (by simp)
        obtain ⟨f', hrun, hdeepens, habove⟩ := ih hrestNe hrest
          (fun above h => hfree above (h.trans (prefix_append rest [name])))
          (Nat.le_of_succ_le_succ hn)
        exact ⟨f', makeFoldersFuel_join_of_made hnonempty hbareRest hname hthere hrun, hdeepens,
          habove⟩
    have hfree' := hfree (rest ++ [name]) (prefix_refl _)
    rw [← append_assoc] at hfree'
    have hway' : f'.wayTo (joinAll dir rest) = f.wayTo dir ++ rest := by
      rw [wayTo_congr hdeepens.home, hway]
    obtain ⟨f'', hensure, hhome, hproper, hstanding⟩ := exists_ensureFolder habove hname
      (by rw [hway']; exact hdeepens.no_file hfree')
    rw [hway'] at hstanding
    have hmade := @isFolder_ensureFolder f' (join (joinAll dir rest) name)
      (getLast?_ne_slash (by rw [name_join hnonempty hname.plainName]; exact hname.ne_empty))
      (by rw [hensure])
    rw [hensure] at hmade
    rw [joinAll_concat]
    exact ⟨f'', by rw [hrun, hensure], hdeepens.snoc hhome hproper hfree' hstanding, hmade⟩

/-- **Several folders below one another** can be made unless a file is on the way. -/
theorem exists_makeFolders (hnames : ∀ name ∈ names, ProperName name)
    (hfree : ∀ above, above <+: names → ∀ content,
      f.standing (f.wayTo dir ++ above) ≠ some (some content)) :
    ∃ f', f.makeFolders (joinAll dir names) = (f', none) ∧
      Deepens (f.wayTo dir) names f f' ∧ f'.isFolder (joinAll dir names) = true := by
  by_cases hne : names = []
  · subst hne
    exact ⟨f, makeFolders_of_isFolder hdir, .refl _ _ f, hdir⟩
  · have hlength := length_joinAll dir fun name hname => (hnames name hname).plainName
    exact exists_makeFoldersFuel hdir hbare hne hnames hfree (by omega)

end

/-- **Folders are made on the way to a path** that does not go up, and nowhere else. -/
theorem deepens_makeFolders (f : Files) (h : Path.Descending path) :
    Deepens [] (resolve [] (parts path)) f (f.makeFolders path).1 := by
  generalize hgoal : resolve [] (parts path) = goal
  refine makeFolders_keeps_on (R := Deepens [] goal)
    (P := fun path => Path.Descending path ∧ resolve [] (parts path) <+: goal)
    (.refl [] goal) (fun _ _ _ => .trans)
    (fun path hpath => ⟨hpath.1.folder.1, hpath.1.folder.2.trans hpath.2⟩) ?_ f
    ⟨h, hgoal ▸ prefix_refl _⟩
  intro f f' path ⟨⟨habsolute, _⟩, hway⟩ hmake
  cases hspot : f.locateBare path with
  | vacant place slash =>
    have hstanding := standing_makeFolder hspot hmake
    obtain ⟨-, -, hfollow⟩ := locate_eq_follow hspot trivial
    obtain ⟨-, hnone⟩ := free_of_follow_eq_vacant hfollow
    obtain ⟨n, hbare⟩ := exists_bare path.toList
    have hhead : path.toList.head? = some '/' := eq_of_beq habsolute
    have hne := bare_ne_nil (ne_nil_of_mem (mem_of_mem_head? hhead))
    have hplace : resolve [] (parts path) = place := by
      rw [← resolve_of_follow_eq_vacant hfollow, parts, parts, origin,
        isAbsolute, String.toList_ofList]
      rw [hbare, head?_append_of_ne_nil _ hne] at hhead
      rw [hhead, beq_self_eq_true, if_pos rfl]
      conv_lhs => rw [hbare]
      rw [partsFrom_append_slashes, resolve_append,
        resolve_slashes fun part hpart => eq_of_mem_replicate hpart]
    rw [hplace] at hway
    refine ⟨?_, fun hf => proper_makeFolder hf hmake, fun other => ?_⟩
    · rw [makeFolder, hspot] at hmake
      cases hmake
      rfl
    · rw [hstanding]
      by_cases hother : other = place
      · rw [hother, update_self, standing, hnone]
        exact .inr ⟨rfl, rfl, nil_prefix, hway⟩
      · exact .inl (update_of_ne hother _ _)
  | _ =>
    rw [makeFolder, hspot] at hmake
    cases hmake

end Files

end ApkWorkshop
