import ApkWorkshop.Proofs.FolderWalks
import ApkWorkshop.Tool.Compiler

/-!
# The Search for Scripts

A search for scripts walks through a folder, in the order in which folders are listed. It does not
enter folders whose name starts with `!`, and takes the files that end with `.lua`, in any letter case,
unless their name starts with `!` as well. What it finds is said here by the names on the way to a file,
and not by the walk.
-/

namespace ApkWorkshop

open List

/-! ### Endings in any letter case -/

namespace Text

theorem lowerChar_eq_iff {c d : Char} (hd : d ∈ ".lua".toList) :
    lowerChar c = d ↔ c.toLower = d := by
  have hlow : d.toNat < 118 ∧ d.toNat ≠ 107 ∧ d.toNat ≠ 0 := by
    have hletters : d = '.' ∨ d = 'l' ∨ d = 'u' ∨ d = 'a' := by simpa using hd
    rcases hletters with rfl | rfl | rfl | rfl <;> decide
  -- the only letter beyond ASCII with a lower-case form in ASCII is the sign for kelvin
  have hruns : ∀ run ∈ lowercaseRuns, 118 ≤ run.1 + run.2.2.2 ∨ run = (8490, 1, 1, -8383) := by
    decide +kernel
  have hne : ∀ n, 118 ≤ n ∨ n = 107 → Char.ofNat n ≠ d := by
    rintro n hn rfl
    by_cases hvalid : n.isValidChar
    · have hn' : (Char.ofNat n).toNat = n := by
        rw [Char.ofNat, dif_pos hvalid]
        rfl
      omega
    · exact hlow.2.2 (by rw [Char.ofNat, dif_neg hvalid]; rfl)
  rw [lowerChar]
  split
  · exact Iff.rfl
  rename_i hc
  have hlower : c.toLower = c := dif_neg fun h => hc (Nat.lt_of_le_of_lt h.2 (by decide))
  have hself : c ≠ d := by
    rintro rfl
    omega
  rw [hlower]
  split
  · rename_i first count step distance hfind
    have hrun := find?_some hfind
    simp only [Bool.and_eq_true, decide_eq_true_eq] at hrun
    refine iff_of_false (hne _ ?_) hself
    rcases hruns _ (mem_of_find?_eq_some hfind) with hrun' | hrun'
    · dsimp only at hrun'
      omega
    · cases hrun'
      omega
  · exact Iff.rfl

variable {w s : List Char}

theorem lowerChars_cons (afterCased : Bool) (c : Char) (s : List Char) : ∃ next,
    (∃ d, lowerChars afterCased (c :: s) = d :: lowerChars next s) ∨
      lowerChars afterCased (c :: s) = 'i' :: '\u0307' :: lowerChars next s := by
  rw [lowerChars.eq_def]
  split
  · contradiction
  · rename_i heq
    cases heq
    exact ⟨true, .inr rfl⟩
  · rename_i heq
    cases heq
    exact ⟨true, .inl ⟨_, rfl⟩⟩
  · rename_i heq
    cases heq
    exact ⟨_, .inl ⟨_, rfl⟩⟩

theorem lowerChars_eq_iff (hw : ∀ d ∈ w, d ∈ ".lua".toList) (afterCased : Bool) :
    lowerChars afterCased s = w ↔ s.map Char.toLower = w := by
  have hfirst : ∀ {w c s}, (∀ d ∈ w, d ∈ ".lua".toList) → c ∉ ".lua".toList → c :: s ≠ w := by
    rintro w c s hw hc rfl
    exact hc (hw c mem_cons_self)
  fun_induction lowerChars afterCased s generalizing w with
  | case1 => rfl
  | case2 => exact iff_of_false (hfirst hw (by decide)) (hfirst hw (by decide))
  | case3 => exact iff_of_false (hfirst hw (by split <;> decide)) (hfirst hw (by decide))
  | case4 afterCased c rest h₁ h₂ ih =>
    cases w with
    | nil => simp
    | cons d w =>
      rw [forall_mem_cons] at hw
      simp [lowerChar_eq_iff hw.1, ih hw.2]

/-- **An ending in lower case** is an ending in either case. -/
theorem suffix_lowerChars_iff (hw : ∀ d ∈ w, d ∈ ".lua".toList) (afterCased : Bool) :
    w <:+ lowerChars afterCased s ↔ ∃ e, e <:+ s ∧ e.map Char.toLower = w := by
  induction s generalizing afterCased with
  | nil => simp [lowerChars, eq_comm]
  | cons c s ih =>
    have hwhole := @lowerChars_eq_iff w (c :: s) hw afterCased
    simp only [suffix_cons_iff, or_and_right, exists_or, exists_eq_left]
    obtain ⟨next, ⟨d, heq⟩ | heq⟩ := lowerChars_cons afterCased c s
    · rw [heq, eq_comm] at hwhole
      rw [heq, suffix_cons_iff, hwhole, ih]
    · have hdot : ∀ {s}, w ≠ '\u0307' :: s := by
        rintro s rfl
        exact absurd (hw _ mem_cons_self) (by decide)
      rw [heq, eq_comm] at hwhole
      rw [heq, suffix_cons_iff, hwhole, suffix_cons_iff, ih, or_iff_right hdot]

end Text

open Text

/-! ### Files below a folder -/

namespace Files

variable {files : Files} {path : String} {place : List String}

theorem isFolder_of_get?_append (hpath : files.exists? path = true) (hne : place ≠ [])
    (h : (files.root.get? (files.wayTo path ++ place)).isSome = true) :
    files.isFolder path = true := by
  rw [exists?] at hpath
  split at hpath
  · rename_i base node hlocate
    obtain ⟨entries, hentries⟩ := Node.exists_folder_of_get?_append h hne
    rw [wayTo_of_locate hlocate, get?_of_locate hlocate] at hentries
    rw [isFolder, hlocate, Option.some.inj hentries]
  · cases hpath

theorem isFile_joinAll (hnames : ∀ name ∈ place, ProperName name) (hne : place ≠ [])
    (hpath : files.isFolder path = true) {content : List UInt8}
    (h : files.root.get? (files.wayTo path ++ place) = some (.file content)) :
    files.isFile (Path.joinAll path place) = true := by
  induction place generalizing path with
  | nil => exact absurd rfl hne
  | cons name rest ih =>
    obtain ⟨hname, hnames⟩ := forall_mem_cons.mp hnames
    have hway := wayTo_entry files path hname.plainName
    rw [append_cons] at h
    cases rest with
    | nil =>
      rw [append_nil] at h
      rw [Path.joinAll, foldl_cons, foldl_nil, isFile, locate_join hpath hname, h]
    | cons next rest =>
      -- there is something below the name, so it is that of a folder
      have hfolder := Node.exists_folder_of_get?_append (by rw [h]; rfl) (cons_ne_nil next rest)
      have hdir := (isFolder_join hpath hname).mpr (standing_folder_iff.mpr hfolder)
      rw [← hway] at h
      exact ih hnames (cons_ne_nil next rest) hdir h

end Files

/-- The name ends with `.lua`, in any letter case. -/
def IsLuaName (name : String) : Prop :=
  ∃ e, e <:+ name.toList ∧ e.map Char.toLower = ".lua".toList

namespace Tool.Compiler

theorem endsLike_lua_iff (name : String) : endsLike ".lua" name = true ↔ IsLuaName name := by
  simp only [endsLike, Path.endsWith, isSuffixOf_iff_suffix, lower, String.toList_ofList]
  exact suffix_lowerChars_iff (fun _ hd => hd) false

theorem isExcluded_iff (name : String) : isExcluded name = true ↔ name.toList.head? = some '!' := by
  have hstart : "!".toList = ['!'] := rfl
  rw [isExcluded, Path.startsWith, hstart]
  cases name.toList with
  | nil => simp
  | cons c cs =>
    simp only [List.isPrefixOf, Bool.and_true, beq_iff_eq, head?_cons, Option.some.injEq]
    exact eq_comm

/-- **The search is exact.** Below the folder stand some files, each at one place, and a walk that leaves
nothing out comes to them in an order. The search gives, in that order and once each, exactly the files at
those places where no name on the way starts with `!` and the last one ends with `.lua`, in any letter
case. -/
theorem search_exact {files : Files} (hfiles : files.root.Proper) (path : String) :
    ∃ below chosen : List (List String),
      files.walk (fun _ => true) path = below.map (entryAt path) ∧ below.Nodup ∧
      (∀ place, place ∈ below ↔ place ≠ [] ∧ files.exists? path = true ∧
        ∃ content, files.standing (files.wayTo path ++ place) = some (some content)) ∧
      chosen.Sublist below ∧ (∀ place, place ∈ chosen ↔ place ∈ below ∧
        (∀ name ∈ place, name.toList.head? ≠ some '!') ∧ ∃ name ∈ place.getLast?, IsLuaName name) ∧
      luaFiles files path = chosen.map (Path.joinAll path) ∧ (luaFiles files path).Nodup ∧
      ∀ found ∈ luaFiles files path, files.isFile found = true := by
  have hnode := Files.proper_nodeAt hfiles path
  let below := (files.nodeAt path).walkPlaces fun _ => true
  let found (place : List String) : Bool :=
    !isExcluded (entryAt path place).2 && endsLike ".lua" (entryAt path place).2
  let chosen := ((files.nodeAt path).walkPlaces fun name => !isExcluded name).filter found
  have hbelow : ∀ place, place ∈ below ↔ place ≠ [] ∧ files.exists? path = true ∧
      ∃ content, files.standing (files.wayTo path ++ place) = some (some content) := by
    intro place
    rw [Node.mem_walkPlaces_iff hnode]
    refine and_congr_right fun hne => ?_
    simp [Files.get?_nodeAt hne]
  have hsublist : chosen.Sublist below := filter_sublist.trans (Node.walkPlaces_sublist _)
  have hplaces := (Files.filePlaces_walkPlaces hnode).sublist hsublist
  have hpaths : luaFiles files path = chosen.map (Path.joinAll path) := by
    rw [luaFiles, Files.walk_eq_map, filter_map, map_map]
    exact map_congr_left fun place hplace => join_entryAt path (hplaces.ne_nil place hplace)
  refine ⟨below, chosen, Files.walk_eq_map .., Node.nodup_walkPlaces hnode, hbelow, hsublist,
    fun place => ?_, hpaths, ?_, ?_⟩
  · rw [mem_filter, Node.mem_walkPlaces_iff hnode, Node.mem_walkPlaces_iff hnode]
    by_cases hne : place = []
    · simp [hne]
    obtain ⟨above, name, rfl⟩ := (eq_nil_or_concat' place).resolve_left hne
    simpa [found, entryAt, ← isExcluded_iff, ← endsLike_lua_iff, or_imp, forall_and, and_assoc]
      using and_left_comm
  · rw [hpaths]
    exact hplaces.nodup_joinAll files path
  · intro file hfile
    rw [hpaths] at hfile
    obtain ⟨place, hplace, rfl⟩ := mem_map.mp hfile
    obtain ⟨hne, hexists, content, hstanding⟩ := (hbelow place).mp (hsublist.subset hplace)
    have hget := Files.standing_file_iff.mp hstanding
    have hfolder := Files.isFolder_of_get?_append hexists hne (by rw [hget]; rfl)
    exact Files.isFile_joinAll (hplaces.proper place hplace) hne hfolder hget

/-- Scripts beside and below folders and files that are left out, listed in no order of names. -/
def markedScripts : Files :=
  ⟨.folder (.cons "p" (.folder (.cons "x!.lua" (.file []) (.cons "!old" (.folder
    (.cons "a.lua" (.file []) .nil)) (.cons "sub" (.folder (.cons "B.LUA" (.file [])
    (.cons "!c.lua" (.file []) .nil))) (.cons "y.txt" (.file [])
    (.cons "a.lua" (.file []) .nil)))))) .nil), []⟩

/-- They are found in the order in which they are listed. -/
theorem search_exact_markedScripts : Node.isProper markedScripts.root = true ∧
    luaFiles markedScripts "p" = ["p/x!.lua", "p/a.lua", "p/sub/B.LUA"] ∧
    (luaFiles markedScripts "p").Nodup ∧
    ∀ found ∈ luaFiles markedScripts "p", markedScripts.isFile found = true := by
  have hproper : Node.isProper markedScripts.root = true := by decide
  obtain ⟨_, _, -, -, -, -, -, -, hnodup, hfiles⟩ :=
    search_exact (Node.proper_of_isProper hproper) "p"
  exact ⟨hproper, by decide +kernel, hnodup, hfiles⟩

end Tool.Compiler

end ApkWorkshop
