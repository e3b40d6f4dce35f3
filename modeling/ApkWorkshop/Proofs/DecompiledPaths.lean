import ApkWorkshop.Proofs.FolderWalks
import ApkWorkshop.Tool.Decompiler

/-!
# The Paths of Decompiled Files

The path of a decompiled file is that of its source, seen from the input folder, with every ending
of compiled files in it changed: in the name of the file and in those of the folders on the way. The
change can be undone (`Text.replaceFrom_undo`), since it only puts a sign behind each occurrence
which is not part of one. It changes each name on the way for itself (`Text.replaceFrom_append`), so
what lies apart in the input folder lies apart in the output folder:

* `Path.relative_joinAll` — the way from a folder to what lies below it;
* `Decompiler.wayTo_task` — the place of a decompiled file;
* `Decompiler.apart_of_decompiled` — **no two files are decompiled to one path**, or one below the
  other.
-/

namespace ApkWorkshop

open List

/-! ### Replacing a part of a text -/

namespace Text

variable {part new cs : List Char} {c x : Char}

theorem replaceFrom_drop (n : Nat) (cs : List Char) :
    replaceFrom part new n cs = replaceFrom part new 0 (cs.drop n) := by
  induction n generalizing cs with
  | zero => rfl
  | succ n ih =>
    cases cs with
    | nil => rfl
    | cons c rest =>
      rw [replaceFrom, ih]
      rfl

theorem replaceFrom_part (h : part ≠ []) (rest : List Char) :
    replaceFrom part new 0 (part ++ rest) = new ++ replaceFrom part new 0 rest := by
  obtain ⟨c, tail, rfl⟩ := exists_cons_of_ne_nil h
  rw [cons_append, replaceFrom, replaceFrom_drop]
  simp

theorem replaceFrom_cons {rest : List Char} (h : ¬ part <+: c :: rest) :
    replaceFrom part new 0 (c :: rest) = c :: replaceFrom part new 0 rest := by
  rw [replaceFrom, if_neg (by simpa using h)]

theorem prefix_of_prefix_append {xs ys : List Char} (hc : c ∉ part) (h : part <+: xs ++ c :: ys) :
    part <+: xs := by
  rcases prefix_or_prefix_of_prefix h (prefix_append xs (c :: ys)) with h | ⟨rest, rfl⟩
  · exact h
  · cases rest with
    | nil => simp
    | cons d rest =>
      obtain ⟨rfl, -⟩ : d = c ∧ _ :=
        cons_prefix_cons.mp ((prefix_append_right_inj xs).mp h)
      simp at hc

theorem replaceFrom_append (hpart : part ≠ []) (hc : c ∉ part) (xs ys : List Char) :
    replaceFrom part new 0 (xs ++ c :: ys) =
      replaceFrom part new 0 xs ++ c :: replaceFrom part new 0 ys := by
  -- an occurrence in front of the sign takes several steps at once
  induction hlen : xs.length using Nat.strong_induction_on generalizing xs with
  | _ n ih =>
    by_cases hocc : part <+: xs ++ c :: ys
    · obtain ⟨rest, rfl⟩ := prefix_of_prefix_append hc hocc
      have hpos := length_pos_iff.mpr hpart
      rw [length_append] at hlen
      rw [append_assoc, replaceFrom_part hpart, replaceFrom_part hpart,
        ih rest.length (by omega) rest rfl, append_assoc]
    · cases xs with
      | nil => rw [nil_append, replaceFrom_cons hocc]; rfl
      | cons d rest =>
        rw [length_cons] at hlen
        have hfront : ¬ part <+: d :: rest := fun h => hocc (h.trans (prefix_append _ _))
        rw [cons_append] at hocc
        rw [cons_append, replaceFrom_cons hocc, replaceFrom_cons hfront,
          ih rest.length (by omega) rest rfl, cons_append]

theorem prefix_of_prefix_replaceFrom (hpart : part ≠ []) {start : List Char} (hx : x ∉ start)
    (h : start <+: replaceFrom part (part ++ [x]) 0 cs) : start <+: cs := by
  induction cs generalizing start with
  | nil => exact h
  | cons c rest ih =>
    by_cases hocc : part <+: c :: rest
    · obtain ⟨behind, hbehind⟩ := hocc
      rw [← hbehind, replaceFrom_part hpart, append_assoc] at h
      exact (prefix_of_prefix_append hx h).trans ⟨behind, hbehind⟩
    · rw [replaceFrom_cons hocc] at h
      cases start with
      | nil => exact nil_prefix
      | cons d start =>
        obtain ⟨rfl, hrest⟩ := cons_prefix_cons.mp h
        exact cons_prefix_cons.mpr ⟨rfl, ih (fun hmem => hx (by simp [hmem])) hrest⟩

/-- **A sign that is put behind every occurrence** can be taken away again. -/
theorem replaceFrom_undo (hpart : part ≠ []) (hx : x ∉ part) (cs : List Char) :
    replaceFrom (part ++ [x]) part 0 (replaceFrom part (part ++ [x]) 0 cs) = cs := by
  induction hlen : cs.length using Nat.strong_induction_on generalizing cs with
  | _ n ih =>
    by_cases hocc : part <+: cs
    · obtain ⟨rest, rfl⟩ := hocc
      have hpos := length_pos_iff.mpr hpart
      rw [length_append] at hlen
      rw [replaceFrom_part hpart, replaceFrom_part (by simp), ih rest.length (by omega) rest rfl]
    · cases cs with
      | nil => rfl
      | cons c rest =>
        rw [length_cons] at hlen
        -- an occurrence in the changed text was one before
        have hnot : ¬ part ++ [x] <+: c :: replaceFrom part (part ++ [x]) 0 rest := by
          intro h
          rw [← replaceFrom_cons hocc] at h
          exact hocc (prefix_of_prefix_replaceFrom hpart hx ((prefix_append _ _).trans h))
        rw [replaceFrom_cons hocc, replaceFrom_cons hnot, ih rest.length (by omega) rest rfl]

theorem replaceAll_undo {part long : String} (hlong : long.toList = part.toList ++ [x])
    (hpart : part.toList ≠ []) (hx : x ∉ part.toList) (s : String) :
    replaceAll (replaceAll s part long) long part = s := by
  rw [replaceAll, replaceAll, String.toList_ofList, hlong, replaceFrom_undo hpart hx,
    String.ofList_toList]

theorem mem_of_mem_replaceFrom (hc : c ∉ new) {n : Nat} (h : c ∈ replaceFrom part new n cs) :
    c ∈ cs := by
  fun_induction replaceFrom part new n cs with
  | case1 => exact h
  | case2 skip d rest ih => exact mem_cons_of_mem d (ih h)
  | case3 d rest hocc ih =>
    rcases mem_append.mp h with h | h
    · exact absurd h hc
    · exact mem_cons_of_mem d (ih h)
  | case4 d rest hocc ih =>
    rcases mem_cons.mp h with rfl | h
    · exact mem_cons_self
    · exact mem_cons_of_mem d (ih h)

end Text

/-! ### The way from a folder -/

namespace Path

open Text

theorem absolute_eq_wayTo (home : List String) (path : String) :
    absolute home path = (⟨.folder .nil, resolve [] home⟩ : Files).wayTo path := by
  have hsimplify : ∀ names, simplify names = resolve [] names := by
    intro names
    have hstep : (fun way part => if part = "" || part = "." then way
        else if part = ".." then way.dropLast else way ++ [part]) = advance := by
      funext way part
      simp [advance]
    rw [simplify, resolve, hstep]
  rw [absolute, hsimplify, hsimplify, Files.wayTo, Files.origin, resolve_append]
  split <;> rfl

theorem shared_append (xs ys : List String) : shared xs (xs ++ ys) = xs.length := by
  induction xs with
  | nil => cases ys <;> rfl
  | cons x xs ih => simp [shared, ih]

theorem relative_joinAll (home : List String) (start : String) {place : List String}
    (hne : place ≠ []) (hplain : ∀ name ∈ place, PlainName name) :
    relative home (joinAll start place) start = joinWith "/" place := by
  have hway : absolute home (joinAll start place) = absolute home start ++ place := by
    rw [absolute_eq_wayTo, absolute_eq_wayTo, Files.wayTo_joinAll _ start hplain]
  rw [relative, hway, shared_append, Nat.sub_self, replicate_zero, nil_append,
    drop_left, if_neg (by simpa using hne)]

theorem join_relative (dir : String) {name : String} (hname : PlainName name) {s : String}
    (hs : isAbsolute s = false) : join (join dir name) s = join dir name ++ "/" ++ s := by
  have hlist : name.toList ≠ [] := by simpa using hname.ne_empty
  have hlast := getLast?_join dir hname
  have hopen : ¬ (join dir name = "" ∨ (join dir name).toList.getLast? = some '/') := by
    rintro (hempty | hslash)
    · rw [hempty] at hlast
      exact hlist (getLast?_eq_none_iff.mp hlast.symm)
    · rw [hlast] at hslash
      exact hname.no_slash (mem_of_getLast? hslash)
  rw [join, hs, if_neg (by simp), if_neg (by simpa using hopen)]

theorem join_join (dir : String) {name : String} (hname : PlainName name) {s : String}
    (hs : isAbsolute s = false) : join (join dir name) s = join dir (name ++ "/" ++ s) := by
  rw [join_relative dir hname hs, String.append_assoc, ← join_append dir hname,
    ← String.append_assoc]

theorem join_joinWith (dir : String) {names : List String} (hne : names ≠ [])
    (hplain : ∀ name ∈ names, PlainName name) :
    join dir (joinWith "/" names) = joinAll dir names := by
  induction names generalizing dir with
  | nil => exact absurd rfl hne
  | cons name rest ih =>
    have hname := hplain name mem_cons_self
    cases rest with
    | nil => rfl
    | cons next rest =>
      have hrest : ∀ other ∈ next :: rest, PlainName other :=
        fun other hother => hplain other (mem_cons_of_mem name hother)
      have hstart : isAbsolute (joinWith "/" (next :: rest)) = false := by
        cases rest with
        | nil => exact Files.not_isAbsolute_of_plainName (hrest next mem_cons_self)
        | cons third rest =>
          rw [joinWith, String.append_assoc]
          · exact not_isAbsolute_append (hrest next mem_cons_self) _
          · simp
      calc join dir (joinWith "/" (name :: next :: rest))
        _ = join dir (name ++ "/" ++ joinWith "/" (next :: rest)) := rfl
        _ = join (join dir name) (joinWith "/" (next :: rest)) := (join_join dir hname hstart).symm
        _ = joinAll (join dir name) (next :: rest) := ih (join dir name) (by simp) hrest

end Path

/-! ### Decompiled files -/

namespace Tool.Decompiler

open Text

/-- The name of a decompiled file or of a folder on the way to it. -/
def decompiledName (name : String) : String :=
  replaceAll name ".lu" ".lua"

theorem decompiledName_injective : Function.Injective decompiledName := by
  apply Function.LeftInverse.injective (g := fun name => replaceAll name ".lua" ".lu")
  intro name
  exact replaceAll_undo (x := 'a') (by decide) (by decide) (by decide) name

theorem plainName_decompiledName {name : String} (h : PlainName name) :
    PlainName (decompiledName name) where
  ne_empty := fun heq => h.ne_empty (decompiledName_injective (heq.trans (by decide)))
  no_slash := by
    rw [decompiledName, replaceAll, String.toList_ofList]
    exact fun hmem => h.no_slash (mem_of_mem_replaceFrom (by decide) hmem)
  ne_dot := fun heq => h.ne_dot (decompiledName_injective (heq.trans (by decide)))
  ne_dots := fun heq => h.ne_dots (decompiledName_injective (heq.trans (by decide)))

theorem decompiledName_joinWith {names : List String} (hne : names ≠ []) :
    decompiledName (joinWith "/" names) = joinWith "/" (names.map decompiledName) := by
  induction names with
  | nil => exact absurd rfl hne
  | cons name rest ih =>
    cases rest with
    | nil => rfl
    | cons next rest =>
      have hsplit : decompiledName (name ++ "/" ++ joinWith "/" (next :: rest)) =
          decompiledName name ++ "/" ++ decompiledName (joinWith "/" (next :: rest)) := by
        apply String.toList_injective
        simp only [decompiledName, replaceAll, String.toList_append, String.toList_ofList,
          append_assoc]
        exact replaceFrom_append (by decide) (by decide) _ _
      calc decompiledName (joinWith "/" (name :: next :: rest))
        _ = decompiledName name ++ "/" ++ decompiledName (joinWith "/" (next :: rest)) := hsplit
        _ = joinWith "/" ((name :: next :: rest).map decompiledName) := by
            rw [ih (by simp)]
            rfl

theorem wayTo_task (f : Files) (input output : String) {place : List String} (hne : place ≠ [])
    (hproper : ∀ name ∈ place, ProperName name) :
    f.wayTo (task f.home input output (Path.joinAll input place)).2 =
      f.wayTo output ++ place.map decompiledName := by
  have hplain : ∀ name ∈ place, PlainName name := fun name h => (hproper name h).plainName
  have hnames : ∀ name ∈ place.map decompiledName, PlainName name := by
    intro name hname
    obtain ⟨old, hold, rfl⟩ := mem_map.mp hname
    exact plainName_decompiledName (hplain old hold)
  have hpath : (task f.home input output (Path.joinAll input place)).2 =
      Path.joinAll output (place.map decompiledName) := by
    rw [task, outputPath, Path.relative_joinAll f.home input hne hplain, ← decompiledName,
      decompiledName_joinWith hne, Path.join_joinWith output (by simpa using hne) hnames]
  rw [hpath, f.wayTo_joinAll output hnames]

theorem apart_map_decompiledName {a b : List String} (h : Apart a b) :
    Apart (a.map decompiledName) (b.map decompiledName) := by
  have hback : ∀ {a b : List String}, a.map decompiledName <+: b.map decompiledName → a <+: b :=
    fun hab => (prefix_map_iff_of_injective decompiledName_injective).mp hab
  exact ⟨fun hp => h.1 (hback hp), fun hp => h.2 (hback hp)⟩

/-- **No two files are decompiled to one path**, and none to a path below that of another one. -/
theorem apart_of_decompiled {files : Files} (hfiles : files.root.Proper) (input output : String) :
    ((filesEnding files ".lu" input).map (task files.home input output)).Pairwise fun a b =>
      a.2 ≠ b.2 ∧ Apart (files.wayTo a.2) (files.wayTo b.2) := by
  obtain ⟨places, hplaces, hpaths⟩ := files.exists_chosen_places hfiles (fun _ => true) input
    fun entry => endsLike ".lu" entry.2
  have hfound : filesEnding files ".lu" input = places.map (Path.joinAll input) := hpaths
  rw [hfound, map_map, pairwise_map]
  refine hplaces.apart.imp_of_mem fun {a b} ha hb hab => ?_
  have hapart : Apart (files.wayTo (task files.home input output (Path.joinAll input a)).2)
      (files.wayTo (task files.home input output (Path.joinAll input b)).2) := by
    rw [wayTo_task files input output (hplaces.ne_nil a ha) (hplaces.proper a ha),
      wayTo_task files input output (hplaces.ne_nil b hb) (hplaces.proper b hb)]
    exact (apart_map_decompiledName hab).append _
  exact ⟨fun heq => hapart.ne (congrArg files.wayTo heq), hapart⟩

/-- Files whose names look like the decompiled names of others. -/
def lookalikes : Files where
  root := .folder (.cons "lu" (.folder (.cons "a.lu" (.file []) (.cons "a.lua.lu" (.file [])
    (.cons "b.lu" (.folder (.cons "c.LU" (.file []) .nil))
    (.cons "b.lua" (.folder (.cons "c.LU" (.file []) .nil)) .nil))))) .nil)
  home := []

/-- All four outputs lie apart. -/
theorem apart_of_decompiled_lookalikes : lookalikes.root.Proper ∧
    ((filesEnding lookalikes ".lu" "lu").map (task [] "lu" "lua")).map (·.2) =
      ["lua/a.lua", "lua/a.luaa.lua", "lua/b.lua/c.LU", "lua/b.luaa/c.LU"] ∧
    ((filesEnding lookalikes ".lu" "lu").map (task [] "lu" "lua")).Pairwise fun a b =>
      a.2 ≠ b.2 ∧ Apart (lookalikes.wayTo a.2) (lookalikes.wayTo b.2) := by
  have hproper : lookalikes.root.Proper := Node.proper_of_isProper (by decide)
  exact ⟨hproper, by decide, apart_of_decompiled hproper "lu" "lua"⟩

end Tool.Decompiler

end ApkWorkshop
