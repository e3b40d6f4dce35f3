import ApkWorkshop.Proofs.FilePlaces

/-!
# Walks through Folders

A walk lists the files below a folder by the paths of their folders and their names. Seen from the
folder, each of these files has a place:

* `Node.walkPlaces`, `Node.walk_eq_map` — the places of the files, in walk order, and the paths that
  belong to them;
* `Node.mem_walkPlaces_iff`, `Node.nodup_walkPlaces` — in a proper tree a walk lists the files that
  it gets to, and **each of them once**;
* `Apart`, `Files.filePlaces_walkPlaces` — files lie apart: none of them lies below another one;
* `Files.exists_chosen_places` — the paths of the files that are chosen from a walk.
-/

namespace ApkWorkshop

open List ApkWorkshop.Path Node

variable {name : String} {place a b : List String} {node : Node}

/-! ### Paths of places -/

namespace Path

variable {name : String}

theorem not_isAbsolute_append (hname : PlainName name) (s : String) :
    isAbsolute (name ++ s) = false := by
  have hlist : name.toList ≠ [] := by simpa using hname.ne_empty
  have hself := Files.not_isAbsolute_of_plainName hname
  rw [isAbsolute] at hself ⊢
  rwa [String.toList_append, head?_append_of_ne_nil _ hlist]

theorem getLast?_join (dir : String) (hname : PlainName name) :
    (join dir name).toList.getLast? = name.toList.getLast? := by
  have hlist : name.toList ≠ [] := by simpa using hname.ne_empty
  rw [join, Files.not_isAbsolute_of_plainName hname]
  simp only [Bool.false_eq_true, if_false]
  split
  · rw [String.toList_append, getLast?_append_of_ne_nil _ hlist]
  · rw [String.toList_append, getLast?_append_of_ne_nil _ hlist]

theorem join_append (dir : String) (hname : PlainName name) (s : String) :
    join dir (name ++ s) = join dir name ++ s := by
  rw [join, join, Files.not_isAbsolute_of_plainName hname, not_isAbsolute_append hname]
  simp only [Bool.false_eq_true, if_false]
  split <;> simp only [String.append_assoc]

theorem name_entry (dir : String) (hname : PlainName name) : Path.name (join dir name) = name := by
  by_cases hdir : dir = ""
  · rw [hdir, join]
    simpa using (folder_of_not_mem hname.no_slash).2
  · exact Files.name_join hdir hname

theorem joinAll_concat (first : String) (xs : List String) (name : String) :
    joinAll first (xs ++ [name]) = join (joinAll first xs) name :=
  foldl_append

end Path

namespace Files

theorem wayTo_entry (f : Files) (dir : String) {name : String} (hname : PlainName name) :
    f.wayTo (join dir name) = f.wayTo dir ++ [name] := by
  by_cases hdir : dir = ""
  · have hself : join dir name = name := by
      rw [hdir, join]
      simp
    have hparts : parts name = [name] := by
      rw [parts, partsFrom_of_not_mem hname.no_slash]
      simp
    rw [hself, hdir, wayTo, wayTo, hparts, origin, origin, not_isAbsolute_of_plainName hname]
    simp [parts, partsFrom, isAbsolute, advance, hname.ne_empty, hname.ne_dot, hname.ne_dots]
  · exact wayTo_join f hdir hname

/-- **Plain names behind a folder** lead down from that folder. -/
theorem wayTo_joinAll (f : Files) (dir : String) {names : List String}
    (hnames : ∀ name ∈ names, PlainName name) :
    f.wayTo (joinAll dir names) = f.wayTo dir ++ names := by
  induction names generalizing dir with
  | nil => simp [joinAll]
  | cons name rest ih =>
    have hrest := ih (join dir name) fun other hother => hnames other (mem_cons_of_mem name hother)
    rw [wayTo_entry f dir (hnames name mem_cons_self)] at hrest
    rw [joinAll, foldl_cons, ← joinAll, hrest, append_assoc]
    rfl

end Files

/-! ### The places of a walk -/

mutual

/-- The places of the files below a node, in walk order. Folders whose name is not kept are not
entered. -/
def Node.walkPlaces (keep : String → Bool) : Node → List (List String)
  | .file _ => []
  | .folder entries => entries.fileNames.map ([·]) ++ entries.walkPlaces keep

def Entries.walkPlaces (keep : String → Bool) : Entries → List (List String)
  | .nil => []
  | .cons name node rest =>
    (if keep name then (node.walkPlaces keep).map (name :: ·) else []) ++ rest.walkPlaces keep

end

/-- The folder and the name of what a walk finds at a place. -/
def entryAt (path : String) (place : List String) : String × String :=
  (Path.joinAll path place.dropLast, place.getLast?.getD "")

theorem entryAt_cons (path name : String) (h : place ≠ []) :
    entryAt path (name :: place) = entryAt (join path name) place := by
  obtain ⟨next, rest, rfl⟩ := exists_cons_of_ne_nil h
  rw [entryAt]
  rfl

variable {keep : String → Bool}

mutual

theorem Node.ne_nil_of_mem_walkPlaces {place : List String} : ∀ {node : Node},
    place ∈ node.walkPlaces keep → place ≠ []
  | .file _, h => by simp [walkPlaces] at h
  | .folder entries, h => by
      rw [walkPlaces, mem_append, mem_map] at h
      rcases h with ⟨name, -, rfl⟩ | h
      · simp
      · exact Entries.ne_nil_of_mem_walkPlaces h

theorem Entries.ne_nil_of_mem_walkPlaces {place : List String} : ∀ {entries : Entries},
    place ∈ entries.walkPlaces keep → place ≠ []
  | .nil, h => by simp [Entries.walkPlaces] at h
  | .cons name node rest, h => by
      rw [Entries.walkPlaces, mem_append] at h
      rcases h with h | h
      · split at h
        · obtain ⟨below, -, rfl⟩ := mem_map.mp h
          simp
        · cases h
      · exact Entries.ne_nil_of_mem_walkPlaces h

end

mutual

theorem Node.walk_eq_map (path : String) : ∀ node : Node,
    node.walk keep path = (node.walkPlaces keep).map (entryAt path)
  | .file _ => rfl
  | .folder entries => by
      rw [walk, walkPlaces, map_append, map_map, Entries.walkFolders_eq_map path entries]
      rfl

theorem Entries.walkFolders_eq_map (path : String) : ∀ entries : Entries,
    entries.walkFolders keep path = (entries.walkPlaces keep).map (entryAt path)
  | .nil => rfl
  | .cons name node rest => by
      have hnode := Node.walk_eq_map (join path name) node
      rw [Entries.walkFolders, Entries.walkPlaces, map_append, Entries.walkFolders_eq_map path rest]
      congr 1
      split
      · rw [hnode, map_map]
        exact map_congr_left fun place hplace =>
          (entryAt_cons path name (ne_nil_of_mem_walkPlaces hplace)).symm
      · rfl

end

theorem Entries.exists_of_mem_walkPlaces : ∀ {entries : Entries},
    place ∈ entries.walkPlaces keep → ∃ name node below, place = name :: below ∧
      (name, node) ∈ entries.toList ∧ keep name = true ∧ below ∈ node.walkPlaces keep
  | .nil, h => by simp [Entries.walkPlaces] at h
  | .cons name node rest, h => by
      rw [Entries.walkPlaces, mem_append] at h
      rcases h with h | h
      · split at h
        · rename_i hkeep
          obtain ⟨below, hbelow, rfl⟩ := mem_map.mp h
          exact ⟨name, node, below, rfl, mem_cons_self, hkeep, hbelow⟩
        · cases h
      · obtain ⟨other, found, below, hplace, hmem, hrest⟩ := Entries.exists_of_mem_walkPlaces h
        exact ⟨other, found, below, hplace, mem_cons_of_mem _ hmem, hrest⟩

theorem Entries.mem_walkPlaces {below : List String} (hkeep : keep name = true)
    (hbelow : below ∈ node.walkPlaces keep) : ∀ {entries : Entries},
    (name, node) ∈ entries.toList → name :: below ∈ entries.walkPlaces keep
  | .cons other found rest, h => by
      rw [Entries.walkPlaces, mem_append]
      rcases mem_cons.mp h with heq | h
      · cases heq
        exact .inl (by simpa [hkeep] using hbelow)
      · exact .inr (Entries.mem_walkPlaces hkeep hbelow h)

theorem Entries.mem_of_get? : ∀ {entries : Entries},
    entries.get? name = some node → (name, node) ∈ entries.toList
  | .cons other found rest, h => by
      rw [get?_cons] at h
      split at h
      · rename_i heq
        cases h
        exact heq ▸ mem_cons_self
      · exact mem_cons_of_mem _ (Entries.mem_of_get? h)

namespace Node

variable {place : List String} {node : Node}

theorem mem_fileNames_iff {entries : Entries} {name : String} (h : entries.names.Nodup) :
    name ∈ entries.fileNames ↔ ∃ content, entries.get? name = some (.file content) := by
  simp only [Entries.fileNames, mem_map, mem_filter]
  constructor
  · rintro ⟨⟨other, node⟩, ⟨hmem, hfile⟩, rfl⟩
    cases node with
    | file content => exact ⟨content, Entries.get?_of_mem h hmem⟩
    | folder inner => cases hfile
  · exact fun ⟨content, hcontent⟩ => ⟨_, ⟨Entries.mem_of_get? hcontent, rfl⟩, rfl⟩

/-- **A walk lists the files** that it gets to through folders whose names are kept. -/
theorem mem_walkPlaces_iff (hnode : node.Proper) :
    place ∈ node.walkPlaces keep ↔ place ≠ [] ∧ (∀ name ∈ place.dropLast, keep name = true) ∧
      ∃ content, node.get? place = some (.file content) := by
  induction place generalizing node with
  | nil => simpa using fun h => ne_nil_of_mem_walkPlaces h rfl
  | cons name below ih =>
    cases node with
    | file content => simp [walkPlaces, get?_file_cons]
    | folder entries =>
    rw [walkPlaces, mem_append, get?_folder_cons]
    cases below with
    | nil =>
      have hnone : [name] ∉ entries.walkPlaces keep := fun h => by
        obtain ⟨_, _, _, hplace, -, -, hbelow⟩ := Entries.exists_of_mem_walkPlaces h
        exact ne_nil_of_mem_walkPlaces hbelow (List.cons.inj hplace).2.symm
      simp [hnone, mem_fileNames_iff hnode.entries.nodup]
    | cons next rest =>
      have hfolder : name :: next :: rest ∈ entries.walkPlaces keep ↔ ∃ node, entries.get? name =
          some node ∧ keep name = true ∧ next :: rest ∈ node.walkPlaces keep := by
        refine ⟨fun h => ?_, fun ⟨node, hmem, hkeep, hrest⟩ => ?_⟩
        · obtain ⟨_, node, _, hplace, hmem, hkeep, hrest⟩ := Entries.exists_of_mem_walkPlaces h
          obtain ⟨rfl, rfl⟩ := List.cons.inj hplace
          exact ⟨node, Entries.get?_of_mem hnode.entries.nodup hmem, hkeep, hrest⟩
        · exact Entries.mem_walkPlaces hkeep hrest (Entries.mem_of_get? hmem)
      rw [hfolder, dropLast_cons_of_ne_nil (by simp)]
      cases hfound : entries.get? name with
      | none => simp
      | some found => simpa [and_assoc] using fun _ => ih (hnode.entry hfound)

theorem Proper.properName_of_mem {root : Node} (h : root.Proper)
    (hnode : root.get? place = some node) : ∀ name ∈ place, ProperName name := by
  induction place generalizing root with
  | nil => simp
  | cons first rest ih =>
    cases root with
    | file content => cases hnode
    | folder entries =>
      rw [get?_folder_cons] at hnode
      obtain ⟨found, hfound, hnode⟩ := Option.bind_eq_some_iff.mp hnode
      intro name hname
      rcases mem_cons.mp hname with rfl | hname
      · exact h.entries.name name (Entries.mem_names_of_get? hfound)
      · exact ih (h.entry hfound) hnode name hname

end Node

mutual

theorem Node.nodup_walkPlaces : ∀ {node : Node}, node.Proper → (node.walkPlaces keep).Nodup
  | .file _, _ => nodup_nil
  | .folder entries, h => by
      have hentries := Entries.nodup_walkPlaces h.entries.nodup
        fun name node hmem => h.entry (Entries.get?_of_mem h.entries.nodup hmem)
      have hnames : entries.fileNames.Nodup := (filter_sublist.map _).nodup h.entries.nodup
      rw [walkPlaces]
      refine nodup_append.mpr ⟨hnames.map fun a b hab => by simpa using hab, hentries, ?_⟩
      -- a place below a folder has at least two names
      rintro place hfile other hfolder rfl
      obtain ⟨name, -, rfl⟩ := mem_map.mp hfile
      obtain ⟨first, node, below, hplace, -, -, hbelow⟩ := Entries.exists_of_mem_walkPlaces hfolder
      exact ne_nil_of_mem_walkPlaces hbelow (List.cons.inj hplace).2.symm

theorem Entries.nodup_walkPlaces : ∀ {entries : Entries}, entries.names.Nodup →
    (∀ name node, (name, node) ∈ entries.toList → node.Proper) → (entries.walkPlaces keep).Nodup
  | .nil, _, _ => nodup_nil
  | .cons name node rest, hnodup, hproper => by
      rw [Entries.names_cons, nodup_cons] at hnodup
      have hnode := Node.nodup_walkPlaces (hproper name node mem_cons_self)
      have hrest := Entries.nodup_walkPlaces hnodup.2
        fun other found hmem => hproper other found (mem_cons_of_mem _ hmem)
      rw [Entries.walkPlaces]
      refine nodup_append.mpr ⟨?_, hrest, ?_⟩
      · split
        · exact hnode.map fun a b hab => (List.cons.inj hab).2
        · exact nodup_nil
      · -- no other entry has this name
        rintro place hfirst other hlater rfl
        split at hfirst
        · obtain ⟨below, -, rfl⟩ := mem_map.mp hfirst
          obtain ⟨later, found, below', hplace, hmem, -⟩ := Entries.exists_of_mem_walkPlaces hlater
          obtain ⟨rfl, -⟩ := List.cons.inj hplace
          exact hnodup.1 (mem_map_of_mem hmem)
        · cases hfirst

end

mutual

theorem Node.walkPlaces_sublist : ∀ node : Node,
    (node.walkPlaces keep).Sublist (node.walkPlaces fun _ => true)
  | .file _ => .refl _
  | .folder entries => (Sublist.refl _).append (Entries.walkPlaces_sublist entries)

theorem Entries.walkPlaces_sublist : ∀ entries : Entries,
    (entries.walkPlaces keep).Sublist (entries.walkPlaces fun _ => true)
  | .nil => .refl _
  | .cons name node rest => by
      rw [Entries.walkPlaces, Entries.walkPlaces, if_pos rfl]
      refine Sublist.append ?_ (Entries.walkPlaces_sublist rest)
      split
      · exact (Node.walkPlaces_sublist node).map _
      · exact nil_sublist _

end

/-! ### Files that lie apart -/

/-- Neither place lies on the way to the other. -/
def Apart (a b : List String) : Prop :=
  ¬ a <+: b ∧ ¬ b <+: a

theorem Apart.ne (h : Apart a b) : a ≠ b := by
  rintro rfl
  exact h.1 (prefix_refl _)

theorem Apart.append (h : Apart a b) (above : List String) : Apart (above ++ a) (above ++ b) :=
  ⟨fun hp => h.1 ((prefix_append_right_inj above).mp hp),
    fun hp => h.2 ((prefix_append_right_inj above).mp hp)⟩

theorem Node.apart_of_files {root : Node} {x y : List UInt8} (hne : a ≠ b)
    (ha : root.get? a = some (.file x)) (hb : root.get? b = some (.file y)) : Apart a b := by
  have hnot : ∀ {a b : List String} {x y : List UInt8}, a ≠ b → root.get? a = some (.file x) →
      root.get? b = some (.file y) → ¬ a <+: b := by
    rintro a b x y hne ha hb ⟨rest, rfl⟩
    cases rest with
    | nil => exact hne (by simp)
    | cons name rest =>
      rw [get?_append, ha] at hb
      cases hb
  exact ⟨hnot hne ha hb, hnot hne.symm hb ha⟩

theorem join_entryAt (path : String) (h : place ≠ []) :
    join (entryAt path place).1 (entryAt path place).2 = joinAll path place := by
  obtain ⟨above, name, rfl⟩ := eq_nil_or_concat' place |>.resolve_left h
  rw [entryAt, dropLast_concat, getLast?_concat, joinAll_concat]
  rfl

/-- Places of files seen from a folder: their names are proper, and they lie apart. -/
structure FilePlaces (places : List (List String)) : Prop where
  apart : places.Pairwise Apart
  ne_nil : ∀ place ∈ places, place ≠ []
  proper : ∀ place ∈ places, ∀ name ∈ place, ProperName name

theorem FilePlaces.sublist {places chosen : List (List String)} (h : FilePlaces places)
    (hchosen : chosen.Sublist places) : FilePlaces chosen where
  apart := h.apart.sublist hchosen
  ne_nil place hplace := h.ne_nil place (hchosen.subset hplace)
  proper place hplace := h.proper place (hchosen.subset hplace)

theorem FilePlaces.nodup_joinAll {places : List (List String)} (h : FilePlaces places) (files : Files)
    (path : String) : (places.map (joinAll path)).Nodup := by
  refine pairwise_map.mpr (h.apart.imp_of_mem fun {a b} ha hb hab heq => hab.ne ?_)
  -- the path of a file tells its place
  have hways := congrArg files.wayTo heq
  rw [files.wayTo_joinAll path fun name hname => (h.proper a ha name hname).plainName,
    files.wayTo_joinAll path fun name hname => (h.proper b hb name hname).plainName] at hways
  exact append_cancel_left hways

namespace Files

variable {files : Files} {path : String}

/-- What a path leads to; an empty file if nothing is there. -/
def nodeAt (files : Files) (path : String) : Node :=
  match files.locate path with
  | .found _ node => node
  | _ => .file []

theorem walk_eq_map (files : Files) (keep : String → Bool) (path : String) :
    files.walk keep path = ((files.nodeAt path).walkPlaces keep).map (entryAt path) := by
  rw [walk, nodeAt]
  cases files.locate path with
  | found base node => exact Node.walk_eq_map path node
  | _ => rfl

theorem proper_nodeAt (hfiles : files.root.Proper) (path : String) :
    (files.nodeAt path).Proper := by
  rw [nodeAt]
  split
  · rename_i hlocate
    exact hfiles.below (get?_of_locate hlocate)
  · exact proper_file []

theorem get?_nodeAt {place : List String} (hne : place ≠ []) {content : List UInt8} :
    (files.nodeAt path).get? place = some (.file content) ↔
      files.exists? path = true ∧ files.standing (files.wayTo path ++ place) = some (some content) := by
  obtain ⟨name, rest, rfl⟩ := exists_cons_of_ne_nil hne
  rw [nodeAt, exists?]
  cases hlocate : files.locate path with
  | found base node =>
    rw [standing_file_iff, wayTo_of_locate hlocate, get?_append, get?_of_locate hlocate]
    simp
  | _ => simp [get?_file_cons]

theorem filePlaces_walkPlaces {node : Node} (hnode : node.Proper) :
    FilePlaces (node.walkPlaces keep) := by
  refine ⟨?_, fun place => ne_nil_of_mem_walkPlaces, fun place hplace => ?_⟩
  · refine (Node.nodup_walkPlaces hnode).imp_of_mem fun {a b} ha hb hne => ?_
    obtain ⟨-, -, x, hx⟩ := (mem_walkPlaces_iff hnode).mp ha
    obtain ⟨-, -, y, hy⟩ := (mem_walkPlaces_iff hnode).mp hb
    exact apart_of_files hne hx hy
  · obtain ⟨-, -, content, hcontent⟩ := (mem_walkPlaces_iff hnode).mp hplace
    exact hnode.properName_of_mem hcontent

theorem exists_chosen_places (hfiles : files.root.Proper) (keep : String → Bool) (path : String)
    (chosen : String × String → Bool) :
    ∃ places, FilePlaces places ∧
      ((files.walk keep path).filter chosen).map (fun entry => join entry.1 entry.2) =
        places.map (joinAll path) := by
  have hplaces := (@filePlaces_walkPlaces keep _ (proper_nodeAt hfiles path)).sublist
    (filter_sublist (p := chosen ∘ entryAt path))
  refine ⟨_, hplaces, ?_⟩
  rw [walk_eq_map, filter_map, map_map]
  exact map_congr_left fun place h => join_entryAt path (hplaces.ne_nil place h)

end Files

end ApkWorkshop
