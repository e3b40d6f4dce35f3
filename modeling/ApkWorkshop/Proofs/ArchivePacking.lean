import ApkWorkshop.Proofs.ArchiveLayout
import ApkWorkshop.Proofs.Steps

/-!
# Packing a Folder

Packing writes the archive of the regular files directly in a folder, and nothing else:

* `Entries.files` — the regular files among the entries of a folder;
* `filesIn_names` — these are the files that packing picks by their names;
* `ends_writeRecords` — the records are written one behind the other, and the index remembers where
  each begins;
* `exists_leadsInto_withFile` — writing the output does not change the files that are packed;
* `run_pack_on` — **the run as a whole** leaves at the output what putting the positions into the
  `draft` gives, whatever the bench remembers from before;
* `ends_pack_on` — with ASCII names that is the `archive`, and the run ends well.
-/

namespace ApkWorkshop

open List Files Node

/-! ### Regular files -/

def Node.content? : Node → Option (List UInt8)
  | .file content => some content
  | .folder _ => none

theorem Node.content?_put_cons (node : Node) (name : String) (rest : List String) (new : Node) :
    (node.put (name :: rest) new).content? = node.content? := by
  cases node with
  | file content => cases rest <;> rfl
  | folder entries =>
    cases rest with
    | nil => rfl
    | cons next rest =>
      cases hname : entries.get? name with
      | none => rw [put_cons_cons_of_none hname]
      | some below => rw [put_cons_cons hname]; rfl

/-- The files among the entries of a folder, with their names and contents. -/
def Entries.files (entries : Entries) : List (String × List UInt8) :=
  entries.toList.filterMap fun entry => entry.2.content?.map (entry.1, ·)

namespace Entries

variable {entries : Entries}

theorem mem_files {file : String × List UInt8} :
    file ∈ entries.files ↔ (file.1, Node.file file.2) ∈ entries.toList := by
  obtain ⟨name, content⟩ := file
  rw [files, mem_filterMap]
  constructor
  · rintro ⟨⟨other, node⟩, hmem, heq⟩
    cases node with
    | file bytes =>
      simp only [content?, Option.map_some, Option.some.injEq, Prod.mk.injEq] at heq
      rw [← heq.1, ← heq.2]
      exact hmem
    | folder below => simp [content?] at heq
  · intro hmem
    exact ⟨(name, .file content), hmem, rfl⟩

theorem map_files (entries : Entries) :
    entries.files.map (·.1) = (entries.toList.filter (·.2.content?.isSome)).map (·.1) := by
  rw [files]
  induction entries.toList with
  | nil => rfl
  | cons entry rest ih =>
    obtain ⟨name, node⟩ := entry
    cases node with
    | file content => simpa [content?] using ih
    | folder below => simpa [content?] using ih

theorem Proper.nodup_files (h : entries.Proper) : (entries.files.map (·.1)).Nodup := by
  rw [map_files]
  exact (filter_sublist.map _).nodup h.nodup

theorem Proper.file (h : entries.Proper) {file : String × List UInt8}
    (hfile : file ∈ entries.files) :
    ProperName file.1 ∧ entries.get? file.1 = some (.file file.2) := by
  have hmem := mem_files.mp hfile
  exact ⟨h.name _ (mem_map.mpr ⟨_, hmem, rfl⟩), get?_of_mem h.nodup hmem⟩

theorem Proper.put (h : entries.Proper) {name : String} {old new : Node}
    (hold : entries.get? name = some old) (hcontent : new.content? = old.content?) :
    (entries.put name new).Proper ∧ (entries.put name new).files = entries.files := by
  obtain ⟨before, after, hbefore, hafter⟩ := exists_toList_put new hold
  have hnames : (entries.put name new).names = entries.names := by
    rw [names, names, hbefore, hafter, map_append, map_append, map_cons, map_cons]
  refine ⟨⟨hnames ▸ h.nodup, hnames ▸ h.name⟩, ?_⟩
  rw [files, files, hbefore, hafter, filterMap_append, filterMap_append,
    filterMap_cons, filterMap_cons, hcontent]

end Entries

namespace Archive

variable {f : Files} {folder path output : String} {place spot : List String} {entries : Entries}
  {b : Bench}

/-- **The files that packing picks** are the regular files directly in the folder. -/
theorem filesIn_names (h : f.LeadsInto folder place entries) (hproper : entries.Proper) :
    filesIn f folder entries.names = entries.files.map (·.1) := by
  rw [filesIn, Entries.names, filter_map, Entries.map_files]
  congr 1
  refine filter_congr fun entry hentry => ?_
  have hname := hproper.name entry.1 (mem_map.mpr ⟨entry, hentry, rfl⟩)
  rw [Function.comp, isFile, locate_child h hname, Entries.get?_of_mem hproper.nodup hentry]
  cases entry.2 <;> rfl

/-! ### Steps of work -/

theorem ends_onFiles {change : Files → Except FileFault Files} {files : Files}
    (h : change b.files = .ok files) : Ends (onFiles change) b () { b with files } := by
  refine Ends.bind (ends_get.mpr ⟨rfl, rfl⟩) ?_
  rw [h]
  exact ends_modify.mpr rfl

theorem ends_readFile {bytes : List UInt8} (h : b.files.read path = .ok bytes) :
    Ends (readFile path) b bytes b := by
  refine Ends.bind (ends_get.mpr ⟨rfl, rfl⟩) ?_
  rw [h]
  exact ends_pure.mpr ⟨rfl, rfl⟩

/-! ### Records -/

theorem packedPosition?_putLine (name other : String) (position : Nat) (index : List IndexLine) :
    packedPosition? name (putLine (.packed other position) index) =
      if name = other then some position else packedPosition? name index := by
  induction index with
  | nil => rfl
  | cons line index ih =>
    cases line with
    | found place bytes =>
      have hkey : (IndexLine.packed other position).sameKey (.found place bytes) = false := rfl
      rw [putLine, hkey, if_neg (by simp), packedPosition?, ih, packedPosition?]
    | packed first place =>
      by_cases hfirst : other = first
      · subst hfirst
        rw [putLine, IndexLine.sameKey, if_pos (by simp), packedPosition?, packedPosition?]
        split <;> rfl
      · rw [putLine, IndexLine.sameKey, if_neg (by simpa using hfirst), packedPosition?, ih,
          packedPosition?]
        by_cases hname : name = first
        · rw [if_pos hname, if_pos hname, if_neg (by rintro rfl; exact hfirst hname)]
        · rw [if_neg hname, if_neg hname]

/-- **The records of files** are written one behind the other. Whatever was remembered before, the
index then remembers where each begins. -/
theorem ends_writeRecords {files : List (String × List UInt8)}
    (hnames : (files.map (·.1)).Nodup)
    (hfits : ∀ file ∈ files, fitsWord (recordStride file.2) = true) (written : List UInt8)
    (b : Bench) (hread : ∀ file ∈ files, b.files.read (folder ++ file.1) = .ok file.2) :
    ∃ index, Ends (writeRecords folder written (files.map (·.1))) b
        (written ++ recordsBytes files, none) { b with memory.index := index } ∧
      (∀ line ∈ placed written.length files, packedPosition? line.1 index = some line.2) ∧
      ∀ name ∉ files.map (·.1), packedPosition? name index = packedPosition? name b.memory.index := by
  induction files generalizing written b with
  | nil => exact ⟨b.memory.index, by simp [writeRecords, recordsBytes], by simp [placed], by simp⟩
  | cons file files ih =>
    rw [map_cons, nodup_cons] at hnames
    obtain ⟨index, hends, hplaced, hother⟩ := ih hnames.2
      (fun other hother => hfits other (by simp [hother])) (written ++ recordBytes file.2)
      { b with memory.index := putLine (.packed file.1 written.length) b.memory.index }
      fun other hother => hread other (by simp [hother])
    rw [length_append, length_recordBytes] at hplaced
    refine ⟨index, ?_, ?_, ?_⟩
    · rw [map_cons]
      refine Ends.bind (ends_readFile (hread file (by simp))) (Ends.modify_bind ?_)
      simp only [hfits file mem_cons_self, Bool.not_true, Bool.false_eq_true, if_false]
      simpa [recordsBytes] using hends
    · rw [placed, forall_mem_cons]
      refine ⟨?_, hplaced⟩
      rw [hother _ hnames.1, packedPosition?_putLine, if_pos rfl]
    · intro name hname
      rw [map_cons, mem_cons, not_or] at hname
      rw [hother _ hname.2, packedPosition?_putLine, if_neg hname.1]

/-! ### The whole archive -/

def withFile (f : Files) (place : List String) (content : List UInt8) : Files :=
  { f with root := f.root.put place (.file content) }

theorem ends_write_over (h : f.CanWrite path place) {old : List UInt8} (b : Bench)
    (hb : b.files = withFile f place old) (new : List UInt8) :
    Ends (onFiles (·.write path new)) b () { b with files := withFile f place new } := by
  refine ends_onFiles ?_
  rw [hb, withFile, (h.put old).write new, put_put, withFile]

theorem leadsInto_withFile (h : f.LeadsInto folder place entries) (hout : f.CanWrite output spot)
    (haside : ¬ place <+: spot) (content : List UInt8) :
    (withFile f spot content).LeadsInto folder place entries := by
  have hplace := h.get?
  -- nothing is written above the folder: only folders are there
  have habove : ¬ spot <+: place := by
    rintro ⟨rest, rfl⟩
    have hrest : rest ≠ [] := by
      rintro rfl
      rw [append_nil] at hplace
      exact hout.place.2 entries hplace
    obtain ⟨above, hfolder⟩ := exists_folder_of_get?_append (by rw [hplace]; rfl) hrest
    exact hout.place.2 above hfolder
  obtain ⟨node, hnode, hget⟩ := locate_grows h.found (hout.grows content)
  rw [get?_put_of_aside _ habove haside, hplace, Option.some.injEq] at hget
  exact ⟨h.slash, by rw [withFile, hnode, hget]⟩

theorem packable_files (hproper : entries.Proper) (hascii : ∀ file ∈ entries.files, IsAscii file.1)
    (hsize : archiveSize entries.files < 0x80000000) : Packable entries.files :=
  ⟨hascii, fun _ hfile => (hproper.file hfile).1, hproper.nodup_files, hsize⟩

theorem exists_leadsInto_withFile (h : f.LeadsInto folder place entries) (hproper : entries.Proper)
    (hout : f.CanWrite output spot) (haside : spot.dropLast ≠ place) (content : List UInt8) :
    ∃ entries', (withFile f spot content).LeadsInto folder place entries' ∧ entries'.Proper ∧
      entries'.files = entries.files := by
  by_cases hbelow : place <+: spot
  · obtain ⟨rest, rfl⟩ := hbelow
    have hget := h.get?
    -- the output is no folder, so it stands below the folder; it is not directly there
    obtain ⟨name, next, rest, rfl⟩ : ∃ name next rest', rest = name :: next :: rest' := by
      match rest with
      | [] => exact absurd (by rw [append_nil]; exact hget) (hout.place.2 entries)
      | [name] => exact absurd dropLast_concat haside
      | name :: next :: rest => exact ⟨name, next, rest, rfl⟩
    obtain ⟨-, above, habove⟩ := hout.place.1
    rw [dropLast_append_of_ne_nil (by simp), get?_append, hget, Option.bind_some,
      dropLast_cons_of_ne_nil (by simp), get?_folder_cons] at habove
    obtain ⟨old, hold, -⟩ := Option.bind_eq_some_iff.mp habove
    obtain ⟨hproper', hfiles⟩ := hproper.put hold (content?_put_cons old next rest (.file content))
    have hput : (f.root.put (place ++ name :: next :: rest) (.file content)).get? place =
        some (.folder (entries.put name (old.put (next :: rest) (.file content)))) := by
      rw [put_append hget, get?_put_of_get? hget, put_cons_cons hold]
    obtain ⟨node, hnode, hnode'⟩ := locate_grows h.found (hout.grows content)
    rw [hput, Option.some.injEq] at hnode'
    exact ⟨_, ⟨h.slash, by rw [withFile, hnode, hnode']⟩, hproper', hfiles⟩
  · exact ⟨entries, leadsInto_withFile h hout hbelow content, hproper, rfl⟩

/-- The archive as it is before the positions are put in. -/
def draft (files : List (String × List UInt8)) : List UInt8 :=
  draftIndex (files.map (·.1)) ++ recordsBytes files ++ closing

/-- **Packing a folder** with any names in it: everything is written, the index remembers where each
record begins, and then the positions are put in. How packing ends and what it leaves at the output
is what comes of that. -/
theorem run_pack_on (hfolder : b.files.LeadsInto folder place entries) (hproper : entries.Proper)
    (hfits : ∀ file ∈ entries.files, fitsWord (recordStride file.2) = true)
    (hout : b.files.CanWrite output spot) (haside : spot.dropLast ≠ place) :
    ∃ index r b', (pack folder output).run.run b = (r, b') ∧
      (∀ line ∈ placed (draftIndex (entries.files.map (·.1))).length entries.files,
        packedPosition? line.1 index = some line.2) ∧
      let pass := putPositions index (draft entries.files) 16 (entries.files.map (·.1))
      b'.files = withFile b.files spot pass.1 ∧ r = pass.2.elim (.ok ()) .error := by
  -- the folder as it is listed, behind the empty output
  obtain ⟨listed, hlisted, hproper₁, hfiles₁⟩ :=
    exists_leadsInto_withFile hfolder hproper hout haside []
  have hlist : (withFile b.files spot []).list folder = .ok listed.names := by
    rw [list, hlisted.found]
  have hpick := filesIn_names hlisted hproper₁
  rw [hfiles₁] at hpick
  -- the folder as it is read, behind the draft
  obtain ⟨read, hinto, hproper₂, hfiles₂⟩ := exists_leadsInto_withFile hfolder hproper hout haside
    (draftIndex (entries.files.map (·.1)))
  have hread : ∀ file ∈ entries.files, (withFile b.files spot (draftIndex
      (entries.files.map (·.1)))).read (folder ++ file.1) = .ok file.2 := by
    intro file hfile
    obtain ⟨hname, hget⟩ := hproper₂.file (hfiles₂ ▸ hfile)
    exact read_child hinto hname hget
  obtain ⟨index, hrecords, hplaced, -⟩ := ends_writeRecords hproper.nodup_files hfits
    (draftIndex (entries.files.map (·.1))) { b with
      files := withFile b.files spot (draftIndex (entries.files.map (·.1)))
      memory.count := some (entries.files.map (·.1)).length
      stream := .closed } hread
  have hfirst : Ends (onFiles (·.write output [])) b ()
      { b with files := withFile b.files spot [] } := ends_onFiles (hout.write [])
  obtain ⟨⟨bytes, fault⟩, hpass⟩ : ∃ pass, putPositions index
      (draftIndex (entries.files.map (·.1)) ++ recordsBytes entries.files ++ closing) 16
      (entries.files.map (·.1)) = pass := ⟨_, rfl⟩
  refine ⟨index, fault.elim (.ok ()) .error, { b with
    files := withFile b.files spot bytes
    memory := { b.memory with count := some (entries.files.map (·.1)).length, index }
    stream := .closed
    console := fault.elim (b.console ++ ("File " ++ output ++ " successfully created.") ++ "\n")
      fun _ => b.console }, ?_, hplaced, ?_⟩
  · unfold pack
    rw [hfirst.run_bind, run_modify_bind, run_get_bind]
    simp only [hlist]
    rw [(ends_pure.mpr ⟨rfl, rfl⟩ : Ends (pure listed.names) _ _ _).run_bind]
    simp only [hpick]
    rw [learn, run_modify_bind, (ends_write_over hout _ rfl _).run_bind,
      hrecords.run_bind, run_get_bind]
    simp only [hpass]
    rw [(ends_write_over hout _ rfl _).run_bind]
    cases fault <;> rfl
  · simp only [draft, hpass, and_self]

/-- **Packing a folder** with ASCII names ends well, whatever was packed or unpacked before, and the
archive of its regular files is all that is new. -/
theorem ends_pack_on (hfolder : b.files.LeadsInto folder place entries) (hproper : entries.Proper)
    (h : Packable entries.files) (hout : b.files.CanWrite output spot)
    (haside : spot.dropLast ≠ place) :
    ∃ b', Ends (pack folder output) b () b' ∧
      b'.files = withFile b.files spot (archive entries.files) := by
  have hfits : ∀ file ∈ entries.files, fitsWord (recordStride file.2) = true := by
    intro file hfile
    have hle := recordSize_le_archiveSize hfile
    have hsize := h.size
    rw [recordSize] at hle
    exact fitsWord_natCast (by rw [recordStride]; omega)
  have hdraft : (draftIndex (entries.files.map (·.1))).length =
      16 + indexSize (entries.files.map (·.1)) := by
    rw [draftIndex, length_append, length_headBytes, length_draftEntries]
    intro name hname
    obtain ⟨file, hfile, rfl⟩ := mem_map.mp hname
    exact h.ascii file hfile
  obtain ⟨index, r, b', hrun, hplaced, hfiles, hr⟩ :=
    run_pack_on hfolder hproper hfits hout haside
  rw [hdraft] at hplaced
  have hput := putPositions_draft h hplaced
  rw [← draft] at hput
  rw [hput] at hfiles hr
  exact ⟨b', by rw [Ends, hrun, hr]; rfl, hfiles⟩

end Archive

end ApkWorkshop
