import ApkWorkshop.Proofs.ArchiveUnpacking

/-!
# Packing and Unpacking

The files of a folder go into an archive and come out of it again.
-/

namespace ApkWorkshop.Archive

open Text List Entries

variable {files : List (String × List UInt8)}

/-- **Unpacking an archive of files** into an empty folder ends well, and the folder holds exactly
these files. -/
theorem ends_unpack (hne : files ≠ []) (h : Packable files) {b : Bench}
    (hindex : b.memory.index = []) {input : String}
    (hread : b.files.read input = .ok (archive files)) {target : String} {place : List String}
    (htarget : b.files.LeadsInto target place .nil) :
    ∃ b' made, Ends (unpack input target) b () b' ∧ b'.files.LeadsInto target place made ∧
      made.toList.Perm (files.map fun file => (file.1, .file file.2)) := by
  obtain ⟨b', made, hends, -, hmade, hperm⟩ :=
    ends_unpack_conforming (conforms_archive hne h) hindex hread htarget
  refine ⟨b', made, hends, hmade, ?_⟩
  have hmap := congrArg (List.map fun file : String × List UInt8 => (file.1, Node.file file.2))
    (map_indexed (16 + indexSize (files.map (·.1))) files)
  rw [map_map] at hmap
  rw [← hmap]
  exact hperm

/-- **Packing and unpacking.** Let a folder hold at least one regular file, let the names of its
regular files be ASCII and their archive smaller than 2³¹ bytes, and let the output stand outside of
the folder, which lists its entries in any order. Then the command packs the folder: it ends well,
and all that is new is the archive at the output. Wherever this archive is later found, the command,
which then knows nothing of the first run, unpacks it into an empty folder: it ends well, and that
folder holds the regular files, with their names and contents, and nothing else. -/
theorem unpack_pack_recreates {f : Files} {folder : String} {place : List String}
    {entries : Entries} (hfolder : f.locate (Path.join folder "") = .found place (.folder entries))
    (hproper : entries.Proper) (hsome : entries.files ≠ [])
    (hascii : ∀ file ∈ entries.files, IsAscii file.1)
    (hsize : archiveSize entries.files < 0x80000000) {output : String} {spot : List String}
    (hout : f.CanWrite output spot) (haside : ¬ place <+: spot) :
    ∃ packed bytes, Ends (command ["-p", folder, output]) { files := f } () packed ∧
      f.write output bytes = .ok packed.files ∧ packed.files.read output = .ok bytes ∧
      bytes.length = archiveSize entries.files ∧
      ∀ (later : Files) (input target : String) (corner : List String),
        later.read input = .ok bytes →
        later.locate (Path.join target "") = .found corner (.folder .nil) →
        ∃ unpacked made, Ends (command ["-u", input, target]) { files := later } () unpacked ∧
          unpacked.files.locate (Path.join target "") = .found corner (.folder made) ∧
          made.toList.Perm (entries.files.map fun file => (file.1, .file file.2)) := by
  have hpackable := packable_files hproper hascii hsize
  obtain ⟨packed, hpack, hfiles⟩ :=
    ends_pack_on (b := { files := f }) (Files.leadsInto_join hfolder) hproper hpackable hout
      fun heq => haside (heq ▸ dropLast_prefix spot)
  have hwrite : f.write output (archive entries.files) = .ok packed.files := by
    rw [hfiles]
    exact hout.write _
  refine ⟨packed, archive entries.files, hpack, hwrite, Files.read_write hwrite,
    length_archive hascii, fun later input target corner hread htarget => ?_⟩
  obtain ⟨unpacked, made, hunpack, hmade, hperm⟩ := @ends_unpack _ hsome hpackable
    { files := later } rfl _ hread _ _ (Files.leadsInto_join htarget)
  exact ⟨unpacked, made, hunpack, hmade.found, hperm⟩

/-! ### Marks in names and contents -/

/-- The entries of a folder in which names and contents hold the bytes of marks: the last name ends
with one, so the search for the records ends inside it. -/
def markedEntries : Entries :=
  .cons "s" (.folder .nil) (.cons "z" (.file [1, 0, 0, 0, 2]) (.cons "\x01\x02" (.file []) .nil))

def markedFiles : Files :=
  ⟨.folder (.cons "d" (.folder markedEntries) (.cons "t" (.folder .nil) .nil)), []⟩

theorem files_markedEntries :
    markedEntries.files = [("z", [1, 0, 0, 0, 2]), ("\x01\x02", [])] := rfl

theorem proper_markedEntries : markedEntries.Proper where
  nodup := by decide
  name := by
    intro name hname
    have hcases : name = "s" ∨ name = "z" ∨ name = "\x01\x02" := by
      simpa [markedEntries, names, toList] using hname
    rcases hcases with rfl | rfl | rfl <;> constructor <;> decide

theorem locate_markedFiles :
    markedFiles.locate (Path.join "d" "") = .found ["d"] (.folder markedEntries) ∧
      markedFiles.locate (Path.join "t" "") = .found ["t"] (.folder .nil) ∧
      markedFiles.locate "o" = .vacant ["o"] false := by
  have hparts : Path.parts (Path.join "d" "") = ["d", ""] ∧
      Path.parts (Path.join "t" "") = ["t", ""] ∧ Path.parts "o" = ["o"] := by decide
  refine ⟨?_, ?_, ?_⟩
  · rw [Files.locate, if_neg (by decide), hparts.1, if_neg (by decide)]
    simp [markedFiles, follow, get?_cons, Node.get?_folder_cons]
  · rw [Files.locate, if_neg (by decide), hparts.2.1, if_neg (by decide)]
    simp [markedFiles, follow, get?_cons, Node.get?_folder_cons]
  · rw [Files.locate, hparts.2.2]
    simp [markedFiles, follow, get?_cons]

/-- The files come out of their archive as they were, and the folder among them does not. -/
theorem unpack_pack_markedFiles :
    markedEntries.Proper ∧ markedFiles.CanWrite "o" ["o"] ∧
      archiveSize markedEntries.files < 0x80000000 ∧
      ∃ packed unpacked made, Ends (command ["-p", "d", "o"]) { files := markedFiles } () packed ∧
        Ends (command ["-u", "o", "t"]) { files := packed.files } () unpacked ∧
        unpacked.files.locate (Path.join "t" "") = .found ["t"] (.folder made) ∧
        made.toList.Perm [("z", .file [1, 0, 0, 0, 2]), ("\x01\x02", .file [])] := by
  obtain ⟨hfolder, htarget, hvacant⟩ := locate_markedFiles
  have hout : markedFiles.CanWrite "o" ["o"] := ⟨by decide, Or.inr hvacant⟩
  have hsize : archiveSize markedEntries.files < 0x80000000 := by decide
  obtain ⟨packed, bytes, hpack, hwrite, hread, -, hunpack⟩ :=
    unpack_pack_recreates hfolder proper_markedEntries (by simp [files_markedEntries]) (by
      intro file hfile
      rw [files_markedEntries, mem_cons, mem_singleton] at hfile
      rcases hfile with rfl | rfl <;> simp [IsAscii]) hsize hout (by decide)
  have hfiles : packed.files = withFile markedFiles ["o"] bytes :=
    (Except.ok.inj ((hout.write bytes).symm.trans hwrite)).symm
  obtain ⟨unpacked, made, hends, hmade, hperm⟩ := hunpack packed.files "o" "t" ["t"] hread (by
    rw [hfiles]
    exact (leadsInto_withFile (Files.leadsInto_join htarget) hout (by decide) bytes).found)
  exact ⟨proper_markedEntries, hout, hsize, packed, unpacked, made, hpack, hends, hmade, hperm⟩

end ApkWorkshop.Archive
