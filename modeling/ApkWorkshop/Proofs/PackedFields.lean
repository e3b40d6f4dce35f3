import ApkWorkshop.Proofs.ArchivePacking

/-!
# Where Everything Stands in an Archive

Packing writes an archive without ever computing its layout: it writes entries with a placeholder,
notes where it is when it writes each record, and walks over the index again to put the positions
in. This module says where each field is found in the archive that comes out, by its position.

All positions follow from two sums, `entryPosition` and `recordPosition`, which grow by multiples of
four.
-/

namespace ApkWorkshop.Archive

open Text List Nat

variable {files : List (String × List UInt8)} {k start : Nat} {bytes after : List UInt8}

/-! ### Fields by their positions -/

/-- An entry of the index stands between two positions: its mark, the position of a record, the
number of bytes of a name, the name, and one to four zero bytes. -/
structure EntryBetween (bytes : List UInt8) (start stop : Nat) (name : String) (record : Nat) :
    Prop where
  aligned : 4 ∣ start
  mark : wordAt? bytes start = some 1
  points : wordAt? bytes (start + 4) = some (record : Int)
  length : wordAt? bytes (start + 8) = some ((encode name).length : Int)
  text : encode name <+: bytes.drop (start + 12)
  padding : ∃ count, 1 ≤ count ∧ count ≤ 4 ∧
    zeros count <+: bytes.drop (start + 12 + (encode name).length) ∧
    stop = start + 12 + (encode name).length + count

/-- A data record stands between two positions: its mark, the way to the second position, counted
from behind that number, the number of bytes of a content, the content, and up to three zero
bytes. -/
structure RecordBetween (bytes : List UInt8) (start stop : Nat) (content : List UInt8) : Prop where
  aligned : 4 ∣ start
  mark : wordAt? bytes start = some 2
  next : ∃ way : Nat, wordAt? bytes (start + 4) = some (way : Int) ∧ start + 8 + way = stop
  length : wordAt? bytes (start + 8) = some (content.length : Int)
  holds : content <+: bytes.drop (start + 12)
  padding : ∃ count ≤ 3, zeros count <+: bytes.drop (start + 12 + content.length) ∧
    stop = start + 12 + content.length + count

/-- **The layout of an archive of files**: the header with the distance to the data, counted from
behind that number, and the number of entries; an entry for every file, one behind the other; a
record for every file, one behind the other, the first one behind the index; and the closing mark
behind the last record. The entry of a file holds the position of its record. -/
structure LaidOut (bytes : List UInt8) (files : List (String × List UInt8))
    (entryAt recordAt : Nat → Nat) : Prop where
  magic : [0x72, 0x61, 0x63, 0x01] <+: bytes
  revision : wordAt? bytes 4 = some 1
  dataStart : ∃ distance : Nat, wordAt? bytes 8 = some (distance : Int) ∧
    distance + 12 = entryAt files.length
  count : wordAt? bytes 12 = some (files.length : Int)
  firstEntry : entryAt 0 = 16
  entry : ∀ k (hk : k < files.length),
    EntryBetween bytes (entryAt k) (entryAt (k + 1)) files[k].1 (recordAt k)
  firstRecord : recordAt 0 = entryAt files.length
  record : ∀ k (hk : k < files.length),
    RecordBetween bytes (recordAt k) (recordAt (k + 1)) files[k].2
  closing : bytes.drop (recordAt files.length) = [0xFF, 0xFF, 0xFF, 0xFF] ++ zeros 4

/-! ### Positions -/

def entryPosition (files : List (String × List UInt8)) (k : Nat) : Nat :=
  16 + indexSize ((files.take k).map (·.1))

def recordPosition (files : List (String × List UInt8)) (k : Nat) : Nat :=
  16 + indexSize (files.map (·.1)) + ((files.take k).map (recordSize ·.2)).sum

theorem four_dvd_indexSize (names : List String) : 4 ∣ indexSize names := by
  refine dvd_sum fun size hsize => ?_
  obtain ⟨name, -, rfl⟩ := mem_map.mp hsize
  rw [entrySize, namePadding]
  omega

theorem four_dvd_recordPosition (files : List (String × List UInt8)) (k : Nat) :
    4 ∣ recordPosition files k := by
  refine dvd_add (dvd_add (by decide) (four_dvd_indexSize _)) ?_
  refine dvd_sum fun size hsize => ?_
  obtain ⟨file, -, rfl⟩ := mem_map.mp hsize
  rw [recordSize, contentPadding]
  omega

theorem entryPosition_succ (hk : k < files.length) :
    entryPosition files (k + 1) = entryPosition files k + entrySize files[k].1 := by
  rw [entryPosition, entryPosition, take_succ_eq_append_getElem hk, map_append, indexSize,
    map_append, sum_append_nat, indexSize, add_assoc]
  rfl

theorem recordPosition_succ (hk : k < files.length) :
    recordPosition files (k + 1) = recordPosition files k + recordSize files[k].2 := by
  rw [recordPosition, take_succ_eq_append_getElem hk, map_append,
    sum_append_nat, ← add_assoc]
  rfl

theorem recordPosition_le (files : List (String × List UInt8)) (k : Nat) :
    recordPosition files k ≤ archiveSize files := by
  have hsum : ((files.take k).map (recordSize ·.2)).sum ≤ (files.map (recordSize ·.2)).sum :=
    ((take_sublist k files).map _).sum_le_sum fun _ _ => zero_le _
  rw [recordPosition, archiveSize]
  omega

/-! ### The archive from a file on -/

theorem placed_append (start : Nat) (files more : List (String × List UInt8)) :
    placed start (files ++ more) =
      placed start files ++ placed (start + (files.map (recordSize ·.2)).sum) more := by
  induction files generalizing start with
  | nil => rfl
  | cons file files ih =>
    rw [cons_append, placed, ih, placed, map_cons, sum_cons, add_assoc]
    rfl

theorem take_append_getElem_drop (hk : k < files.length) :
    files.take k ++ files[k] :: files.drop (k + 1) = files := by
  rw [getElem_cons_drop, take_append_drop]

/-- **An entry of the archive**, which holds the position of the record with its number. -/
theorem drop_entryPosition (h : Packable files) (hk : k < files.length) :
    ∃ after, (archive files).drop (entryPosition files k) =
      entryBytes (recordPosition files k) files[k].1 ++ after := by
  generalize hstart : 16 + indexSize (files.map (·.1)) = start
  have hplaced : placed start files = placed start (files.take k) ++
      (files[k].1, recordPosition files k) ::
        placed (recordPosition files k + recordSize files[k].2) (files.drop (k + 1)) := by
    conv_lhs => rw [← take_append_getElem_drop hk, placed_append]
    rw [placed, recordPosition, hstart]
  have hcut : archive files =
      (headBytes (start - 12 : Nat) files.length ++ indexBytes (placed start (files.take k))) ++
        (entryBytes (recordPosition files k) files[k].1 ++
          (indexBytes (placed (recordPosition files k + recordSize files[k].2)
            (files.drop (k + 1))) ++ (recordsBytes files ++ closing))) := by
    rw [archive, hstart, hplaced, indexBytes, flatMap_append, flatMap_cons]
    simp only [indexBytes, append_assoc]
  have hlength : (headBytes (start - 12 : Nat) files.length ++
      indexBytes (placed start (files.take k))).length = entryPosition files k := by
    rw [length_append, length_headBytes, entryPosition,
      length_indexBytes_placed fun file hfile => h.ascii file (mem_of_mem_take hfile)]
  exact ⟨_, by rw [hcut, drop_left' hlength]⟩

theorem recordsBytes_eq (hk : k < files.length) :
    recordsBytes files = recordsBytes (files.take k) ++
      (recordBytes files[k].2 ++ recordsBytes (files.drop (k + 1))) := by
  conv_lhs => rw [← take_append_getElem_drop hk]
  rw [recordsBytes, flatMap_append, flatMap_cons, recordsBytes, recordsBytes]

theorem drop_recordPosition (h : Packable files) (hk : k < files.length) :
    ∃ after, (archive files).drop (recordPosition files k) = recordBytes files[k].2 ++ after := by
  refine ⟨recordsBytes (files.drop (k + 1)) ++ closing, ?_⟩
  rw [recordPosition, ← drop_drop, drop_archive h.ascii, recordsBytes_eq hk, ← length_recordsBytes,
    append_assoc, drop_left, append_assoc]

/-! ### Fields of entries and records -/

theorem wordAt?_of_drop {rest : List UInt8} {position : Nat} {n : Int}
    (h : bytes.drop position = wordBytes n ++ rest) (hn : fitsWord n = true) :
    wordAt? bytes position = some n := by
  rw [wordAt?, h, take_left' (length_wordBytes n), word?_wordBytes hn]

theorem entryBetween_of_drop {record : Nat} {name : String}
    (h : bytes.drop start = entryBytes record name ++ after) (haligned : 4 ∣ start)
    (hascii : IsAscii name) (hrecord : record < 0x80000000) (hname : name.length < 0x80000000) :
    EntryBetween bytes start (start + entrySize name) name record := by
  rw [entryBytes_eq] at h
  simp only [append_assoc] at h
  have hpoints := drop_behind h
  have hlength := drop_behind hpoints
  have htext := drop_behind hlength
  have hpadding := drop_behind htext
  have hencode := length_encode hascii
  have hbetween : 1 ≤ namePadding name.length ∧ namePadding name.length ≤ 4 := by
    rw [namePadding]
    omega
  refine ⟨haligned, wordAt?_of_drop h (by decide), wordAt?_of_drop hpoints (fitsWord_natCast hrecord),
    ?_, ⟨_, htext.symm⟩, _, hbetween.1, hbetween.2, ⟨_, hpadding.symm⟩, ?_⟩
  · rw [hencode]
    exact wordAt?_of_drop hlength (fitsWord_natCast hname)
  · rw [entrySize]
    omega

theorem recordBetween_of_drop {content : List UInt8}
    (h : bytes.drop start = recordBytes content ++ after) (haligned : 4 ∣ start)
    (hsize : recordSize content < 0x80000000) :
    RecordBetween bytes start (start + recordSize content) content := by
  rw [recordBytes] at h
  simp only [append_assoc] at h
  have hnext := drop_behind h
  have hlength := drop_behind hnext
  have hcontent := drop_behind hlength
  have hpadding := drop_behind hcontent
  have hbetween : contentPadding content.length ≤ 3 := by
    rw [contentPadding]
    omega
  rw [recordSize] at hsize ⊢
  refine ⟨haligned, wordAt?_of_drop h (by decide), ⟨recordStride content,
    wordAt?_of_drop hnext (fitsWord_natCast ?_), ?_⟩,
    wordAt?_of_drop hlength (fitsWord_natCast (by omega)), ⟨_, hcontent.symm⟩,
    _, hbetween, ⟨_, hpadding.symm⟩, by omega⟩ <;> rw [recordStride] <;> omega

/-! ### The whole archive -/

theorem laidOut_archive (h : Packable files) :
    LaidOut (archive files) files (entryPosition files) (recordPosition files) := by
  have hsize := h.size
  have hindex : 16 + indexSize (files.map (·.1)) ≤ archiveSize files := by
    rw [archiveSize]
    omega
  have hend : entryPosition files files.length = 16 + indexSize (files.map (·.1)) := by
    rw [entryPosition, take_length]
  have hmagic : (archive files).drop 0 = Archive.magic ++ (wordBytes Archive.revision ++
      (wordBytes (16 + indexSize (files.map (·.1)) - 12 : Nat) ++ (wordBytes files.length ++
        (indexBytes (placed (16 + indexSize (files.map (·.1))) files) ++
          (recordsBytes files ++ closing))))) := by
    rw [drop_zero, archive, headBytes]
    simp only [append_assoc]
  have hrevision := drop_behind hmagic
  have hdata := drop_behind hrevision
  have hcount := drop_behind hdata
  refine ⟨⟨_, hmagic.symm⟩, wordAt?_of_drop hrevision (by decide),
    ⟨_, wordAt?_of_drop hdata (fitsWord_natCast (by omega)), by omega⟩,
    wordAt?_of_drop hcount (fitsWord_natCast ((length_le_archiveSize files).trans_lt hsize)),
    by simp [entryPosition, indexSize], fun k hk => ?_, ?_, fun k hk => ?_, ?_⟩
  · obtain ⟨after, hentry⟩ := drop_entryPosition h hk
    have hfile := getElem_mem hk
    have hname := entrySize_le_indexSize (mem_map_of_mem (f := (·.1)) hfile)
    have hrecord := recordPosition_le files k
    rw [entrySize] at hname
    rw [entryPosition_succ hk]
    exact entryBetween_of_drop hentry (dvd_add (by decide) (four_dvd_indexSize _)) (h.ascii _ hfile)
      (by omega) (by omega)
  · simp [hend, recordPosition]
  · obtain ⟨after, hrecord⟩ := drop_recordPosition h hk
    have hle := recordSize_le_archiveSize (getElem_mem hk)
    rw [recordPosition_succ hk]
    exact recordBetween_of_drop hrecord (four_dvd_recordPosition files k) (by omega)
  · rw [recordPosition, take_length, ← drop_drop, drop_archive h.ascii,
      ← length_recordsBytes, drop_left]
    rfl

/-- **Packing** a folder, on any bench. Let the names of the regular files in the folder be ASCII
and their archive smaller than 2³¹ bytes, in any order of listing, and let the output not stand
directly in the folder. Then packing ends well, all that is new is an archive at the output, and
everything in the archive stands where the layout says. -/
theorem pack_laidOut {b : Bench} {folder : String} {place : List String} {entries : Entries}
    (hfolder : b.files.LeadsInto folder place entries) (hproper : entries.Proper)
    (hascii : ∀ file ∈ entries.files, IsAscii file.1)
    (hsize : archiveSize entries.files < 0x80000000) {output : String} {spot : List String}
    (hout : b.files.CanWrite output spot) (haside : spot.dropLast ≠ place) :
    ∃ b' bytes entryAt recordAt, Ends (pack folder output) b () b' ∧
      b.files.write output bytes = .ok b'.files ∧ b'.files.read output = .ok bytes ∧
      LaidOut bytes entries.files entryAt recordAt := by
  have hpackable := packable_files hproper hascii hsize
  obtain ⟨b', hends, hfiles⟩ := ends_pack_on hfolder hproper hpackable hout haside
  have hwrite : b.files.write output (archive entries.files) = .ok b'.files := by
    rw [hfiles]
    exact hout.write _
  exact ⟨b', _, _, _, hends, hwrite, Files.read_write hwrite, laidOut_archive hpackable⟩

/-! ### Names and contents of several sizes -/

/-- The entries of a folder whose names and contents leave different rests by four, one of them
empty, and with a folder among them; they are listed in no order of names. -/
def mixedEntries : Entries :=
  .cons "full" (.file [2, 0, 0, 0]) (.cons "a" (.file [1, 2, 3, 4, 5]) (.cons "xyz" (.file [])
    (.cons "s" (.folder .nil) .nil)))

def mixedFiles : Files :=
  ⟨.folder (.cons "d" (.folder mixedEntries) .nil), []⟩

theorem files_mixedEntries :
    mixedEntries.files = [("full", [2, 0, 0, 0]), ("a", [1, 2, 3, 4, 5]), ("xyz", [])] := rfl

theorem proper_mixedEntries : mixedEntries.Proper where
  nodup := by decide
  name := by
    intro name hname
    have hcases : name = "full" ∨ name = "a" ∨ name = "xyz" ∨ name = "s" := by
      simpa [mixedEntries, Entries.names, Entries.toList] using hname
    rcases hcases with rfl | rfl | rfl | rfl <;> constructor <;> decide

/-- The folder is packed into an archive in the folder below it. -/
theorem pack_laidOut_mixedFiles :
    mixedEntries.Proper ∧ mixedFiles.CanWrite "d/s/o" ["d", "s", "o"] ∧
      archiveSize mixedEntries.files < 0x80000000 ∧
      ∃ b bytes entryAt recordAt, Ends (pack "d/" "d/s/o") { files := mixedFiles } () b ∧
        b.files.read "d/s/o" = .ok bytes ∧
        LaidOut bytes [("full", [2, 0, 0, 0]), ("a", [1, 2, 3, 4, 5]), ("xyz", [])]
          entryAt recordAt := by
  have hparts : Path.parts "d/" = ["d", ""] ∧ Path.parts "d/s/o" = ["d", "s", "o"] := by decide
  have hfolder : mixedFiles.locate "d/" = .found ["d"] (.folder mixedEntries) := by
    rw [Files.locate, if_neg (by decide), if_neg (by decide), hparts.1, if_neg (by decide)]
    simp [mixedFiles, follow, Entries.get?_cons, Node.get?_folder_cons]
  have hvacant : mixedFiles.locate "d/s/o" = .vacant ["d", "s", "o"] false := by
    rw [Files.locate, if_neg (by decide), if_neg (by decide), hparts.2, if_neg (by decide)]
    simp [mixedFiles, mixedEntries, follow, Entries.get?_cons, Node.get?_folder_cons]
  have hout : mixedFiles.CanWrite "d/s/o" ["d", "s", "o"] := ⟨by decide, Or.inr hvacant⟩
  have hsize : archiveSize mixedEntries.files < 0x80000000 := by decide
  obtain ⟨b, bytes, entryAt, recordAt, hends, -, hread, hlaid⟩ := @pack_laidOut
    { files := mixedFiles } _ _ _ ⟨⟨['d'], by decide⟩, hfolder⟩ proper_mixedEntries (by
      intro file hfile
      rw [files_mixedEntries, mem_cons, mem_cons, mem_singleton] at hfile
      rcases hfile with rfl | rfl | rfl <;> simp [IsAscii]) hsize _ _ hout (by decide)
  exact ⟨proper_mixedEntries, hout, hsize, b, bytes, entryAt, recordAt, hends, hread, hlaid⟩

end ApkWorkshop.Archive
