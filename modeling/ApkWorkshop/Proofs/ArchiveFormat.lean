import ApkWorkshop.Proofs.ArchiveLayout

/-!
# The Archive Format

What an archive has to be for its reader, no matter who wrote it. The index names files and the
positions of their records; how many zeros stand behind a name, where the records stand and what
else stands between them is left open.
-/

namespace ApkWorkshop.Archive

open Text List

variable {files : List (String × List UInt8)}

/-- A file of an archive: its name, the number of zero bytes behind the name in the index, the
position of its record and its content. -/
structure IndexedFile where
  name : String
  padding : Nat
  position : Nat
  content : List UInt8

namespace IndexedFile

def entryBytes (file : IndexedFile) : List UInt8 :=
  wordBytes entryMark ++ (wordBytes file.position ++ (wordBytes (encode file.name).length ++
    (encode file.name ++ zeros file.padding)))

theorem length_entryBytes (file : IndexedFile) :
    file.entryBytes.length = 12 + (encode file.name).length + file.padding := by
  simp only [entryBytes, length_append, length_wordBytes, zeros, length_replicate]
  omega

/-- The record of a file is complete and stands at its position. The way to the next record may be
any number. -/
def StoredIn (file : IndexedFile) (bytes : List UInt8) : Prop :=
  file.content.length < 0x80000000 ∧ ∃ next rest, fitsWord next = true ∧
    bytes.drop file.position = wordBytes recordMark ++ (wordBytes next ++
      (wordBytes file.content.length ++ (file.content ++ rest)))

end IndexedFile

/-- **A conforming archive** of files: a header with any revision and any distance to the data, an
entry for every file, and behind them whatever holds a record at the position of each. The files
have different proper names and different positions. -/
structure Conforms (bytes : List UInt8) (files : List IndexedFile) : Prop where
  layout : ∃ revision dataStart rest, fitsWord revision = true ∧ fitsWord dataStart = true ∧
    bytes = magic ++ (wordBytes revision ++ (wordBytes dataStart ++ (wordBytes files.length ++
      (files.flatMap IndexedFile.entryBytes ++ rest))))
  some : files ≠ []
  count : files.length < 0x80000000
  names : (files.map (·.name)).Nodup
  proper : ∀ file ∈ files, ProperName file.name
  named : ∀ file ∈ files, (encode file.name).length < 0x80000000
  positions : (files.map (·.position)).Nodup
  behind : ∀ file ∈ files, 16 + (files.flatMap IndexedFile.entryBytes).length ≤ file.position
  fits : ∀ file ∈ files, file.position < 0x80000000
  stored : ∀ file ∈ files, file.StoredIn bytes

/-! ### Archives that packing writes -/

/-- Files with the places that packing gives them, the records beginning at a position. -/
def indexed (start : Nat) : List (String × List UInt8) → List IndexedFile
  | [] => []
  | (name, content) :: rest =>
    ⟨name, namePadding name.length, start, content⟩ :: indexed (start + recordSize content) rest

theorem map_indexed (start : Nat) (files : List (String × List UInt8)) :
    (indexed start files).map (fun file => (file.name, file.content)) = files := by
  induction files generalizing start with
  | nil => rfl
  | cons file files ih => rw [indexed, map_cons, ih]

theorem map_indexed_placed (start : Nat) (files : List (String × List UInt8)) :
    (indexed start files).map (fun file => (file.name, file.position)) = placed start files := by
  induction files generalizing start with
  | nil => rfl
  | cons file files ih => rw [indexed, map_cons, ih, placed]

theorem flatMap_indexed (h : ∀ file ∈ files, IsAscii file.1) (start : Nat) :
    (indexed start files).flatMap IndexedFile.entryBytes = indexBytes (placed start files) := by
  induction files generalizing start with
  | nil => rfl
  | cons file files ih =>
    have hentry : IndexedFile.entryBytes ⟨file.1, namePadding file.1.length, start, file.2⟩ =
        entryBytes start file.1 := by
      rw [entryBytes_eq, IndexedFile.entryBytes, length_encode (h file (by simp))]
    have hrest := ih (fun other hother => h other (by simp [hother])) (start + recordSize file.2)
    rw [indexBytes] at hrest ⊢
    rw [indexed, flatMap_cons, hentry, hrest, placed, flatMap_cons]

theorem storedIn_of_recordsBytes {bytes rest : List UInt8} {start : Nat}
    (hfits : ∀ file ∈ files, recordSize file.2 < 0x80000000)
    (h : bytes.drop start = recordsBytes files ++ rest) :
    ∀ file ∈ indexed start files, file.StoredIn bytes := by
  induction files generalizing start with
  | nil => simp [indexed]
  | cons file files ih =>
    have hsize := hfits file (by simp)
    rw [recordSize] at hsize
    have hrecord : bytes.drop start = recordBytes file.2 ++ (recordsBytes files ++ rest) := by
      rw [h, recordsBytes, flatMap_cons, append_assoc, recordsBytes]
    rw [indexed, forall_mem_cons]
    refine ⟨⟨by simp only; omega, recordStride file.2,
      zeros (contentPadding file.2.length) ++ (recordsBytes files ++ rest),
      fitsWord_natCast (by rw [recordStride]; omega), ?_⟩, ?_⟩
    · rw [hrecord, recordBytes]
      simp only [append_assoc]
    · refine ih (fun other hother => hfits other (by simp [hother])) ?_
      rw [← length_recordBytes]
      exact drop_behind hrecord

theorem conforms_archive (hne : files ≠ []) (h : Packable files) :
    Conforms (archive files) (indexed (16 + indexSize (files.map (·.1))) files) := by
  generalize hstart : 16 + indexSize (files.map (·.1)) = start
  have hnames : (indexed start files).map (·.name) = files.map (·.1) := by
    rw [← map_placed start, ← map_indexed_placed, map_map]
    rfl
  have hpositions : (indexed start files).map (·.position) = (placed start files).map (·.2) := by
    rw [← map_indexed_placed, map_map]
    rfl
  have hlength : (indexed start files).length = files.length := by
    rw [← length_map (·.name), hnames, length_map]
  have hline : ∀ file ∈ indexed start files, (file.name, file.position) ∈ placed start files := by
    intro file hfile
    rw [← map_indexed_placed]
    exact mem_map_of_mem hfile
  have hfits := h.fits
  have hsize := h.size
  rw [hstart] at hfits
  obtain ⟨hascending, hle⟩ := pairwise_placed start files
  have hindex : ((indexed start files).flatMap IndexedFile.entryBytes).length + 16 = start := by
    rw [flatMap_indexed h.ascii, length_indexBytes_placed h.ascii]
    omega
  refine ⟨⟨revision, (start - 12 : Nat), recordsBytes files ++ closing, by decide,
    fitsWord_natCast ?_, ?_⟩, ?_, ?_, ?_, ?_, ?_, ?_, ?_, ?_, ?_⟩
  · rw [archiveSize] at hsize
    omega
  · rw [flatMap_indexed h.ascii, hlength, archive, hstart, headBytes]
    simp only [append_assoc]
  · rw [← length_pos_iff, hlength]
    exact length_pos_iff.mpr hne
  · rw [hlength]
    exact (length_le_archiveSize files).trans_lt hsize
  · rw [hnames]
    exact h.nodup
  · intro file hfile
    obtain ⟨entry, hentry, heq⟩ := mem_map.mp (mem_map_of_mem_placed (hline file hfile))
    have hentry := h.proper entry hentry
    rwa [heq] at hentry
  · intro file hfile
    obtain ⟨hascii, -, hname⟩ := hfits _ (hline file hfile)
    rw [length_encode hascii]
    exact hname
  · rw [hpositions]
    exact hascending.imp Nat.ne_of_lt
  · intro file hfile
    have := hle _ (hline file hfile)
    omega
  · exact fun file hfile => (hfits _ (hline file hfile)).2.1
  · have hrecords := drop_archive h.ascii
    rw [hstart] at hrecords
    exact storedIn_of_recordsBytes
      (fun file hfile => (recordSize_le_archiveSize hfile).trans_lt hsize) hrecords

end ApkWorkshop.Archive
