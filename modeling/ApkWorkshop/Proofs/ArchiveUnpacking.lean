import ApkWorkshop.Archive.Command
import ApkWorkshop.Proofs.ArchiveReading

/-!
# Unpacking a Conforming Archive

The reader of archives does not use the padding and the order of what it reads: it looks for marks
byte by byte and goes to each record by its position. On a conforming archive this leads to every
file.
-/

namespace ApkWorkshop.Archive

open Text List Entries

variable {bytes : List UInt8} {files : List IndexedFile} {target : String} {place : List String}

theorem IndexedFile.StoredIn.mark_mem_drop {file : IndexedFile} (h : file.StoredIn bytes)
    {position : Nat} (hle : position ≤ file.position) : 2 ∈ bytes.drop position := by
  obtain ⟨-, next, rest, -, hrecord⟩ := h
  have hmark : 2 ∈ bytes.drop file.position := by
    rw [hrecord]
    exact mem_cons_self
  obtain ⟨more, hmore⟩ := Nat.exists_eq_add_of_le hle
  rw [hmore, ← drop_drop] at hmark
  exact mem_of_mem_drop hmark

/-- **What an open archive leaves**: exactly its files in an empty target. -/
theorem goes_extract (h : Conforms bytes files) {memory : Memory} (hindex : memory.index = [])
    {f : Files} (htarget : f.LeadsInto target place .nil) (input : String) :
    ∃ s' made, Goes (extract input bytes) ⟨bytes, 0, memory, f, target⟩ () s' ∧
      f.SameAside s'.files place ∧ s'.files.LeadsInto target place made ∧
      made.toList.Perm (files.map fun file => (file.name, .file file.content)) := by
  obtain ⟨found, dataStart, rest, hfound, hdata, hbytes⟩ := h.layout
  obtain ⟨known, hhead, hknown, hsize, hcount⟩ : ∃ known : Memory, Goes readHeader
      ⟨bytes, 0, { memory with
        folder := some (Path.folder input)
        name := some (Path.name input)
        size := some bytes.length }, f, target⟩ () ⟨bytes, 16, known, f, target⟩ ∧
      known.index = [] ∧ known.size = some bytes.length ∧
      known.count = some (files.length : Int) :=
    ⟨_, goes_readHeader hfound hdata (fitsWord_natCast h.count) hbytes, hindex, rfl, rfl⟩
  have hentries : bytes.drop 16 = files.flatMap IndexedFile.entryBytes ++ rest := by
    rw [hbytes]
    rfl
  obtain ⟨position, hle, learned, hread, hlearned⟩ :
      ∃ position ≤ 16 + (files.flatMap IndexedFile.entryBytes).length, ∃ learned : Memory,
        Goes (readEntries files.length) ⟨bytes, 16, known, f, target⟩ ()
          ⟨bytes, position, learned, f, target⟩ ∧
        learned.index = foundLines files := by
    obtain ⟨position, hle, hread⟩ := goes_readEntries (s := ⟨bytes, 16, known, f, target⟩) h.some
      h.fits h.named h.positions (by simp [hknown]) hsize hentries
    exact ⟨position, hle, _, hread, by simp only [hknown, nil_append]⟩
  obtain ⟨first, hfirst⟩ := exists_mem_of_ne_nil _ h.some
  obtain ⟨position', hskip⟩ := goes_skipToRecords (s := ⟨bytes, position, learned, f, target⟩)
    ((h.stored first hfirst).mark_mem_drop (hle.trans (h.behind first hfirst)))
    (show _ < bytes.length - position + 1 by rw [length_drop]; exact Nat.lt_succ_self _)
  obtain ⟨last, made, files', hrecords, hsame, hmade, hperm⟩ := goes_readRecords
    (s := ⟨bytes, position', learned, f, target⟩) htarget
    h.names (by simp [names, toList]) h.proper h.stored
  refine ⟨⟨bytes, last, learned, files', target⟩, made, ?_, hsame, hmade,
    by simpa [toList] using hperm⟩
  refine (goes_learn _ _).bind (hhead.bind (Goes.get_bind fun b hb => ?_))
  simp only [hb.memory, hcount, Option.getD_some, Int.toNat_natCast]
  refine hread.bind ((goes_bytesLeft _).bind (hskip.bind (Goes.get_bind fun b' hb' => ?_)))
  rw [hb'.memory, hlearned]
  exact hrecords.bind fun _ hb =>
    ⟨_, ends_modify.mpr rfl, ⟨hb.stream, hb.memory, hb.files, hb.target⟩⟩

/-- **Unpacking a conforming archive** into an empty folder ends well, and the folder holds exactly
its files. -/
theorem ends_unpack_conforming (h : Conforms bytes files) {b : Bench} (hindex : b.memory.index = [])
    {input : String} (hread : b.files.read input = .ok bytes)
    (htarget : b.files.LeadsInto target place .nil) :
    ∃ b' made, Ends (unpack input target) b () b' ∧ b.files.SameAside b'.files place ∧
      b'.files.LeadsInto target place made ∧
      made.toList.Perm (files.map fun file => (file.name, .file file.content)) := by
  obtain ⟨s', made, hgoes, hsame, hmade, hperm⟩ := goes_extract h hindex htarget input
  obtain ⟨b', hextract, hb'⟩ := hgoes
    { b with target, stream := .opened bytes 0 } ⟨rfl, rfl, rfl, rfl⟩
  rw [← hb'.files] at hsame hmade
  have hfolder : b.files.isFolder target = true := by
    rw [Files.isFolder, htarget.found]
  refine ⟨{ b' with stream := .closed }, made, ?_, hsame, hmade, hperm⟩
  refine Ends.modify_bind (Ends.bind (ends_get.mpr ⟨rfl, rfl⟩) ?_)
  simp only [hfolder, Bool.not_true, Bool.false_eq_true, if_false]
  refine Ends.bind (ends_readFile hread) (Ends.modify_bind ?_)
  exact ends_tryFinally hextract ((ends_modify (u := ⟨⟩)).mpr rfl)

/-- **Unpacking** any conforming archive. Run anew on an archive and an empty folder, the command
ends well, the folder then holds one file for every entry of the index, with the name from the entry
and the content of the record at its position, and nothing else; and nothing outside of the folder
has changed. -/
theorem unpack_writes_conforming {bytes : List UInt8} {files : List IndexedFile}
    (h : Conforms bytes files) {f : Files} {input : String} (hread : f.read input = .ok bytes)
    {target : String} {place : List String}
    (htarget : f.locate (Path.join target "") = .found place (.folder .nil)) :
    ∃ b made, Ends (command ["-u", input, target]) { files := f } () b ∧ f.SameAside b.files place ∧
      b.files.locate (Path.join target "") = .found place (.folder made) ∧
      made.toList.Perm (files.map fun file => (file.name, .file file.content)) := by
  obtain ⟨b, made, hends, hsame, hmade, hperm⟩ := ends_unpack_conforming h (b := { files := f }) rfl
    hread (Files.leadsInto_join htarget)
  exact ⟨b, made, hends, hsame, hmade.found, hperm⟩

/-! ### An archive that packing would not write -/

/-- Two files with marks in their names, one without padding and one with more than it needs, and
with records in the other order. -/
def looseFiles : List IndexedFile :=
  [⟨"\x02é", 0, 71, [1, 0, 2]⟩, ⟨"\x01", 7, 55, []⟩]

/-- An archive of them with another revision, a distance that leads nowhere, marks in the gaps and
useless ways to the next records. -/
def looseArchive : List UInt8 :=
  magic ++ (wordBytes 7 ++ (wordBytes (-1) ++ (wordBytes 2 ++
    (looseFiles.flatMap IndexedFile.entryBytes ++ ([1, 2, 1, 2] ++ (wordBytes recordMark ++
      (wordBytes (-5) ++ (wordBytes 0 ++ ([2, 1, 1, 1] ++ (wordBytes recordMark ++
        (wordBytes 0 ++ (wordBytes 3 ++ [1, 0, 2]))))))))))))

theorem conforms_looseArchive : Conforms looseArchive looseFiles where
  layout := ⟨7, -1, _, by decide, by decide, rfl⟩
  some := by simp [looseFiles]
  count := by decide
  names := by decide
  proper := by
    intro file hfile
    simp only [looseFiles, mem_cons, not_mem_nil, or_false] at hfile
    rcases hfile with rfl | rfl <;> constructor <;> decide
  named := by
    intro file hfile
    simp only [looseFiles, mem_cons, not_mem_nil, or_false] at hfile
    rcases hfile with rfl | rfl <;> decide
  positions := by decide
  behind := by decide
  fits := by decide
  stored := by
    intro file hfile
    simp only [looseFiles, mem_cons, not_mem_nil, or_false] at hfile
    rcases hfile with rfl | rfl
    · exact ⟨by decide, 0, [], by decide, rfl⟩
    · exact ⟨by decide, -5, [2, 1, 1, 1] ++ (wordBytes recordMark ++ (wordBytes 0 ++
        (wordBytes 3 ++ [1, 0, 2]))), by decide, rfl⟩

def looseTree : Files :=
  ⟨.folder (.cons "a" (.file looseArchive) (.cons "t" (.folder .nil) .nil)), []⟩

/-- An archive with bytes that no packer writes is unpacked into its two files. -/
theorem unpack_writes_looseArchive :
    Conforms looseArchive looseFiles ∧ ∃ b made,
      Ends (command ["-u", "a", "t"]) { files := looseTree } () b ∧
      looseTree.SameAside b.files ["t"] ∧
      b.files.locate (Path.join "t" "") = .found ["t"] (.folder made) ∧
      made.toList.Perm [("\x02é", .file [1, 0, 2]), ("\x01", .file [])] := by
  have hparts : Path.parts (Path.join "t" "") = ["t", ""] ∧ Path.parts "a" = ["a"] := by decide
  have hread : looseTree.read "a" = .ok looseArchive := by
    rw [Files.read, Files.locate, if_neg (by decide), if_neg (by decide), hparts.2,
      if_neg (by decide)]
    simp [looseTree, follow, Entries.get?_cons, Node.get?_folder_cons]
  have htarget : looseTree.locate (Path.join "t" "") = .found ["t"] (.folder .nil) := by
    rw [Files.locate, if_neg (by decide), if_neg (by decide), hparts.1, if_neg (by decide)]
    simp [looseTree, follow, Entries.get?_cons, Node.get?_folder_cons]
  exact ⟨conforms_looseArchive, unpack_writes_conforming conforms_looseArchive hread htarget⟩

end ApkWorkshop.Archive
