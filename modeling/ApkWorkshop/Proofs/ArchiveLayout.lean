import ApkWorkshop.Archive.Packing
import ApkWorkshop.Proofs.FolderEntries
import ApkWorkshop.Proofs.Utf8

/-!
# The Layout of an Archive

An archive as one list of bytes: the head, an entry for every file with the position of its record,
the records, and the closing mark. Packing first writes the entries with a placeholder and puts the
positions in later.
-/

namespace ApkWorkshop.Archive

open Text List Nat

variable {n : Int} {bytes : List UInt8} {position start : Nat} {name : String} {names : List String}
  {lines : List (String × Nat)} {files : List (String × List UInt8)} {line : String × Nat}
  {index : List IndexLine}

/-! ### Words -/

@[simp] theorem length_wordBytes (n : Int) : (wordBytes n).length = 4 := rfl

/-- **A number that fits a word** is read from its bytes. -/
theorem word?_wordBytes (h : fitsWord n = true) : word? (wordBytes n) = some n := by
  simp only [fitsWord, Bool.and_eq_true, decide_eq_true_eq] at h
  simp only [wordBytes, word?, wordValue, Nat.toUInt8, UInt8.toNat_ofNat', Option.some.injEq]
  generalize hu : (n % 0x100000000).toNat = u
  have hsum : u % 2 ^ 8 + 0x100 * (u / 0x100 % 2 ^ 8) + 0x10000 * (u / 0x10000 % 2 ^ 8) +
      0x1000000 * (u / 0x1000000 % 2 ^ 8) = u := by omega
  split <;> omega

theorem threeWords?_wordBytes {a b c : Int} (ha : fitsWord a = true) (hb : fitsWord b = true)
    (hc : fitsWord c = true) :
    threeWords? (wordBytes a ++ (wordBytes b ++ wordBytes c)) = some (a, b, c) := by
  have ha := word?_wordBytes ha
  have hb := word?_wordBytes hb
  have hc := word?_wordBytes hc
  simp only [wordBytes, word?, Option.some.injEq] at ha hb hc
  simp only [wordBytes, cons_append, nil_append, threeWords?, ha, hb, hc]

theorem fitsWord_natCast {n : Nat} (h : n < 0x80000000) : fitsWord (n : Int) = true := by
  simp only [fitsWord, Bool.and_eq_true, decide_eq_true_eq]
  omega

/-! ### Pieces of an archive -/

theorem drop_behind {piece rest : List UInt8} (h : bytes.drop position = piece ++ rest) :
    bytes.drop (position + piece.length) = rest := by
  rw [← drop_drop, h, drop_left]

/-- A name whose characters are all ASCII has one byte for each. -/
def IsAscii (name : String) : Prop :=
  ∀ c ∈ name.toList, c.toNat < 128

theorem length_encode (h : IsAscii name) : (encode name).length = name.length := by
  have hchars : ∀ cs : List Char, (∀ c ∈ cs, c.toNat < 128) →
      (encodeChars cs).length = cs.length := by
    intro cs
    induction cs with
    | nil => intro _; rfl
    | cons c cs ih =>
      intro hcs
      have hc : encodeChar c = [c.toNat.toUInt8] := by
        rw [encodeChar]
        simp [hcs c (by simp)]
      have htail := ih fun d hd => hcs d (by simp [hd])
      rw [encodeChars] at htail ⊢
      rw [flatMap_cons, hc, length_append]
      simp only [length_cons, length_nil]
      omega
  rw [encode, hchars _ h, String.length_toList]

theorem length_encode_eq_iff (name : String) :
    name.length ≤ (encode name).length ∧ ((encode name).length = name.length ↔ IsAscii name) := by
  have hchars : ∀ cs : List Char, cs.length ≤ (encodeChars cs).length ∧
      ((encodeChars cs).length = cs.length → ∀ c ∈ cs, c.toNat < 128) := by
    intro cs
    induction cs with
    | nil => simp [encodeChars]
    | cons c cs ih =>
      have hc : 1 ≤ (encodeChar c).length ∧ ((encodeChar c).length = 1 → c.toNat < 128) := by
        rw [encodeChar]
        split
        · rename_i hlt
          exact ⟨le_rfl, fun _ => hlt⟩
        split
        · simp
        split <;> simp
      have hlength : (encodeChars (c :: cs)).length =
          (encodeChar c).length + (encodeChars cs).length := by
        rw [encodeChars, flatMap_cons, length_append, encodeChars]
      rw [length_cons, forall_mem_cons]
      exact ⟨by omega, fun heq => ⟨hc.2 (by omega), ih.2 (by omega)⟩⟩
  have hname := hchars name.toList
  exact ⟨hname.1, hname.2, length_encode⟩

def entrySize (name : String) : Nat :=
  12 + name.length + namePadding name.length

def recordSize (content : List UInt8) : Nat :=
  12 + content.length + contentPadding content.length

theorem length_entryBytes (h : IsAscii name) (position : Int) :
    (entryBytes position name).length = entrySize name := by
  simp only [entryBytes, length_append, length_wordBytes, length_encode h, zeros,
    length_replicate, entrySize]

theorem length_recordBytes (content : List UInt8) :
    (recordBytes content).length = recordSize content := by
  simp only [recordBytes, length_append, length_wordBytes, zeros, length_replicate, recordSize]

/-- The names of files with the positions of their records, which begin at a position and stand one
behind the other. -/
def placed (start : Nat) : List (String × List UInt8) → List (String × Nat)
  | [] => []
  | (name, content) :: rest => (name, start) :: placed (start + recordSize content) rest

theorem map_placed (start : Nat) (files : List (String × List UInt8)) :
    (placed start files).map (·.1) = files.map (·.1) := by
  induction files generalizing start with
  | nil => rfl
  | cons file files ih => rw [placed, map_cons, ih, map_cons]

def indexBytes (lines : List (String × Nat)) : List UInt8 :=
  lines.flatMap fun line => entryBytes line.2 line.1

def recordsBytes (files : List (String × List UInt8)) : List UInt8 :=
  files.flatMap fun file => recordBytes file.2

def indexSize (names : List String) : Nat :=
  (names.map entrySize).sum

/-- How long the archive of some files is. -/
def archiveSize (files : List (String × List UInt8)) : Nat :=
  16 + indexSize (files.map (·.1)) + (files.map (recordSize ·.2)).sum + 8

def archive (files : List (String × List UInt8)) : List UInt8 :=
  headBytes (16 + indexSize (files.map (·.1)) - 12 : Nat) files.length ++
    (indexBytes (placed (16 + indexSize (files.map (·.1))) files) ++
      (recordsBytes files ++ closing))

theorem length_headBytes (dataStart count : Int) : (headBytes dataStart count).length = 16 := rfl

theorem length_draftEntries (h : ∀ name ∈ names, IsAscii name) (position : Int) :
    (names.flatMap (entryBytes position)).length = indexSize names := by
  rw [length_flatMap, indexSize,
    map_congr_left fun name hname => length_entryBytes (h name hname) position]

theorem length_indexBytes (h : ∀ line ∈ lines, IsAscii line.1) :
    (indexBytes lines).length = indexSize (lines.map (·.1)) := by
  induction lines with
  | nil => rfl
  | cons line lines ih =>
    have hrest := ih fun l hl => h l (by simp [hl])
    rw [indexBytes] at hrest ⊢
    rw [flatMap_cons, length_append, length_entryBytes (h line (by simp)), hrest]
    simp [indexSize]

theorem length_recordsBytes (files : List (String × List UInt8)) :
    (recordsBytes files).length = (files.map (recordSize ·.2)).sum := by
  induction files with
  | nil => rfl
  | cons file files ih =>
    rw [recordsBytes] at ih ⊢
    rw [flatMap_cons, length_append, length_recordBytes, ih]
    simp

theorem mem_map_of_mem_placed (h : line ∈ placed start files) : line.1 ∈ files.map (·.1) := by
  rw [← map_placed start]
  exact mem_map.mpr ⟨line, h, rfl⟩

theorem le_of_mem_placed (h : line ∈ placed start files) :
    line.2 ≤ start + (files.map (recordSize ·.2)).sum := by
  induction files generalizing start with
  | nil => simp [placed] at h
  | cons file files ih =>
    rw [placed, mem_cons] at h
    rw [map_cons, sum_cons]
    rcases h with rfl | h
    · exact le_add_right _ _
    · have := ih h
      omega

theorem pairwise_placed (start : Nat) (files : List (String × List UInt8)) :
    ((placed start files).map (·.2)).Pairwise (· < ·) ∧
      ∀ line ∈ placed start files, start ≤ line.2 := by
  induction files generalizing start with
  | nil => simp [placed]
  | cons file files ih =>
    obtain ⟨hrest, hle⟩ := ih (start + recordSize file.2)
    have hlt : ∀ line ∈ placed (start + recordSize file.2) files, start < line.2 := by
      intro line hline
      have := hle line hline
      rw [recordSize] at this
      omega
    rw [placed, map_cons, pairwise_cons]
    refine ⟨⟨fun position hposition => ?_, hrest⟩, fun line hline => ?_⟩
    · obtain ⟨line, hline, rfl⟩ := mem_map.mp hposition
      exact hlt line hline
    · rcases mem_cons.mp hline with rfl | hline
      · exact le_refl _
      · exact (hlt line hline).le

theorem entrySize_le_indexSize (h : name ∈ names) : entrySize name ≤ indexSize names :=
  single_le_sum (fun _ _ => zero_le _) _ (mem_map.mpr ⟨name, h, rfl⟩)

theorem recordSize_le_archiveSize {file : String × List UInt8} (h : file ∈ files) :
    recordSize file.2 ≤ archiveSize files := by
  have hle : recordSize file.2 ≤ (files.map (recordSize ·.2)).sum :=
    single_le_sum (fun _ _ => zero_le _) _ (mem_map.mpr ⟨file, h, rfl⟩)
  rw [archiveSize]
  omega

theorem length_le_archiveSize (files : List (String × List UInt8)) :
    files.length ≤ archiveSize files := by
  have hle := length_le_sum_of_one_le (files.map (recordSize ·.2)) (by
    intro size hmem
    obtain ⟨file, -, rfl⟩ := mem_map.mp hmem
    rw [recordSize]
    omega)
  rw [length_map] at hle
  rw [archiveSize]
  omega

theorem length_indexBytes_placed (h : ∀ file ∈ files, IsAscii file.1) (start : Nat) :
    (indexBytes (placed start files)).length = indexSize (files.map (·.1)) := by
  rw [length_indexBytes, map_placed]
  intro line hline
  obtain ⟨file, hfile, heq⟩ := mem_map.mp (mem_map_of_mem_placed hline)
  rw [← heq]
  exact h file hfile

theorem length_archive (h : ∀ file ∈ files, IsAscii file.1) :
    (archive files).length = archiveSize files := by
  simp only [archive, length_append, length_headBytes, length_indexBytes_placed h,
    length_recordsBytes, archiveSize, closing, length_cons, length_nil]
  omega

theorem drop_archive (h : ∀ file ∈ files, IsAscii file.1) :
    (archive files).drop (16 + indexSize (files.map (·.1))) = recordsBytes files ++ closing := by
  rw [archive, ← append_assoc, drop_left']
  rw [length_append, length_headBytes, length_indexBytes_placed h]

/-! ### Putting in the positions -/

theorem overwrite_append {xs ys new : List UInt8} (h : new.length = ys.length) (zs : List UInt8) :
    overwrite (xs ++ (ys ++ zs)) xs.length new = xs ++ (new ++ zs) := by
  rw [overwrite, take_left, h, append_assoc, ← drop_drop, drop_left, drop_left]

theorem wordAt?_append (xs : List UInt8) (h : fitsWord n = true) (zs : List UInt8) :
    wordAt? (xs ++ (wordBytes n ++ zs)) xs.length = some n := by
  rw [wordAt?, drop_left, take_left' (length_wordBytes n), word?_wordBytes h]

theorem placeBehind_of_le {count : Nat} (h : position + count ≤ bytes.length) :
    placeBehind bytes position count = .ok (position + count) := by
  rw [placeBehind, if_neg (by omega), if_neg (by omega), Int.toNat_natCast, min_eq_right h,
    max_eq_right (le_add_right _ _)]

theorem entryBytes_eq (position : Int) (name : String) :
    entryBytes position name = wordBytes entryMark ++ (wordBytes position ++
      (wordBytes name.length ++ (encode name ++ zeros (namePadding name.length)))) := by
  simp [entryBytes]

/-- **One entry of the index** gets its position, and the pass goes on behind as many bytes as the
name has characters. -/
theorem putPositions_cons {record : Nat} (hindex : packedPosition? name index = some record)
    (hrecord : record < 0x80000000) (hname : name.length < 0x80000000) (before after : List UInt8)
    (rest : List String) :
    putPositions index (before ++ (entryBytes placeholder name ++ after)) before.length
      (name :: rest) =
    putPositions index (before ++ (entryBytes record name ++ after))
      (before.length + entrySize name) rest := by
  generalize htail : encode name ++ zeros (namePadding name.length) = tail
  have hentry : ∀ position : Int, before ++ (entryBytes position name ++ after) =
      before ++ (wordBytes entryMark ++ (wordBytes position ++
        (wordBytes name.length ++ (tail ++ after)))) := by
    intro position
    rw [entryBytes_eq, htail]
    simp only [append_assoc]
  have hmark := wordAt?_append before (n := entryMark) (by decide)
    (wordBytes placeholder ++ (wordBytes name.length ++ (tail ++ after)))
  have hover : overwrite (before ++ (entryBytes placeholder name ++ after)) (before.length + 4)
      (wordBytes record) = before ++ (entryBytes record name ++ after) := by
    have := @overwrite_append (before ++ wordBytes entryMark) (wordBytes placeholder)
      (wordBytes record) rfl (wordBytes name.length ++ (tail ++ after))
    rw [length_append, length_wordBytes, append_assoc, append_assoc] at this
    rw [hentry, hentry, this]
  have hlength : wordAt? (before ++ (entryBytes record name ++ after)) (before.length + 8) =
      some (name.length : Int) := by
    have := wordAt?_append (before ++ (wordBytes entryMark ++ wordBytes record))
      (fitsWord_natCast hname) (tail ++ after)
    simp only [length_append, length_wordBytes, append_assoc] at this
    rw [hentry, ← this]
  have hplace : placeBehind (before ++ (entryBytes record name ++ after)) (before.length + 12)
      ((name.length : Int) + namePadding name.length) = .ok (before.length + entrySize name) := by
    rw [← Int.natCast_add, placeBehind_of_le, entrySize]
    · congr 1
      omega
    · have := (length_encode_eq_iff name).1
      simp only [entryBytes, length_append, length_wordBytes, zeros, length_replicate]
      omega
  rw [← hentry] at hmark
  rw [putPositions, hmark]
  simp only [hindex, fitsWord_natCast hrecord, Bool.not_true, Bool.false_eq_true, if_false, hover,
    hlength, hplace]

/-- **Putting in the positions** of files with ASCII names turns the entries of a draft into those
of the archive, and goes on behind them. -/
theorem putPositions_entries (hascii : ∀ line ∈ lines, IsAscii line.1)
    (hindex : ∀ line ∈ lines, packedPosition? line.1 index = some line.2)
    (hfits : ∀ line ∈ lines, line.2 < 0x80000000 ∧ line.1.length < 0x80000000)
    (before after : List UInt8) (more : List String) :
    putPositions index
      (before ++ ((lines.map (·.1)).flatMap (entryBytes placeholder) ++ after)) before.length
      (lines.map (·.1) ++ more) =
    putPositions index (before ++ (indexBytes lines ++ after))
      (before.length + indexSize (lines.map (·.1))) more := by
  induction lines generalizing before with
  | nil => rfl
  | cons line lines ih =>
    obtain ⟨hrecord, hname⟩ := hfits line (by simp)
    have hline := hascii line (by simp)
    have hrest := ih (fun l hl => hascii l (by simp [hl])) (fun l hl => hindex l (by simp [hl]))
      (fun l hl => hfits l (by simp [hl])) (before ++ entryBytes line.2 line.1)
    rw [length_append, length_entryBytes hline, append_assoc] at hrest
    rw [map_cons, flatMap_cons, cons_append, append_assoc,
      putPositions_cons (hindex line (by simp)) hrecord hname, hrest]
    simp [indexBytes, indexSize, add_assoc]

/-- Files that an archive can hold: with ASCII names, each once, and small enough for all positions
to fit words. -/
structure Packable (files : List (String × List UInt8)) : Prop where
  ascii : ∀ file ∈ files, IsAscii file.1
  proper : ∀ file ∈ files, ProperName file.1
  nodup : (files.map (·.1)).Nodup
  size : archiveSize files < 0x80000000

theorem Packable.fits (h : Packable files) :
    ∀ line ∈ placed (16 + indexSize (files.map (·.1))) files,
      IsAscii line.1 ∧ line.2 < 0x80000000 ∧ line.1.length < 0x80000000 := by
  intro line hline
  obtain ⟨file, hfile, heq⟩ := mem_map.mp (mem_map_of_mem_placed hline)
  have hrecord := le_of_mem_placed hline
  have hentry := entrySize_le_indexSize (mem_map_of_mem_placed hline)
  have hsize := h.size
  rw [archiveSize] at hsize
  rw [entrySize] at hentry
  exact ⟨heq ▸ h.ascii file hfile, by omega, by omega⟩

/-- **The draft with the positions put in** is the archive. -/
theorem putPositions_draft (h : Packable files)
    (hindex : ∀ line ∈ placed (16 + indexSize (files.map (·.1))) files,
      packedPosition? line.1 index = some line.2) :
    putPositions index (draftIndex (files.map (·.1)) ++ recordsBytes files ++ closing) 16
      (files.map (·.1)) = (archive files, none) := by
  have hnames : ∀ name ∈ files.map (·.1), IsAscii name := by
    intro name hname
    obtain ⟨file, hfile, rfl⟩ := mem_map.mp hname
    exact h.ascii file hfile
  have hput := putPositions_entries (fun line hline => (h.fits line hline).1) hindex
    (fun line hline => (h.fits line hline).2)
    (headBytes (16 + indexSize (files.map (·.1)) - 12 : Nat) files.length)
    (recordsBytes files ++ closing) []
  rw [map_placed, length_headBytes, append_nil, putPositions] at hput
  rw [draftIndex, length_draftEntries hnames, length_map, append_assoc, append_assoc, hput, archive]

end ApkWorkshop.Archive
