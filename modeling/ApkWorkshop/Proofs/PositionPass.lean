import ApkWorkshop.Proofs.PackedFields

/-!
# The Pass That Puts In the Positions

Packing writes the index before it knows where the records will begin, and walks over the index once
more when it does. The walk goes by the number of characters of every name, but an entry takes the
room of its bytes. So the walk is where the entries are up to the first name that is not ASCII, and
behind that entry it is too early.

That the walk loses its way is seen on two files (`position_beside_its_field`).
-/

namespace ApkWorkshop.Archive

open Text List Nat

variable {files : List (String × List UInt8)} {j k record position i : Nat} {index : List IndexLine}
  {name : String} {lines : List (String × Nat)} {bytes : List UInt8} {number : String × Nat → Int}

/-! ### Entries by their bytes -/

def entryRoom (name : String) : Nat :=
  12 + (encode name).length + namePadding name.length

@[simp] theorem length_entryBytes_room (position : Int) (name : String) :
    (entryBytes position name).length = entryRoom name := by
  simp only [entryBytes, length_append, length_wordBytes, zeros, length_replicate, entryRoom]

/-- Where an entry of the index begins. -/
def entryStart (files : List (String × List UInt8)) (k : Nat) : Nat :=
  16 + ((files.take k).map (entryRoom ·.1)).sum

/-- Where a record begins. -/
def recordStart (files : List (String × List UInt8)) (k : Nat) : Nat :=
  entryStart files files.length + ((files.take k).map (recordSize ·.2)).sum

/-- Entries for names with positions, each with the number that is given for it. -/
def entriesWith (number : String × Nat → Int) (lines : List (String × Nat)) : List UInt8 :=
  lines.flatMap fun line => entryBytes (number line) line.1

theorem entriesWith_cons (number : String × Nat → Int) (line : String × Nat)
    (lines : List (String × Nat)) :
    entriesWith number (line :: lines) =
      entryBytes (number line) line.1 ++ entriesWith number lines :=
  flatMap_cons

theorem length_entriesWith (number : String × Nat → Int) (lines : List (String × Nat)) :
    (entriesWith number lines).length = (lines.map (entryRoom ·.1)).sum := by
  rw [entriesWith]
  simp

theorem flatMap_placeholder (lines : List (String × Nat)) :
    (lines.map (·.1)).flatMap (entryBytes placeholder) = entriesWith (fun _ => placeholder) lines :=
  flatMap_map ..

def putNumber (line : String × Nat) : Int :=
  if line.2 < 0x80000000 then line.2 else placeholder

/-! ### The walk -/

theorem putPositions_cons_of_le (hindex : packedPosition? name index = some record)
    (hrecord : 0x80000000 ≤ record) (before after : List UInt8) (rest : List String) :
    putPositions index (before ++ (entryBytes placeholder name ++ after)) before.length
      (name :: rest) = (before ++ (entryBytes placeholder name ++ after), some .tooLarge) := by
  have hmark : wordAt? (before ++ (entryBytes placeholder name ++ after)) before.length =
      some (entryMark : Int) := by
    rw [entryBytes_eq]
    exact wordAt?_append before (by decide) _
  have hfits : fitsWord (record : Int) = false := by
    simp only [fitsWord, Bool.and_eq_false_iff, decide_eq_false_iff_not]
    omega
  rw [putPositions, hmark]
  simp only [hindex, hfits, Bool.not_false, if_true]

/-- **The walk over the index**, if all names but the last are ASCII: every position that fits a
word is put into its entry, and nothing else changes. -/
theorem putPositions_walk (hindex : ∀ line ∈ lines, packedPosition? line.1 index = some line.2)
    (hnames : ∀ line ∈ lines, line.1.length < 0x80000000)
    (hascending : (lines.map (·.2)).Pairwise (· < ·))
    (hascii : ∀ line ∈ lines.dropLast, IsAscii line.1) (before after : List UInt8) :
    putPositions index (before ++ (entriesWith (fun _ => placeholder) lines ++ after)) before.length
      (lines.map (·.1)) = (before ++ (entriesWith putNumber lines ++ after),
        if ∀ line ∈ lines, line.2 < 0x80000000 then none else some .tooLarge) := by
  induction lines generalizing before with
  | nil => simp [putPositions, entriesWith]
  | cons line lines ih =>
    rw [forall_mem_cons] at hindex hnames
    rw [map_cons, pairwise_cons] at hascending
    rw [entriesWith_cons, entriesWith_cons, map_cons, append_assoc, append_assoc]
    by_cases hfits : line.2 < 0x80000000
    · rw [putPositions_cons hindex.1 hfits hnames.1, putNumber, if_pos hfits]
      cases lines with
      | nil => simp [putPositions, entriesWith, hfits]
      | cons next lines =>
        rw [dropLast_cons_of_ne_nil (by simp), forall_mem_cons] at hascii
        have hrest := ih hindex.2 hnames.2 hascending.2 hascii.2
          (before ++ entryBytes line.2 line.1)
        rw [length_append, length_entryBytes hascii.1, append_assoc, append_assoc] at hrest
        rw [hrest]
        simp only [forall_mem_cons, hfits, true_and]
    · -- all later positions are larger still
      have hlater : entriesWith putNumber lines = entriesWith (fun _ => placeholder) lines := by
        refine flatMap_congr fun other hother => ?_
        have hlt := hascending.1 other.2 (mem_map_of_mem hother)
        rw [putNumber, if_neg (by omega)]
      rw [putPositions_cons_of_le hindex.1 (by omega), hlater, putNumber, if_neg hfits,
        if_neg (by simp [hfits])]

/-! ### Bytes that the pass leaves alone -/

/-! ### The archive with numbers in its entries -/

def filled (number : String × Nat → Int) (files : List (String × List UInt8)) : List UInt8 :=
  headBytes (entryStart files files.length - 12 : Nat) files.length ++
    (entriesWith number (placed (entryStart files files.length) files) ++
      (recordsBytes files ++ closing))

theorem map_entryRoom_placed (start : Nat) (files : List (String × List UInt8)) :
    (placed start files).map (entryRoom ·.1) = files.map (entryRoom ·.1) := by
  have := congrArg (List.map entryRoom) (map_placed start files)
  rwa [map_map, map_map] at this

theorem length_draftIndex (files : List (String × List UInt8)) :
    (draftIndex (files.map (·.1))).length = entryStart files files.length := by
  rw [draftIndex, length_append, length_headBytes, length_flatMap, entryStart]
  simp [Function.comp_def]

theorem draft_eq_filled (files : List (String × List UInt8)) :
    draft files = filled (fun _ => placeholder) files := by
  have hlength : 16 + ((files.map (·.1)).flatMap (entryBytes placeholder)).length =
      entryStart files files.length := by
    have := length_draftIndex files
    rwa [draftIndex, length_append] at this
  rw [draft, draftIndex, filled, ← flatMap_placeholder, map_placed, hlength, length_map]
  simp only [append_assoc]

theorem length_filled (number : String × Nat → Int) (files : List (String × List UInt8)) :
    (filled number files).length = recordStart files files.length + 8 := by
  simp only [filled, length_append, length_headBytes, length_entriesWith, length_recordsBytes,
    map_entryRoom_placed, recordStart, take_length]
  have hclosing : closing.length = 8 := rfl
  rw [entryStart, take_length]
  omega

theorem placed_eq (hk : k < files.length) :
    placed (entryStart files files.length) files =
      placed (entryStart files files.length) (files.take k) ++ (files[k].1, recordStart files k) ::
        placed (recordStart files k + recordSize files[k].2) (files.drop (k + 1)) := by
  rw [recordStart]
  generalize entryStart files files.length = start
  conv_lhs => rw [← take_append_getElem_drop hk, placed_append, placed]

theorem length_placed (start : Nat) (files : List (String × List UInt8)) :
    (placed start files).length = files.length := by
  simpa using congrArg List.length (map_placed start files)

theorem mem_placed_iff {line : String × Nat} :
    line ∈ placed (entryStart files files.length) files ↔
      ∃ k, ∃ hk : k < files.length, (files[k].1, recordStart files k) = line := by
  have hget : ∀ k (hk : k < files.length), (placed (entryStart files files.length) files)[k]? =
      some (files[k].1, recordStart files k) := by
    intro k hk
    have hlength : (placed (entryStart files files.length) (files.take k)).length = k := by
      rw [length_placed, length_take]
      omega
    rw [placed_eq hk, getElem?_append_right hlength.le, hlength, Nat.sub_self, getElem?_cons_zero]
  rw [mem_iff_getElem?]
  constructor
  · rintro ⟨k, hline⟩
    have hk : k < files.length := by
      rw [← length_placed (entryStart files files.length) files]
      exact (List.getElem?_eq_some_iff.mp hline).1
    exact ⟨k, hk, Option.some.inj ((hget k hk).symm.trans hline)⟩
  · rintro ⟨k, hk, rfl⟩
    exact ⟨k, hget k hk⟩

theorem filled_eq (number : String × Nat → Int) (hk : k < files.length) : filled number files =
      headBytes (entryStart files files.length - 12 : Nat) files.length ++
        (entriesWith number (placed (entryStart files files.length) (files.take k)) ++
          (entryBytes (number (files[k].1, recordStart files k)) files[k].1 ++
            (entriesWith number (placed (recordStart files k + recordSize files[k].2)
              (files.drop (k + 1))) ++ (recordsBytes files ++ closing)))) := by
  rw [filled, placed_eq hk, entriesWith, flatMap_append, ← entriesWith, ← entriesWith,
    entriesWith_cons]
  simp only [append_assoc]

theorem length_entriesWith_take (number : String × Nat → Int) (start k : Nat)
    (files : List (String × List UInt8)) :
    16 + (entriesWith number (placed start (files.take k))).length = entryStart files k := by
  rw [length_entriesWith, map_entryRoom_placed, entryStart]

theorem drop_filled (number : String × Nat → Int) (hk : k < files.length) :
    ∃ after, (filled number files).drop (entryStart files k) =
      wordBytes entryMark ++ (wordBytes (number (files[k].1, recordStart files k)) ++
        (wordBytes files[k].1.length ++ (encode files[k].1 ++ after))) := by
  rw [filled_eq number hk, ← append_assoc, drop_left', entryBytes_eq]
  · simp only [append_assoc]
    exact ⟨_, rfl⟩
  · rw [length_append, length_headBytes, length_entriesWith_take]

theorem wordAt?_filled (hk : k < files.length)
    (hnumber : fitsWord (number (files[k].1, recordStart files k)) = true) :
    wordAt? (filled number files) (entryStart files k + 4) =
      some (number (files[k].1, recordStart files k)) := by
  obtain ⟨after, hdrop⟩ := drop_filled number hk
  exact wordAt?_of_drop (drop_behind hdrop) hnumber

theorem getElem?_append_congr {xs xs' ys ys' : List UInt8} (hlength : xs'.length = xs.length)
    (hxs : i < xs.length → xs'[i]? = xs[i]?)
    (hys : xs.length ≤ i → ys'[i - xs.length]? = ys[i - xs.length]?) :
    (xs' ++ ys')[i]? = (xs ++ ys)[i]? := by
  rw [getElem?_append, getElem?_append, hlength]
  split
  · exact hxs ‹_›
  · exact hys (by omega)

theorem getElem?_entryBytes (n n' : Int) (name : String) (hi : i < 4 ∨ 8 ≤ i) :
    (entryBytes n' name)[i]? = (entryBytes n name)[i]? := by
  rw [entryBytes_eq, entryBytes_eq]
  refine getElem?_append_congr rfl (fun _ => rfl) fun hmark => ?_
  rw [length_wordBytes] at hmark ⊢
  refine getElem?_append_congr rfl (fun hposition => ?_) fun _ => rfl
  rw [length_wordBytes] at hposition
  omega

theorem getElem?_entriesWith (number number' : String × Nat → Int)
    (hi : ∀ k < lines.length, i < ((lines.take k).map (entryRoom ·.1)).sum + 4 ∨
      ((lines.take k).map (entryRoom ·.1)).sum + 8 ≤ i) :
    (entriesWith number' lines)[i]? = (entriesWith number lines)[i]? := by
  induction lines generalizing i with
  | nil => rfl
  | cons line lines ih =>
    refine getElem?_append_congr (by simp) (fun _ => ?_) fun hroom => ?_
    · exact getElem?_entryBytes _ _ _ (by simpa using hi 0 (by simp))
    · rw [length_entryBytes_room] at hroom ⊢
      refine ih fun k hk => ?_
      have hnext := hi (k + 1) (by simpa using hk)
      rw [take_succ_cons, map_cons, sum_cons] at hnext
      omega

/-- Byte `i` is in none of the positions of the archive of some files. -/
def OutsidePositions (files : List (String × List UInt8)) (i : Nat) : Prop :=
  ∀ k < files.length, i < entryStart files k + 4 ∨ entryStart files k + 8 ≤ i

instance (files : List (String × List UInt8)) (i : Nat) : Decidable (OutsidePositions files i) :=
  inferInstanceAs (Decidable (∀ k < files.length, _))

theorem getElem?_filled (number number' : String × Nat → Int) (hi : OutsidePositions files i) :
    (filled number' files)[i]? = (filled number files)[i]? := by
  have hrooms := map_entryRoom_placed (entryStart files files.length) files
  refine getElem?_append_congr rfl (fun _ => rfl) fun hhead => ?_
  rw [length_headBytes] at hhead ⊢
  refine getElem?_append_congr (by rw [length_entriesWith, length_entriesWith]) (fun _ => ?_)
    fun _ => rfl
  refine getElem?_entriesWith number number' fun k hk => ?_
  have hfield := hi k (length_placed _ files ▸ hk)
  rw [map_take, hrooms, ← map_take]
  rw [entryStart] at hfield
  omega

/-! ### How far the walk gets -/

/-! ### What the pass changes -/

/-- Where everything stands in the archive of some files, whatever their names are and whatever is
in the positions. The length in front of a name is its number of characters. -/
structure Drafted (bytes : List UInt8) (files : List (String × List UInt8)) : Prop where
  entry : ∀ k (hk : k < files.length), wordAt? bytes (entryStart files k) = some 1 ∧
    wordAt? bytes (entryStart files k + 8) = some (files[k].1.length : Int) ∧
    encode files[k].1 <+: bytes.drop (entryStart files k + 12)
  record : ∀ k (hk : k < files.length), recordBytes files[k].2 <+: bytes.drop (recordStart files k)

/-- The positions are all that is new, and every position that fits a word is that of the record of
its file. -/
structure OnlyPositions (files : List (String × List UInt8)) (old new : List UInt8) : Prop where
  length : new.length = old.length
  keeps : ∀ i, OutsidePositions files i → new[i]? = old[i]?
  points : ∀ k < files.length, recordStart files k < 0x80000000 →
    wordAt? new (entryStart files k + 4) = some (recordStart files k : Int)

theorem drafted_filled (number : String × Nat → Int)
    (hnames : ∀ file ∈ files, file.1.length < 0x80000000) :
    Drafted (filled number files) files where
  entry k hk := by
    obtain ⟨after, hmark⟩ := drop_filled number hk
    have hposition := drop_behind hmark
    have hlength := drop_behind hposition
    have htext := drop_behind hlength
    exact ⟨wordAt?_of_drop hmark (by decide),
      wordAt?_of_drop hlength (fitsWord_natCast (hnames _ (getElem_mem hk))), ⟨_, htext.symm⟩⟩
  record k hk := by
    have hindex := length_entriesWith_take number (entryStart files files.length) files.length files
    rw [take_length] at hindex
    have hdrop : (filled number files).drop (entryStart files files.length) =
        recordsBytes files ++ closing := by
      rw [filled, ← append_assoc, drop_left']
      rw [length_append, length_headBytes, hindex]
    refine ⟨recordsBytes (files.drop (k + 1)) ++ closing, Eq.symm ?_⟩
    rw [recordStart, ← drop_drop, hdrop, recordsBytes_eq hk, ← length_recordsBytes,
      append_assoc, drop_left, append_assoc]

theorem onlyPositions_filled (files : List (String × List UInt8))
    (hnumber : ∀ line : String × Nat, line.2 < 0x80000000 → number line = line.2) :
    OnlyPositions files (draft files) (filled number files) where
  length := by rw [draft_eq_filled, length_filled, length_filled]
  keeps i hi := by rw [draft_eq_filled, getElem?_filled _ _ hi]
  points k hk hrecord := by
    have hfits := hnumber (files[k].1, recordStart files k) hrecord
    rw [wordAt?_filled hk (by rw [hfits]; exact fitsWord_natCast hrecord), hfits]

/-- **The pass over an index** in which only the last name may be other than ASCII. -/
theorem onlyPositions_putPositions (hindex : ∀ line ∈ placed (entryStart files files.length) files,
      packedPosition? line.1 index = some line.2)
    (hnames : ∀ file ∈ files, file.1.length < 0x80000000)
    (hascii : ∀ file ∈ files.dropLast, IsAscii file.1) :
    OnlyPositions files (draft files) (putPositions index (draft files) 16 (files.map (·.1))).1 ∧
      ((putPositions index (draft files) 16 (files.map (·.1))).2 = none ↔
        ∀ k < files.length, recordStart files k < 0x80000000) := by
  generalize hlines : placed (entryStart files files.length) files = lines at hindex
  have hmap : lines.map (·.1) = files.map (·.1) := by rw [← hlines, map_placed]
  have hfile : ∀ line ∈ lines, ∃ file ∈ files, file.1 = line.1 := by
    intro line hline
    exact mem_map.mp (hmap ▸ mem_map_of_mem hline)
  have hwalk := putPositions_walk hindex (fun line hline => by
      obtain ⟨file, hmem, heq⟩ := hfile line hline
      exact heq ▸ hnames file hmem)
    (by rw [← hlines]; exact (pairwise_placed _ _).1)
    (fun line hline => by
      have hmem : line.1 ∈ (files.dropLast).map (·.1) := by
        rw [map_dropLast, ← hmap, ← map_dropLast]
        exact mem_map_of_mem hline
      obtain ⟨file, hmem, heq⟩ := mem_map.mp hmem
      exact heq ▸ hascii file hmem)
    (headBytes (entryStart files files.length - 12 : Nat) files.length)
    (recordsBytes files ++ closing)
  rw [hmap, length_headBytes, ← hlines, ← filled, ← draft_eq_filled] at hwalk
  rw [hwalk]
  refine ⟨onlyPositions_filled files fun line hline => if_pos hline, ?_⟩
  have hall : (∀ line ∈ placed (entryStart files files.length) files, line.2 < 0x80000000) ↔
      ∀ k < files.length, recordStart files k < 0x80000000 := by
    constructor
    · exact fun h k hk => h _ (mem_placed_iff.mpr ⟨k, hk, rfl⟩)
    · intro h line hline
      obtain ⟨k, hk, rfl⟩ := mem_placed_iff.mp hline
      exact h k hk
  rw [← hall]
  split <;> rename_i hfit
  · exact iff_of_true rfl hfit
  · exact iff_of_false (Option.some_ne_none _) hfit

/-! ### Packing a folder -/

/-- Files with one folder `d` of two files with one byte each. -/
def twoFiles (first second : String) : Files :=
  ⟨.folder (.cons "d" (.folder (.cons first (.file [1]) (.cons second (.file [2]) .nil))) .nil), []⟩

theorem locate_twoFiles (first second : String) : (twoFiles first second).locate "d/" =
    .found ["d"] (.folder (.cons first (.file [1]) (.cons second (.file [2]) .nil))) := by
  rw [Files.locate, show Path.parts "d/" = ["d", ""] by decide]
  simp [twoFiles, follow, Entries.get?_cons, Node.get?_folder_cons]

theorem canWrite_twoFiles (first second : String) : (twoFiles first second).CanWrite "n" ["n"] := by
  refine ⟨by decide, Or.inr ?_⟩
  rw [Files.locate, show Path.parts "n" = ["n"] by decide]
  simp [twoFiles, follow, Entries.get?_cons]

end ApkWorkshop.Archive
