import ApkWorkshop.Proofs.ArchiveSurvey
import ApkWorkshop.Proofs.PathResolution

/-!
# What Unpacking Writes

Unpacking looks through an archive of any bytes and then writes files, one for each line of its
index and in the order of the index, until a record cannot be read or a file cannot be written. An
`Extraction` is one such file with the record it was read from.
-/

namespace ApkWorkshop.Archive

open Text List

variable {α β : Type}

/-! ### Reading, if it ends well -/

/-- The bytes that reading so many gives: fewer if the archive ends, all that are left for minus
one. -/
def piece (bytes : List UInt8) (position : Nat) (count : Int) : List UInt8 :=
  if count = -1 then bytes.drop position else (bytes.drop position).take count.toNat

section

variable {b b' : Bench} {bytes : List UInt8} {old : Nat} {words : Int × Int × Int}

theorem stream_of_seek {n : Int} (hb : b.stream = .opened bytes old) (h : Ends (seek n) b () b') :
    0 ≤ n ∧ b'.stream = .opened bytes n.toNat := by
  rw [Ends, seek, run_bind, run_openStream, hb] at h
  simp only [Stream.state] at h
  split at h
  · cases h
  · rename_i hn
    rw [run_moveTo, hb] at h
    cases h
    exact ⟨by omega, rfl⟩

theorem stream_of_readBytes {position : Nat} {read : List UInt8} {count : Int}
    (hb : b.stream = .opened bytes position) (h : Ends (readBytes count) b read b') :
    -1 ≤ count ∧ read = piece bytes position count ∧
      b'.stream = .opened bytes (position + read.length) := by
  rw [Ends, readBytes, run_bind, run_openStream, hb] at h
  simp only [Stream.state] at h
  by_cases hcount : count < -1
  · rw [if_pos hcount] at h
    cases h
  · rw [if_neg hcount, run_bind, run_moveTo, hb] at h
    cases h
    exact ⟨by omega, rfl, rfl⟩

theorem length_of_threeWords? (h : threeWords? bytes = some words) : bytes.length = 12 := by
  unfold threeWords? at h
  split at h
  · rfl
  · cases h

theorem stream_of_readThreeWords {position : Nat} (hb : b.stream = .opened bytes position)
    (h : Ends readThreeWords b words b') :
    threeWords? ((bytes.drop position).take 12) = some words ∧
      b'.stream = .opened bytes (position + 12) := by
  obtain ⟨read, b₁, hread, h⟩ := ends_bind.mp h
  obtain ⟨-, hpiece, hstream⟩ := stream_of_readBytes hb hread
  have hpiece : read = (bytes.drop position).take 12 := hpiece
  cases hwords : threeWords? read with
  | none =>
    rw [hwords] at h
    exact absurd h not_ends_throw
  | some found =>
    rw [hwords] at h
    obtain ⟨rfl, rfl⟩ := ends_pure.mp h
    rw [length_of_threeWords? hwords] at hstream
    exact ⟨hpiece ▸ hwords, hstream⟩

theorem stream_of_position {here : Nat} (hb : b.stream = .opened bytes old)
    (h : Ends position b here b') : here = old ∧ b'.stream = .opened bytes old := by
  rw [Ends, position, run_bind, run_openStream, hb] at h
  cases h
  exact ⟨rfl, hb⟩

end

/-! ### One record -/

/-- The name of the file for a name in the index; a record without a name gets one from a
position. -/
def Names (position : Int) (name : List UInt8) (file : String) : Prop :=
  if name = [] then file = "file-" ++ decimalInt position ++ ".extracted.lu"
  else decode name = .ok file

theorem run_onFiles (change : Files → Except FileFault Files) (b : Bench) :
    (onFiles change).run.run b =
      match change b.files with
      | .ok files => (.ok (), { b with files })
      | .error fault => (.error (.file fault), b) := by
  rw [onFiles, run_get_bind]
  cases change b.files <;> rfl

/-- **Writing a content** writes one file and says so, or does nothing. -/
theorem writeContent_cases (content : List UInt8) (shown : Int) (name : List UInt8) (b : Bench) :
    (∃ fault, (writeContent content shown name).run.run b = (.error fault, b)) ∨
      ∃ file files messages, Names shown name file ∧
        b.files.write (b.target ++ file) content = .ok files ∧
        Ends (writeContent content shown name) b () { b with files, messages } := by
  cases hname : decode name with
  | error fault =>
    refine Or.inl ⟨.badName fault, ?_⟩
    rw [writeContent, hname]
    rfl
  | ok text =>
    obtain ⟨file, hfile, hnames⟩ : ∃ file, (if name.isEmpty = true then
        "file-" ++ decimalInt shown ++ ".extracted.lu" else text) = file ∧
        Names shown name file := by
      refine ⟨_, rfl, ?_⟩
      by_cases hempty : name = []
      · simp [Names, hempty]
      · rw [Names, if_neg hempty, if_neg (by simpa using hempty), hname]
    have hrun : (writeContent content shown name).run.run b = (do
        onFiles (·.write (b.target ++ file) content)
        note .info ("File " ++ file ++ " extracted to " ++ b.target) : Work Unit).run.run b := by
      simp only [writeContent, hname, pure_bind]
      rw [run_get_bind]
      simp only [hfile]
    rw [run_bind, run_onFiles] at hrun
    cases hwrite : b.files.write (b.target ++ file) content with
    | error fault =>
      rw [hwrite] at hrun
      exact Or.inl ⟨.file fault, hrun⟩
    | ok files =>
      rw [hwrite] at hrun
      exact Or.inr ⟨file, files, _, hnames, hwrite, hrun⟩

/-- A file that unpacking wrote, and the record that it was read from. -/
structure Extraction where
  /-- Where the index says that the record begins. -/
  position : Int
  /-- The name in the index. -/
  name : List UInt8
  /-- The length in the record. -/
  length : Int
  /-- What was written. -/
  content : List UInt8
  /-- The name of the file. -/
  file : String

namespace Extraction

variable {x : Extraction} {bytes : List UInt8}

def line (x : Extraction) : IndexLine :=
  .found x.position x.name

/-- The file has the name from the index. -/
def Named (x : Extraction) : Prop :=
  Names (if x.position = 0 then 12 + x.content.length else x.position) x.name x.file

/-- The record stands in the archive: three words, the last of which is the length, and behind them
the content. -/
structure ReadFrom (x : Extraction) (bytes : List UInt8) : Prop where
  nonneg : 0 ≤ x.position
  words : ∃ mark stride,
    threeWords? ((bytes.drop x.position.toNat).take 12) = some (mark, stride, x.length)
  length : -1 ≤ x.length
  content : x.content = piece bytes (x.position.toNat + 12) x.length
  named : x.Named

theorem ReadFrom.length_content_le (h : x.ReadFrom bytes) :
    x.position.toNat + 12 + x.content.length ≤ bytes.length := by
  obtain ⟨mark, stride, hwords⟩ := h.words
  have hhead := length_of_threeWords? hwords
  rw [length_take, length_drop] at hhead
  rw [h.content, piece]
  split
  · rw [length_drop]
    omega
  · rw [length_take, length_drop]
    omega

theorem ReadFrom.length_content_iff (h : x.ReadFrom bytes) :
    (x.content.length : Int) = x.length ↔
      0 ≤ x.length ∧ x.position + 12 + x.length ≤ bytes.length := by
  have hnonneg := h.nonneg
  have hle := h.length_content_le
  rw [h.content, piece] at hle ⊢
  split
  · omega
  · rw [length_take, length_drop]
    omega

end Extraction

section

variable {b : Bench} {bytes : List UInt8} {m : Work α} {target : String} {f f' : Files}
  {xs : List Extraction}

/-- **A record that is read** to its end writes one file, and only that. -/
theorem ends_readRecordAt {b' : Bench} {name : List UInt8} {n : Int}
    (hb : b.stream.bytes? = some bytes) (h : Ends (readRecordAt (some n) (some name)) b () b') :
    ∃ x : Extraction, x.line = .found n name ∧ x.ReadFrom bytes ∧
      b.files.write (b.target ++ x.file) x.content = .ok b'.files ∧ b'.target = b.target ∧
      b'.memory = b.memory ∧ b'.stream.bytes? = some bytes := by
  obtain ⟨old, hstream⟩ := Stream.exists_of_bytes? hb
  obtain ⟨⟨⟩, b₁, hseek, h⟩ := ends_bind.mp h
  obtain ⟨hn, hstream⟩ := stream_of_seek hstream hseek
  obtain ⟨⟨mark, stride, length⟩, b₂, hread, h⟩ := ends_bind.mp h
  obtain ⟨hwords, hstream⟩ := stream_of_readThreeWords hstream hread
  obtain ⟨content, b₃, hrest, h⟩ := ends_bind.mp h
  obtain ⟨hlength, hcontent, hstream⟩ := stream_of_readBytes hstream hrest
  obtain ⟨⟨⟩, b₄, hnote, h⟩ := ends_bind.mp h
  obtain ⟨behind, b₅, hposition, h⟩ := ends_bind.mp h
  have hkept : Untouched false b b₅ := (surveys_seek n).kept hseek |>.trans
    (surveys_readThreeWords.kept hread) |>.trans ((surveys_readBytes length).kept hrest) |>.trans
    ((Surveys.note _ _).kept hnote) |>.trans (surveys_position.kept hposition)
  have hstream : b₄.stream = .opened bytes (n.toNat + 12 + content.length) := by
    rw [ends_modify.mp hnote]
    exact hstream
  obtain ⟨rfl, hstream⟩ := stream_of_position hstream hposition
  rcases writeContent_cases content (if n = 0 then (n.toNat + 12 + content.length : Nat) else n)
    name b₅ with ⟨fault, hfault⟩ | ⟨file, files, said, hnames, hwrite, hends⟩
  · cases hfault.symm.trans h
  · obtain ⟨-, rfl⟩ := hends.unique h
    rw [hkept.files, hkept.target] at hwrite
    refine ⟨⟨n, name, length, content, file⟩, rfl, ⟨hn, ⟨mark, stride, hwords⟩, hlength, hcontent,
      ?_⟩, hwrite, hkept.target, hkept.memory rfl, ?_⟩
    · by_cases hzero : n = 0
      · subst hzero
        simpa [Extraction.Named] using hnames
      · simpa [Extraction.Named, hzero] using hnames
    · exact hkept.bytes.trans hb

/-- Work that has changed nothing when it stops with a fault. -/
def KeepsOnFault (m : Work α) : Prop :=
  ∀ b fault b', m.run.run b = (.error fault, b') → Untouched false b b'

theorem Surveys.keepsOnFault (h : Surveys false m) : KeepsOnFault m := by
  intro b fault b' hrun
  have hkept := h.untouched b
  rwa [hrun] at hkept

theorem Surveys.bind_keepsOnFault {f : α → Work β} (hm : Surveys false m)
    (hf : ∀ a, KeepsOnFault (f a)) : KeepsOnFault (m >>= f) := by
  intro b fault b' hrun
  have hkept := hm.untouched b
  rw [run_bind] at hrun
  cases hfirst : m.run.run b with
  | mk r b₁ =>
    rw [hfirst] at hrun hkept
    cases r with
    | ok a => exact hkept.trans (hf a b₁ fault b' hrun)
    | error first =>
      obtain ⟨-, rfl⟩ := Prod.mk.inj hrun
      exact hkept

/-- **A record that is not read** to its end changes nothing. -/
theorem readRecordAt_keeps (reported : Option Int) (name : Option (List UInt8)) :
    KeepsOnFault (readRecordAt reported name) := by
  have hhere : KeepsOnFault (readRecordHere reported name) := by
    refine surveys_readThreeWords.bind_keepsOnFault fun words => ?_
    refine (surveys_readBytes _).bind_keepsOnFault fun content => ?_
    refine (Surveys.note _ _).bind_keepsOnFault fun _ => ?_
    refine surveys_position.bind_keepsOnFault fun behind => ?_
    cases name with
    | none => exact (Surveys.throw _).keepsOnFault
    | some name =>
      intro b fault b' hrun
      rcases writeContent_cases content _ name b with ⟨_, hfault⟩ | ⟨_, _, _, -, -, hends⟩
      · obtain ⟨-, rfl⟩ := Prod.mk.inj (hfault.symm.trans hrun)
        exact .refl b
      · cases hends.symm.trans hrun
  cases reported with
  | none =>
    exact Surveys.openStream.bind_keepsOnFault fun _ => (Surveys.throw_bind _ _).keepsOnFault
  | some n => exact (surveys_seek n).bind_keepsOnFault fun _ => hhere

/-! ### All records -/

/-- Files are written one after the other, each from its record. -/
inductive Extracts (bytes : List UInt8) (target : String) : Files → List Extraction → Files → Prop
  | nil (f : Files) : Extracts bytes target f [] f
  | cons {f f' f'' : Files} {x : Extraction} {xs : List Extraction} (hx : x.ReadFrom bytes)
      (hwrite : f.write (target ++ x.file) x.content = .ok f')
      (h : Extracts bytes target f' xs f'') : Extracts bytes target f (x :: xs) f''

theorem Extracts.eq_of_nil (h : Extracts bytes target f [] f') : f' = f := by
  cases h
  rfl

/-- **The records of an index** are written up to the first one that stops the work. -/
theorem exists_extracts_readRecords (lines : List IndexLine) (hb : b.stream.bytes? = some bytes) :
    ∃ r b' xs rest, (readRecords lines).run.run b = (r, b') ∧ b'.memory = b.memory ∧
      lines = xs.map Extraction.line ++ rest ∧ Extracts bytes b.target b.files xs b'.files ∧
      (r = .ok () → rest = []) := by
  induction lines generalizing b with
  | nil => exact ⟨_, _, [], [], rfl, rfl, rfl, .nil _, fun _ => rfl⟩
  | cons line lines ih =>
    cases line with
    | packed name position =>
      obtain ⟨old, hstream⟩ := Stream.exists_of_bytes? hb
      refine ⟨.error .positionNotNumber, b, [], _, ?_, rfl, rfl, .nil _, by simp⟩
      rw [readRecords, run_bind, run_openStream, hstream]
      rfl
    | found position name =>
      rw [readRecords, run_bind]
      cases hrecord : (readRecordAt (some position) (some name)).run.run b with
      | mk r b₁ =>
        cases r with
        | error fault =>
          have hkept := readRecordAt_keeps _ _ b fault b₁ hrecord
          refine ⟨.error fault, b₁, [], _, rfl, hkept.memory rfl, rfl, ?_, by simp⟩
          rw [hkept.files]
          exact .nil _
        | ok u =>
          obtain ⟨x, hline, hx, hwrite, htarget, hmemory, hb₁⟩ :=
            ends_readRecordAt hb hrecord
          obtain ⟨r, b', xs, rest, hrun, hmemory', hlines, hextracts, hrest⟩ := ih hb₁
          refine ⟨r, b', x :: xs, rest, hrun, hmemory'.trans hmemory, ?_, ?_, hrest⟩
          · rw [map_cons, hline, cons_append, ← hlines]
          · rw [htarget] at hextracts
            exact .cons hx hwrite hextracts

/-! ### The whole run -/

/-- Begun on an open archive, the work writes the files of a front part of the index it leaves, and
of all of it if it ends well. No line of the index is forgotten. -/
def Unloads (m : Work Unit) (b : Bench) : Prop :=
  ∀ bytes, b.stream.bytes? = some bytes → ∃ r b' xs rest, m.run.run b = (r, b') ∧
    Remembers b.memory.index b'.memory.index ∧ b'.memory.index = xs.map Extraction.line ++ rest ∧
    Extracts bytes b.target b.files xs b'.files ∧ (r = .ok () → rest = [])

theorem Surveys.bind_unloads {f : α → Work Unit} (hm : Surveys true m) (hf : ∀ a b, Unloads (f a) b)
    (b : Bench) : Unloads (m >>= f) b := by
  intro bytes hb
  have hkept := hm.untouched b
  rw [run_bind]
  cases hfirst : m.run.run b with
  | mk r b₁ =>
    rw [hfirst] at hkept
    cases r with
    | ok a =>
      obtain ⟨r, b', xs, rest, hrun, hkeeps, hindex, hextracts, hrest⟩ :=
        hf a b₁ bytes (hkept.bytes.trans hb)
      rw [hkept.files, hkept.target] at hextracts
      exact ⟨r, b', xs, rest, hrun, hkept.index.trans hkeeps, hindex, hextracts, hrest⟩
    | error fault =>
      refine ⟨.error fault, b₁, [], b₁.memory.index, rfl, hkept.index, rfl, ?_, by simp⟩
      rw [hkept.files]
      exact .nil _

theorem unloads_learn_bind {change : Memory → Memory} {f : Unit → Work Unit}
    (hchange : (change b.memory).index = b.memory.index)
    (h : Unloads (f ()) { b with memory := change b.memory }) : Unloads (learn change >>= f) b := by
  intro bytes hb
  obtain ⟨r, b', xs, rest, hrun, hkeeps, hrest⟩ := h bytes hb
  rw [hchange] at hkeeps
  exact ⟨r, b', xs, rest, hrun, hkeeps, hrest⟩

theorem unloads_get_bind {f : Bench → Work Unit} (h : Unloads (f b) b) : Unloads (get >>= f) b :=
  h

theorem unloads_extract (input : String) (bytes : List UInt8) (b : Bench) :
    Unloads (extract input bytes) b := by
  refine unloads_learn_bind rfl (surveys_readHeader.bind_unloads (fun _ b₁ => ?_) _)
  refine unloads_get_bind ?_
  refine (surveys_readEntries _).bind_unloads (fun _ => surveys_bytesLeft.bind_unloads fun left =>
    (surveys_skipToRecords (left + 1)).bind_unloads fun _ b₂ => unloads_get_bind ?_) _
  -- the records are those of the index as it stands now
  intro bytes hb
  obtain ⟨r, b', xs, rest, hrun, hmemory, hlines, hextracts, hrest⟩ :=
    exists_extracts_readRecords b₂.memory.index hb
  have hkeeps : Remembers b₂.memory.index b'.memory.index := by
    rw [hmemory]
    exact .refl _
  rw [← hmemory] at hlines
  rw [run_bind, hrun]
  cases r with
  | ok u => exact ⟨_, _, xs, rest, rfl, hkeeps, hlines, hextracts, hrest⟩
  | error fault => exact ⟨_, _, xs, rest, rfl, hkeeps, hlines, hextracts, hrest⟩

/-- The files once the target is made a folder, if it was none, and why that may fail. -/
def readied (f : Files) (target : String) : Files × Option FileFault :=
  if f.isFolder target then (f, none) else f.makeFolders target

theorem run_makeFolders (path : String) (b : Bench) : (makeFolders path).run.run b =
    match b.files.makeFolders path with
    | (files, some fault) => (.error (.file fault), { b with files })
    | (files, none) => (.ok (), { b with files }) := by
  rw [makeFolders, run_get_bind]
  rcases b.files.makeFolders path with ⟨files, _ | fault⟩ <;> rfl

theorem run_readFile (path : String) (b : Bench) : (readFile path).run.run b =
    match b.files.read path with
    | .ok bytes => (.ok bytes, b)
    | .error fault => (.error (.file fault), b) := by
  rw [readFile, run_get_bind]
  cases b.files.read path <;> rfl

/-- **Unpacking** is to make the folder, to read the archive, and to extract its files. -/
theorem run_unpack (input target : String) (b : Bench) : (unpack input target).run.run b =
    match readied b.files target with
    | (files, some fault) => (.error (.file fault), { b with target, files })
    | (files, none) =>
      match files.read input with
      | .error fault => (.error (.file fault), { b with target, files })
      | .ok bytes =>
        let out := (extract input bytes).run.run { b with target, files, stream := .opened bytes 0 }
        (out.1, { out.2 with stream := .closed }) := by
  have hread (b : Bench) : (do
      let bytes ← readFile input
      modify fun b => { b with stream := .opened bytes 0 }
      tryFinally (extract input bytes) (modify fun b => { b with stream := .closed } : Work PUnit)
        : Work Unit).run.run b =
      match b.files.read input with
      | .error fault => (.error (.file fault), b)
      | .ok bytes =>
        let out := (extract input bytes).run.run { b with stream := .opened bytes 0 }
        (out.1, { out.2 with stream := .closed }) := by
    rw [run_bind, run_readFile]
    cases b.files.read input with
    | error fault => rfl
    | ok bytes =>
      simp only [run_modify_bind]
      rw [run_tryFinally_modify]
  rw [unpack, run_modify_bind, run_get_bind, readied]
  by_cases hfolder : b.files.isFolder target = true
  · simp only [hfolder, Bool.not_true, Bool.false_eq_true, if_false, if_true]
    rw [hread]
  · simp only [hfolder, Bool.not_false, Bool.false_eq_true, if_false, if_true]
    rw [run_bind, run_makeFolders]
    rcases b.files.makeFolders target with ⟨files, _ | fault⟩
    · exact hread _
    · rfl

/-- **The run as a whole**: files are written only from records that the index names in the archive,
and the index forgets nothing. -/
theorem exists_extracts_unpack (input target : String) (b : Bench) :
    ∃ r b' bytes xs rest, (unpack input target).run.run b = (r, b') ∧
      Remembers b.memory.index b'.memory.index ∧ b'.memory.index = xs.map Extraction.line ++ rest ∧
      Extracts bytes target (readied b.files target).1 xs b'.files ∧
      (r = .ok () → rest = []) ∧
      (r = .ok () ∨ xs ≠ [] → (readied b.files target).1.read input = .ok bytes) := by
  rw [run_unpack]
  rcases readied b.files target with ⟨files, _ | fault⟩
  · dsimp only
    cases hread : files.read input with
    | error fault =>
      exact ⟨_, _, [], [], b.memory.index, rfl, .refl _, rfl, .nil _, by simp, by simp⟩
    | ok bytes =>
      obtain ⟨r, b', xs, rest, hrun, hkeeps, hindex, hextracts, hrest⟩ := unloads_extract input
        bytes { b with target, files, stream := .opened bytes 0 } bytes rfl
      simp only [hrun]
      exact ⟨_, _, bytes, xs, rest, rfl, hkeeps, hindex, hextracts, hrest, fun _ => rfl⟩
  · exact ⟨_, _, [], [], b.memory.index, rfl, .refl _, rfl, .nil _, by simp, by simp⟩

/-! ### What stands where afterwards -/

theorem sameContents_readied (f : Files) (target : String) :
    f.SameContents (readied f target).1 := by
  rw [readied]
  split
  · exact .refl f
  · exact .makeFolders f target

/-- The last of the files written to the target that went to a place. -/
def lastAt (f : Files) (target : String) (xs : List Extraction) (place : List String) :
    Option Extraction :=
  xs.reverse.find? fun x => f.wayTo (target ++ x.file) == place

/-- **Each place** holds what was written there last, or what it held before. -/
theorem Extracts.contentAt (h : Extracts bytes target f xs f') (place : List String) :
    f'.contentAt place = ((lastAt f target xs place).map (·.content)).or (f.contentAt place) := by
  induction h with
  | nil f => rfl
  | @cons f f' f'' x xs hx hwrite h ih =>
    have hlast : lastAt f' target xs place = lastAt f target xs place := by
      simp only [lastAt, Files.wayTo, Files.origin, Files.home_write hwrite]
    have hcons : lastAt f target (x :: xs) place = (lastAt f target xs place).or
        (if f.wayTo (target ++ x.file) = place then some x else none) := by
      rw [lastAt, reverse_cons, lastAt]
      by_cases hplace : f.wayTo (target ++ x.file) = place <;> simp [hplace]
    rw [ih, hlast, hcons, Files.contentAt_write hwrite]
    cases lastAt f target xs place with
    | some last => rfl
    | none =>
      by_cases hplace : f.wayTo (target ++ x.file) = place
      · simp [hplace]
      · simp [hplace, Ne.symm hplace]

theorem Extracts.readFrom (h : Extracts bytes target f xs f') : ∀ x ∈ xs, x.ReadFrom bytes := by
  induction h with
  | nil f => simp
  | cons hx hwrite h ih => exact forall_mem_cons.mpr ⟨hx, ih⟩

end

end ApkWorkshop.Archive
