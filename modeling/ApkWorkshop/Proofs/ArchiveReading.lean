import ApkWorkshop.Archive.Unpacking
import ApkWorkshop.Proofs.ArchiveFormat
import ApkWorkshop.Proofs.ArchivePacking

/-!
# Reading an Open Archive

Unpacking walks through the bytes of an archive, learns from them and writes files. A `Scene` is all
of that but the messages, and `Goes m s a s'` says that the work `m` leads from one scene to another
and returns `a`, whatever was said before:

* `goes_readBytes`, `goes_readThreeWords`, `goes_stepBack`, … — the steps on the open archive, by
  what stands at the position;
* `goes_findMark` — the search for the next entry ends at it, because only zeros stand before it;
* `goes_readEntries` — **the index** is read, up to the last name;
* `goes_skipToRecords` — the search for the records ends, wherever it does;
* `goes_readRecords` — **the records** are written to files, each under the name of its entry,
  and everything outside of the target is as before.

The archive is any conforming one: names and contents may hold the bytes of marks, records may stand
anywhere behind the index.
-/

namespace ApkWorkshop.Archive

open Text List

variable {α β : Type}

/-- What unpacking works with while an archive is open. -/
structure Scene where
  bytes : List UInt8
  position : Nat
  memory : Memory
  files : Files
  target : String

/-- A bench in a scene: messages and console may hold anything. -/
structure Scene.Shows (s : Scene) (b : Bench) : Prop where
  stream : b.stream = .opened s.bytes s.position
  memory : b.memory = s.memory
  files : b.files = s.files
  target : b.target = s.target

/-- The work leads from a scene to a scene and returns a value. -/
def Goes (m : Work α) (s : Scene) (a : α) (s' : Scene) : Prop :=
  ∀ b, s.Shows b → ∃ b', Ends m b a b' ∧ s'.Shows b'

variable {s s' : Scene} {c : β} {files : Files} {rest : List UInt8} {file : IndexedFile}
  {count : Int} {fuel : Nat}

/-! ### Steps in a scene -/

theorem Goes.bind {m : Work α} {f : α → Work β} {s'' : Scene} {a : α} (h : Goes m s a s')
    (h' : Goes (f a) s' c s'') : Goes (m >>= f) s c s'' := by
  intro b hb
  obtain ⟨b', hm, hb'⟩ := h b hb
  obtain ⟨b'', hf, hb''⟩ := h' b' hb'
  exact ⟨b'', hm.bind hf, hb''⟩

theorem goes_pure (a : α) (s : Scene) : Goes (pure a) s a s :=
  fun b hb => ⟨b, ends_pure.mpr ⟨rfl, rfl⟩, hb⟩

theorem Goes.get_bind {f : Bench → Work β} (h : ∀ b, s.Shows b → Goes (f b) s c s') :
    Goes (get >>= f) s c s' := by
  intro b hb
  obtain ⟨b', hf, hb'⟩ := h b hb b hb
  exact ⟨b', Ends.bind (ends_get.mpr ⟨rfl, rfl⟩) hf, hb'⟩

theorem goes_note (level : Level) (text : String) (s : Scene) : Goes (note level text) s () s :=
  fun _ hb => ⟨_, ends_modify.mpr rfl, ⟨hb.stream, hb.memory, hb.files, hb.target⟩⟩

theorem goes_learn (change : Memory → Memory) (s : Scene) :
    Goes (learn change) s () { s with memory := change s.memory } :=
  fun b hb => ⟨_, ends_modify.mpr rfl, ⟨hb.stream, by rw [← hb.memory], hb.files, hb.target⟩⟩

theorem goes_onFiles {change : Files → Except FileFault Files} (h : change s.files = .ok files) :
    Goes (onFiles change) s () { s with files } := by
  intro b hb
  have hchange : change b.files = .ok files := by rw [hb.files, h]
  exact ⟨_, ends_onFiles hchange, ⟨hb.stream, hb.memory, rfl, hb.target⟩⟩

theorem goes_openStream (s : Scene) : Goes openStream s (s.bytes, s.position) s := by
  refine Goes.get_bind fun b hb => ?_
  rw [hb.stream]
  exact goes_pure _ s

theorem goes_moveTo (position : Nat) (s : Scene) :
    Goes (moveTo position) s () { s with position } :=
  (goes_openStream s).bind fun _ hb =>
    ⟨_, ends_modify.mpr rfl, ⟨rfl, hb.memory, hb.files, hb.target⟩⟩

theorem goes_seek (position : Nat) (s : Scene) : Goes (seek position) s () { s with position } := by
  refine (goes_openStream s).bind ?_
  exact goes_moveTo position s

theorem goes_stepBack {position : Nat} (h : s.position = position + 1) :
    Goes stepBack s () { s with position } := by
  refine (goes_openStream s).bind ?_
  have hback : (s.position : Int) - 1 = position := by omega
  simp only [hback]
  exact goes_seek position s

theorem goes_position (s : Scene) : Goes position s s.position s :=
  (goes_openStream s).bind (goes_pure _ s)

theorem goes_bytesLeft (s : Scene) : Goes bytesLeft s (s.bytes.length - s.position) s :=
  (goes_openStream s).bind (goes_pure _ s)

theorem goes_knownSize {size : Nat} (h : s.memory.size = some size) : Goes knownSize s size s := by
  refine Goes.get_bind fun b hb => ?_
  rw [hb.memory, h]
  exact goes_pure _ s

/-! ### Reading at the position -/

theorem goes_readBytes {xs : List UInt8} (h : s.bytes.drop s.position = xs ++ rest)
    (hcount : count = xs.length) :
    Goes (readBytes count) s xs { s with position := s.position + xs.length } := by
  subst hcount
  refine (goes_openStream s).bind ?_
  have hcount : ¬ (xs.length : Int) < -1 := by omega
  have hread : (if (xs.length : Int) = -1 then s.bytes.drop s.position
      else (s.bytes.drop s.position).take (xs.length : Int).toNat) = xs := by
    rw [if_neg (by omega), h, Int.toNat_natCast, take_left]
  simp only [hcount, if_false, hread]
  exact (goes_moveTo _ s).bind (goes_pure _ _)

theorem goes_readWord {n : Int} (hn : fitsWord n = true)
    (h : s.bytes.drop s.position = wordBytes n ++ rest) :
    Goes readWord s n { s with position := s.position + 4 } := by
  refine (goes_readBytes h rfl).bind ?_
  rw [word?_wordBytes hn]
  exact goes_pure _ _

theorem goes_readThreeWords {a b c : Int} (ha : fitsWord a = true) (hb : fitsWord b = true)
    (hc : fitsWord c = true)
    (h : s.bytes.drop s.position = wordBytes a ++ (wordBytes b ++ wordBytes c) ++ rest) :
    Goes readThreeWords s (a, b, c) { s with position := s.position + 12 } := by
  refine (goes_readBytes h rfl).bind ?_
  rw [threeWords?_wordBytes ha hb hc]
  exact goes_pure _ _

theorem goes_readByte {x : UInt8} (h : s.bytes.drop s.position = x :: rest) :
    Goes readByte s x { s with position := s.position + 1 } :=
  (goes_readBytes (show _ = [x] ++ rest from h) rfl).bind (goes_pure _ _)

/-! ### The header -/

theorem goes_readHeader {found dataStart : Int} (hfound : fitsWord found = true)
    (hdata : fitsWord dataStart = true) (hcount : fitsWord count = true)
    (h : s.bytes.drop s.position = magic ++ (wordBytes found ++ (wordBytes dataStart ++
      (wordBytes count ++ rest)))) :
    Goes readHeader s () { s with
      position := s.position + 16
      memory := { s.memory with
        header := some magic
        revision := some found
        dataStart := some (dataStart + (s.position + 12 : Nat))
        count := some count } } := by
  have hrevision := drop_behind h
  have hdistance := drop_behind hrevision
  have hlength := drop_behind hdistance
  refine (goes_readBytes h rfl).bind ((goes_learn _ _).bind ?_)
  refine (goes_readWord hfound hrevision).bind ((goes_learn _ _).bind ?_)
  -- another revision is worth a warning, and nothing else
  split
  on_goal 1 => refine (goes_note _ _ _).bind ?_
  all_goals
    refine (goes_readWord hdata hdistance).bind ((goes_position _).bind ((goes_learn _ _).bind ?_))
    exact (goes_readWord hcount hlength).bind (goes_learn _ _)

/-! ### The index -/

/-- **The search for the next entry** goes over the zeros in front of it. The end of the archive is
not near, because bytes follow the mark. -/
theorem goes_findMark {count : Nat} (hrest : rest ≠ [])
    (hsize : s.memory.size = some s.bytes.length)
    (h : s.bytes.drop s.position = zeros count ++ 1 :: rest) (hfuel : count < fuel) :
    Goes (findMark entryMark fuel) s () { s with position := s.position + count } := by
  induction count generalizing s fuel with
  | zero =>
    obtain ⟨fuel, rfl⟩ : ∃ n, fuel = n + 1 := ⟨fuel - 1, by omega⟩
    refine (goes_readByte h).bind ?_
    exact goes_stepBack rfl
  | succ count ih =>
    obtain ⟨fuel, rfl⟩ : ∃ n, fuel = n + 1 := ⟨fuel - 1, by omega⟩
    have hnext : s.bytes.drop (s.position + 1) = zeros count ++ 1 :: rest := by
      rw [← drop_drop, h]
      rfl
    have hlength := congrArg List.length hnext
    rw [length_drop, length_append, length_cons] at hlength
    have hpositive : 0 < rest.length := length_pos_iff.mpr hrest
    refine (goes_readByte h).bind ?_
    refine Goes.bind (goes_knownSize (s := { s with position := s.position + 1 }) hsize)
      ((goes_position _).bind ?_)
    rw [if_neg (by simp only; omega)]
    have hgoes := @ih { s with position := s.position + 1 } fuel hsize hnext (by omega)
    simpa only [Nat.add_assoc, Nat.add_comm 1 count] using hgoes

theorem Goes.readEntry {look : Bool} (hposition : file.position < 0x80000000)
    (hname : (encode file.name).length < 0x80000000)
    (h : s.bytes.drop s.position = file.entryBytes ++ rest)
    (hgo : Goes (goToMark entryMark look) { s with
      position := s.position + (12 + (encode file.name).length)
      memory.index := putLine (.found file.position (encode file.name)) s.memory.index } () s') :
    Goes (readEntry look) s () s' := by
  have hwords : s.bytes.drop s.position = wordBytes entryMark ++ (wordBytes file.position ++
      wordBytes (encode file.name).length) ++ (encode file.name ++ (zeros file.padding ++ rest)) := by
    rw [h, IndexedFile.entryBytes]
    simp only [append_assoc]
  have htext := drop_behind hwords
  refine (goes_readThreeWords (by decide) (fitsWord_natCast hposition) (fitsWord_natCast hname)
    hwords).bind ?_
  refine (goes_readBytes htext rfl).bind ((goes_learn _ _).bind ((goes_note _ _ _).bind ?_))
  rw [Nat.add_assoc]
  exact hgo

theorem goes_readEntry_next {next : IndexedFile} (hposition : file.position < 0x80000000)
    (hname : (encode file.name).length < 0x80000000) (hsize : s.memory.size = some s.bytes.length)
    (h : s.bytes.drop s.position = file.entryBytes ++ (next.entryBytes ++ rest)) :
    Goes (readEntry true) s () { s with
      position := s.position + file.entryBytes.length
      memory.index := putLine (.found file.position (encode file.name)) s.memory.index } := by
  refine Goes.readEntry hposition hname h ?_
  generalize hs : ({ s with
    position := s.position + (12 + (encode file.name).length)
    memory.index := putLine (.found file.position (encode file.name)) s.memory.index } : Scene) = s₁
  have hzeros : ∃ tail, tail ≠ [] ∧
      s₁.bytes.drop s₁.position = zeros file.padding ++ 1 :: tail := by
    have hlength : (wordBytes entryMark ++ (wordBytes file.position ++
        (wordBytes (encode file.name).length ++ encode file.name))).length =
          12 + (encode file.name).length := by
      simp only [length_append, length_wordBytes]
      omega
    have hentry : file.entryBytes = wordBytes entryMark ++ (wordBytes file.position ++
        (wordBytes (encode file.name).length ++ encode file.name)) ++ zeros file.padding := by
      rw [IndexedFile.entryBytes]
      simp only [append_assoc]
    refine ⟨[0, 0, 0] ++ (wordBytes next.position ++ (wordBytes (encode next.name).length ++
      (encode next.name ++ zeros next.padding))) ++ rest, by simp, ?_⟩
    rw [← hs, ← drop_drop, h, hentry, append_assoc, drop_left' hlength]
    rfl
  obtain ⟨tail, htail, hzeros⟩ := hzeros
  refine (goes_bytesLeft s₁).bind ?_
  have hleft := congrArg List.length hzeros
  rw [length_drop, length_append, zeros, length_replicate] at hleft
  have hfind := goes_findMark (s := s₁) htail (by rw [← hs]; exact hsize) hzeros
    (show _ < s₁.bytes.length - s₁.position + 1 by omega)
  rw [← hs] at hfind ⊢
  rw [IndexedFile.length_entryBytes]
  simpa only [Nat.add_assoc] using hfind

def foundLines (files : List IndexedFile) : List IndexLine :=
  files.map fun file => .found file.position (encode file.name)

theorem putLine_of_new {line : IndexLine} {index : List IndexLine}
    (h : ∀ old ∈ index, line.sameKey old = false) : putLine line index = index ++ [line] := by
  induction index with
  | nil => rfl
  | cons old index ih =>
    have hrest := ih fun other hother => h other (by simp [hother])
    rw [putLine, h old (by simp), if_neg (by simp), hrest, cons_append]

/-- **The index** is read entry by entry. The last search does not look for a mark: it goes back
into the last entry. -/
theorem goes_readEntries {files : List IndexedFile} (hne : files ≠ [])
    (hfits : ∀ file ∈ files, file.position < 0x80000000)
    (hnamed : ∀ file ∈ files, (encode file.name).length < 0x80000000)
    (hpositions : (files.map (·.position)).Nodup)
    (hnew : ∀ file ∈ files, ∀ old ∈ s.memory.index, ∀ name,
      (IndexLine.found file.position name).sameKey old = false)
    (hsize : s.memory.size = some s.bytes.length)
    (h : s.bytes.drop s.position = files.flatMap IndexedFile.entryBytes ++ rest) :
    ∃ position ≤ s.position + (files.flatMap IndexedFile.entryBytes).length,
      Goes (readEntries files.length) s () { s with
        position
        memory.index := s.memory.index ++ foundLines files } := by
  induction files generalizing s with
  | nil => exact absurd rfl hne
  | cons file files ih =>
    have hput := putLine_of_new fun old hold => hnew file (by simp) old hold (encode file.name)
    have hentry : s.bytes.drop s.position =
        file.entryBytes ++ (files.flatMap IndexedFile.entryBytes ++ rest) := by
      rw [h, flatMap_cons, append_assoc]
    rw [length_cons, readEntries, flatMap_cons, length_append]
    cases files with
    | nil =>
      refine ⟨s.position + (11 + (encode file.name).length), ?_, ?_⟩
      · rw [IndexedFile.length_entryBytes]
        omega
      · refine Goes.bind (Goes.readEntry (hfits file (by simp)) (hnamed file (by simp)) hentry ?_)
          (goes_pure _ _)
        rw [hput]
        exact goes_stepBack (by simp only; omega)
    | cons next files =>
      have hread := goes_readEntry_next (hfits file (by simp)) (hnamed file (by simp)) hsize (by
        rw [hentry, flatMap_cons, append_assoc])
      have hrest : s.bytes.drop (s.position + file.entryBytes.length) =
          (next :: files).flatMap IndexedFile.entryBytes ++ rest := drop_behind hentry
      rw [hput] at hread
      rw [map_cons, nodup_cons] at hpositions
      obtain ⟨position, hle, hgoes⟩ := @ih { s with
          position := s.position + file.entryBytes.length
          memory.index := s.memory.index ++ [.found file.position (encode file.name)] }
        (by simp) (fun other hother => hfits other (by simp [hother]))
        (fun other hother => hnamed other (by simp [hother])) hpositions.2 (by
          intro other hother old hold name
          rcases mem_append.mp hold with hold | hold
          · exact hnew other (by simp [hother]) old hold name
          · have hother' : other.position ≠ file.position := fun heq =>
              hpositions.1 (heq ▸ mem_map_of_mem hother)
            obtain rfl := mem_singleton.mp hold
            rw [IndexLine.sameKey, beq_eq_false_iff_ne]
            omega) hsize hrest
      refine ⟨position, ?_, hread.bind ?_⟩
      · simp only at hle
        omega
      · simpa [foundLines] using hgoes

/-! ### The records -/

/-- **The search for the records** ends if a mark is ahead. It may end too early, at a byte of the
last name; the records are then looked up by their positions. -/
theorem goes_skipToRecords (hmark : 2 ∈ s.bytes.drop s.position)
    (hfuel : (s.bytes.drop s.position).length < fuel) :
    ∃ position, Goes (skipToRecords fuel) s () { s with position } := by
  induction fuel generalizing s with
  | zero => omega
  | succ fuel ih =>
    obtain ⟨x, rest, hbytes⟩ := exists_cons_of_ne_nil (ne_nil_of_mem hmark)
    have hnext : s.bytes.drop (s.position + 1) = rest := by
      rw [← drop_drop, hbytes]
      rfl
    by_cases hx : x.toNat = recordMark
    · refine ⟨s.position, (goes_readByte hbytes).bind ?_⟩
      rw [if_pos hx]
      exact goes_stepBack rfl
    · have hne : 2 ≠ x := by
        rintro rfl
        exact hx rfl
      rw [hbytes] at hmark hfuel
      obtain ⟨position, hgoes⟩ := @ih { s with position := s.position + 1 } (by
          rw [hnext]
          exact (mem_cons.mp hmark).resolve_left hne) (by
          rw [hnext]
          exact Nat.lt_of_succ_lt_succ hfuel)
      refine ⟨position, (goes_readByte hbytes).bind ?_⟩
      rw [if_neg hx]
      exact hgoes

theorem goes_writeContent {name : String} {content : List UInt8} (hname : name ≠ "")
    (hwrite : s.files.write (s.target ++ name) content = .ok files) (shown : Int) :
    Goes (writeContent content shown (encode name)) s () { s with files } := by
  have hempty : (encode name).isEmpty = false := by
    rw [isEmpty_eq_false_iff]
    intro hnil
    have hdecode := decode_encode name
    rw [hnil] at hdecode
    exact hname (Except.ok.inj hdecode).symm
  unfold writeContent
  simp only [decode_encode, hempty, Bool.false_eq_true, if_false]
  refine (goes_pure _ _).bind (Goes.get_bind fun b hb => ?_)
  rw [hb.target]
  exact (goes_onFiles hwrite).bind (goes_note _ _ _)

/-- **A record** is looked up by its position, and its content is written. -/
theorem goes_readRecordAt (hname : file.name ≠ "") (hstored : file.StoredIn s.bytes)
    (hwrite : s.files.write (s.target ++ file.name) file.content = .ok files) :
    Goes (readRecordAt (some file.position) (some (encode file.name))) s ()
      { s with position := file.position + 12 + file.content.length, files } := by
  obtain ⟨hlength, next, rest, hnext, hrecord⟩ := hstored
  have hwords : s.bytes.drop file.position = wordBytes recordMark ++ (wordBytes next ++
      wordBytes file.content.length) ++ (file.content ++ rest) := by
    rw [hrecord]
    simp only [append_assoc]
  have hcontent := drop_behind hwords
  refine (goes_seek file.position s).bind ?_
  refine Goes.bind (goes_readThreeWords (s := { s with position := file.position }) (by decide)
    hnext (fitsWord_natCast hlength) hwords) ?_
  refine Goes.bind (goes_readBytes (s := { s with position := file.position + 12 }) hcontent rfl) ?_
  refine (goes_note _ _ _).bind ((goes_position _).bind ?_)
  exact goes_writeContent (s := { s with position := file.position + 12 + file.content.length })
    hname hwrite _

/-- **The records of files** are written to the target, each under the name of its entry. -/
theorem goes_readRecords {files : List IndexedFile} {place : List String} {entries : Entries}
    (htarget : s.files.LeadsInto s.target place entries)
    (hnames : (files.map (·.name)).Nodup) (hfree : ∀ file ∈ files, file.name ∉ entries.names)
    (hproper : ∀ file ∈ files, ProperName file.name)
    (hstored : ∀ file ∈ files, file.StoredIn s.bytes) :
    ∃ position made, ∃ files' : Files,
      Goes (readRecords (foundLines files)) s () { s with position, files := files' } ∧
      s.files.SameAside files' place ∧ files'.LeadsInto s.target place made ∧
      made.toList.Perm (entries.toList ++ files.map fun file => (file.name, .file file.content)) := by
  induction files generalizing s entries with
  | nil =>
    exact ⟨s.position, entries, s.files, goes_pure _ _, .refl _ _, htarget, by simp⟩
  | cons file files ih =>
    have hfile := hproper file (by simp)
    have hnone := Entries.get?_eq_none (hfree file (by simp))
    obtain ⟨f', hwrite, hsame, hinto⟩ := Files.write_child htarget hfile hnone file.content
    have hput := Entries.perm_toList_put (.file file.content) (hfree file (by simp))
    rw [map_cons, nodup_cons] at hnames
    obtain ⟨position, made, files', hgoes, hsame', hmade, hperm⟩ := @ih
      { s with position := file.position + 12 + file.content.length, files := f' } _ hinto
      hnames.2 (by
        intro other hother hmem
        rcases Entries.mem_names_put hmem with heq | hmem
        · exact hnames.1 (heq ▸ mem_map_of_mem hother)
        · exact hfree other (by simp [hother]) hmem)
      (fun other hother => hproper other (by simp [hother]))
      (fun other hother => hstored other (by simp [hother]))
    refine ⟨position, made, files', Goes.bind (goes_readRecordAt hfile.ne_empty
      (hstored file (by simp)) hwrite) hgoes, hsame.trans hsame', hmade,
      hperm.trans ?_⟩
    exact (hput.append_right _).trans perm_middle.symm

end ApkWorkshop.Archive
