import ApkWorkshop.Proofs.ArchiveExtraction

/-!
# What Work on Archives Depends On

Work on an archive may be begun on benches that differ in what they remember. `Agrees R m S`
compares two such runs: from benches related by `R` the work `m` returns the same value or stops
with the same fault, the files are the same afterwards, and if it ends well the benches are related
by `S`. What each relation asks for is what the work depends on.

Messages, the console, the stream and the target of the bench, and every other fact in its memory
are left open by both.
-/

namespace ApkWorkshop.Archive

open List

variable {α β : Type}

/-- Two runs from related benches end in the same way and with the same files, and if they end well,
on related benches. -/
def Agrees (R : Bench → Bench → Prop) (m : Work α) (S : α → Bench → Bench → Prop) : Prop :=
  ∀ b c, R b c → ∃ r b' c', m.run.run b = (r, b') ∧ m.run.run c = (r, c') ∧ b'.files = c'.files ∧
    ∀ a, r = .ok a → S a b' c'

/-! ### Rules -/

section Rules

variable {R T : Bench → Bench → Prop} {m : Work α} {S : α → Bench → Bench → Prop}
  {U : β → Bench → Bench → Prop}

theorem Agrees.mono {S' : α → Bench → Bench → Prop} (h : Agrees R m S) (hR : ∀ b c, T b c → R b c)
    (hS : ∀ a b c, S a b c → S' a b c) : Agrees T m S' := by
  intro b c hbc
  obtain ⟨r, b', c', hb, hc, hfiles, hends⟩ := h b c (hR b c hbc)
  exact ⟨r, b', c', hb, hc, hfiles, fun a ha => hS a b' c' (hends a ha)⟩

theorem Agrees.bind {f : α → Work β} (hm : Agrees R m S) (hf : ∀ a, Agrees (S a) (f a) U) :
    Agrees R (m >>= f) U := by
  intro b c hbc
  obtain ⟨r, b', c', hb, hc, hfiles, hends⟩ := hm b c hbc
  rw [run_bind, run_bind, hb, hc]
  cases r with
  | ok a => exact hf a b' c' (hends a rfl)
  | error fault => exact ⟨.error fault, b', c', rfl, rfl, hfiles, by simp⟩

theorem agrees_pure (a : α) (hR : ∀ b c, R b c → b.files = c.files) :
    Agrees R (pure a : Work α) fun a' b c => a' = a ∧ R b c := by
  intro b c hbc
  exact ⟨.ok a, b, c, rfl, rfl, hR b c hbc, fun a' ha' => ⟨(Except.ok.inj ha').symm, hbc⟩⟩

theorem agrees_throw (fault : Fault) (hR : ∀ b c, R b c → b.files = c.files) :
    Agrees R (throw fault : Work α) S := by
  intro b c hbc
  exact ⟨.error fault, b, c, rfl, rfl, hR b c hbc, by simp⟩

theorem Agrees.get_bind {f : Bench → Work β} (hf : ∀ b c, R b c → f b = f c)
    (h : ∀ b, Agrees R (f b) U) : Agrees R (get >>= f) U := by
  intro b c hbc
  rw [run_get_bind, run_get_bind, ← hf b c hbc]
  exact h b b c hbc

theorem agrees_modify {change : Bench → Bench} (hchange : ∀ b c, R b c → T (change b) (change c))
    (hT : ∀ b c, T b c → b.files = c.files) : Agrees R (modify change : Work PUnit) fun _ => T := by
  intro b c hbc
  exact ⟨.ok ⟨⟩, change b, change c, rfl, rfl, hT _ _ (hchange b c hbc), fun _ _ => hchange b c hbc⟩

theorem agrees_onFiles (change : Files → Except FileFault Files)
    (hR : ∀ b c, R b c → b.files = c.files)
    (hfiles : ∀ b c files, R b c → T { b with files } { c with files }) :
    Agrees R (onFiles change) fun _ => T := by
  intro b c hbc
  rw [run_onFiles, run_onFiles, hR b c hbc]
  cases change c.files with
  | ok files => exact ⟨_, _, _, rfl, rfl, rfl, fun _ _ => hfiles b c files hbc⟩
  | error fault => exact ⟨_, _, _, rfl, rfl, hR b c hbc, by simp⟩

end Rules

/-! ### Unpacking -/

/-- Benches that work on an open archive does not tell apart. -/
structure Alike (b c : Bench) : Prop where
  files : b.files = c.files
  target : b.target = c.target
  stream : b.stream = c.stream
  index : b.memory.index = c.memory.index
  size : b.memory.size = c.memory.size

/-- **A survey** finds the same on benches that are alike, and leaves them alike. -/
theorem Surveys.agrees {m : Work α} (h : Surveys true m) : Agrees Alike m fun _ => Alike := by
  induction h with
  | pure a => exact (agrees_pure a fun _ _ h => h.files).mono (fun _ _ h => h) fun _ _ _ h => h.2
  | throw fault => exact agrees_throw fault fun _ _ h => h.files
  | bind _ _ ihm ihf => exact ihm.bind ihf
  | note level text =>
    exact agrees_modify (fun _ _ h => ⟨h.files, h.target, h.stream, h.index, h.size⟩)
      fun _ _ h => h.files
  | learn _ hindex _ hsize =>
    refine agrees_modify (fun b c h => ⟨h.files, h.target, h.stream, hindex _ _ h.index, ?_⟩)
      fun _ _ h => h.files
    rw [hsize, hsize, h.size]
  | openStream =>
    intro b c h
    refine ⟨b.stream.state, b, c, run_openStream b, ?_, h.files, fun _ _ => h⟩
    rw [run_openStream, h.stream]
  | moveTo position =>
    intro b c h
    rw [run_moveTo, run_moveTo, h.stream]
    cases c.stream with
    | none => exact ⟨_, _, _, rfl, rfl, h.files, by simp⟩
    | closed => exact ⟨_, _, _, rfl, rfl, h.files, by simp⟩
    | opened bytes old =>
      exact ⟨_, _, _, rfl, rfl, h.files, fun _ _ => ⟨h.files, h.target, rfl, h.index, h.size⟩⟩
  | knownSize =>
    intro b c h
    refine ⟨_, b, c, run_knownSize b, ?_, h.files, fun _ _ => h⟩
    rw [run_knownSize, h.size]

theorem Surveys.agrees_bind {m : Work α} {f : α → Work β} {U : β → Bench → Bench → Prop}
    (hm : Surveys true m) (hf : ∀ a, Agrees Alike (f a) U) : Agrees Alike (m >>= f) U :=
  hm.agrees.bind hf

/-- **The header** tells both benches how many entries there are. -/
theorem agrees_readHeader :
    Agrees Alike readHeader fun _ b c => Alike b c ∧ b.memory.count = c.memory.count := by
  refine (surveys_readBytes 4).agrees_bind fun header => ?_
  refine Surveys.agrees_bind (surveys_learn (fun _ => rfl) fun _ => rfl) fun _ => ?_
  by_cases hmagic : header ≠ magic
  · simp only [if_pos hmagic]
    exact (Surveys.note _ _).agrees_bind fun _ => agrees_throw _ fun _ _ h => h.files
  · simp only [if_neg hmagic]
    refine surveys_readWord.agrees_bind fun found => ?_
    refine Surveys.agrees_bind (surveys_learn (fun _ => rfl) fun _ => rfl) fun _ => ?_
    -- another revision is worth a warning, and nothing else
    split
    on_goal 1 => refine (Surveys.note _ _).agrees_bind fun _ => ?_
    all_goals
      refine surveys_readWord.agrees_bind fun _ => surveys_position.agrees_bind fun _ => ?_
      refine Surveys.agrees_bind (surveys_learn (fun _ => rfl) fun _ => rfl) fun _ => ?_
      refine surveys_readWord.agrees_bind fun count => ?_
      exact agrees_modify (fun _ _ h => ⟨⟨h.files, h.target, h.stream, h.index, h.size⟩, rfl⟩)
        fun _ _ h => h.1.files

theorem agrees_writeContent (content : List UInt8) (shown : Int) (name : List UInt8) :
    Agrees Alike (writeContent content shown name) fun _ => Alike := by
  unfold writeContent
  cases Text.decode name with
  | error fault => exact agrees_throw _ fun _ _ h => h.files
  | ok text =>
    refine Surveys.agrees_bind (.pure text) fun text => Agrees.get_bind ?_ fun b => ?_
    · intro b c h
      rw [h.target]
    · refine Agrees.bind (agrees_onFiles _ (fun _ _ h => h.files) ?_)
        fun _ => (Surveys.note _ _).agrees
      exact fun _ _ _ h => ⟨rfl, h.target, h.stream, h.index, h.size⟩

theorem agrees_readRecordAt (n : Int) (name : List UInt8) :
    Agrees Alike (readRecordAt (some n) (some name)) fun _ => Alike := by
  refine (surveys_seek n).agrees_bind fun _ => surveys_readThreeWords.agrees_bind fun words => ?_
  refine (surveys_readBytes _).agrees_bind fun content => (Surveys.note _ _).agrees_bind fun _ => ?_
  exact surveys_position.agrees_bind fun behind => agrees_writeContent content _ name

theorem agrees_readRecords (lines : List IndexLine) :
    Agrees Alike (readRecords lines) fun _ => Alike := by
  induction lines with
  | nil => exact (Surveys.pure ()).agrees
  | cons line lines ih =>
    cases line with
    | packed name position => exact (Surveys.bind .openStream fun _ => .throw _).agrees
    | found position name => exact (agrees_readRecordAt position name).bind fun _ => ih

/-- Benches with the same files, the same open archive and the same index, whatever else they know
about archives. -/
structure Opened (b c : Bench) : Prop where
  files : b.files = c.files
  target : b.target = c.target
  stream : b.stream = c.stream
  index : b.memory.index = c.memory.index

/-- **Extracting** learns first what the steps behind ask for. -/
theorem agrees_extract (input : String) (bytes : List UInt8) :
    Agrees Opened (extract input bytes) fun _ => Alike := by
  refine Agrees.bind (agrees_modify (fun b c h => ?_) fun _ _ h => Alike.files h) fun _ => ?_
  · exact ⟨h.files, h.target, h.stream, h.index, rfl⟩
  refine agrees_readHeader.bind fun _ => Agrees.get_bind (fun b c h => by rw [h.2]) fun b => ?_
  refine Agrees.mono (R := Alike) ?_ (fun _ _ h => h.1) fun _ _ _ h => h
  refine (surveys_readEntries _).agrees_bind fun _ => surveys_bytesLeft.agrees_bind fun left => ?_
  refine (surveys_skipToRecords _).agrees_bind fun _ => ?_
  refine Agrees.get_bind (fun b c h => ?_) fun b => ?_
  · rw [h.index]
  · exact (agrees_readRecords _).bind fun _ => agrees_modify
      (fun _ _ h => ⟨h.files, h.target, h.stream, h.index, h.size⟩) fun _ _ h => h.files

theorem agrees_unpack (input target : String) :
    Agrees (fun b c => b.files = c.files ∧ b.memory.index = c.memory.index) (unpack input target)
      fun _ _ _ => True := by
  rintro b c ⟨hfiles, hindex⟩
  rw [run_unpack, run_unpack, hfiles]
  rcases readied c.files target with ⟨files, _ | fault⟩
  · dsimp only
    cases files.read input with
    | error fault => exact ⟨_, _, _, rfl, rfl, rfl, by simp⟩
    | ok bytes =>
      obtain ⟨r, b', c', hb, hc, hfiles', -⟩ := agrees_extract input bytes
        { b with target, files, stream := .opened bytes 0 }
        { c with target, files, stream := .opened bytes 0 } ⟨rfl, rfl, rfl, hindex⟩
      simp only [hb, hc]
      exact ⟨_, _, _, rfl, rfl, hfiles', by simp⟩
  · exact ⟨_, _, _, rfl, rfl, rfl, by simp⟩

/-! ### Packing -/

/-- Benches with the same files, on which the same is remembered about the records of some names. -/
structure Recalls (known : List String) (b c : Bench) : Prop where
  files : b.files = c.files
  positions : ∀ name ∈ known,
    packedPosition? name b.memory.index = packedPosition? name c.memory.index

theorem putPositions_congr {index index' : List IndexLine} {names : List String}
    (h : ∀ name ∈ names, packedPosition? name index = packedPosition? name index')
    (bytes : List UInt8) (position : Nat) :
    putPositions index bytes position names = putPositions index' bytes position names := by
  induction names generalizing bytes position with
  | nil => rfl
  | cons name names ih =>
    have hrest := ih fun other hother => h other (mem_cons_of_mem _ hother)
    simp only [putPositions, h name mem_cons_self, hrest]

theorem agrees_readFile {known : List String} (path : String) :
    Agrees (Recalls known) (readFile path) fun _ => Recalls known := by
  intro b c h
  rw [run_readFile, run_readFile, h.files]
  cases c.files.read path with
  | ok bytes => exact ⟨_, _, _, rfl, rfl, h.files, fun _ _ => h⟩
  | error fault => exact ⟨_, _, _, rfl, rfl, h.files, by simp⟩

/-- **Records** are written in the same way, and then the same is remembered about them. -/
theorem agrees_writeRecords (folder : String) (names : List String) (written : List UInt8)
    (known : List String) : Agrees (Recalls known) (writeRecords folder written names)
      fun out b c => b.files = c.files ∧ (out.2 = none → Recalls (names ++ known) b c) := by
  induction names generalizing written known with
  | nil =>
    exact (agrees_pure _ fun _ _ h => h.files).mono (fun _ _ h => h)
      fun _ _ _ h => ⟨h.2.files, fun _ => h.2⟩
  | cons name names ih =>
    refine (agrees_readFile _).bind fun content => ?_
    refine Agrees.bind (S := fun _ => Recalls (name :: known)) ?_ fun _ => ?_
    · refine agrees_modify (fun b c h => ⟨h.files, ?_⟩) fun _ _ h => h.files
      intro other hother
      rw [packedPosition?_putLine, packedPosition?_putLine]
      split
      · rfl
      · rename_i hne
        exact h.positions other ((mem_cons.mp hother).resolve_left hne)
    · split
      · exact (agrees_pure _ fun _ _ h => h.files).mono (fun _ _ h => h)
          fun _ _ _ h => ⟨h.2.files, fun hnone => by simp [h.1] at hnone⟩
      · refine (ih _ _).mono (fun _ _ h => h) fun out b c h => ⟨h.1, fun hnone => ?_⟩
        refine ⟨h.1, fun other hother => (h.2 hnone).positions other ?_⟩
        simp only [cons_append, mem_cons, mem_append] at hother ⊢
        exact or_left_comm.mp hother

def SameFiles (b c : Bench) : Prop :=
  b.files = c.files

theorem agrees_write (output : String) (bytes : List UInt8) :
    Agrees SameFiles (onFiles (·.write output bytes)) fun _ => SameFiles :=
  agrees_onFiles _ (fun _ _ h => h) fun _ _ _ _ => rfl

theorem agrees_pack (folder output : String) :
    Agrees SameFiles (pack folder output) fun _ => SameFiles := by
  refine (agrees_write output []).bind fun _ => ?_
  refine Agrees.bind (S := fun _ => SameFiles) (agrees_modify (fun _ _ h => h) fun _ _ h => h)
    fun _ => Agrees.get_bind (fun b c h => by rw [h]) fun b => ?_
  dsimp only
  cases b.files.list folder with
  | error fault => exact agrees_throw _ fun _ _ h => h
  | ok listed =>
    dsimp only
    rw [pure_bind]
    generalize filesIn b.files folder listed = names
    refine Agrees.bind (S := fun _ => SameFiles) (agrees_modify (fun _ _ h => h) fun _ _ h => h)
      fun _ => (agrees_write output _).bind fun _ => ?_
    refine Agrees.bind (Agrees.mono (T := SameFiles) (agrees_writeRecords folder names _ [])
      (fun b c h => ⟨h, by simp⟩) fun _ _ _ h => h) ?_
    rintro ⟨bytes, _ | fault⟩
    · refine Agrees.get_bind (fun b c h => ?_) fun b => ?_
      · dsimp only
        rw [putPositions_congr fun name hname => (h.2 rfl).positions name (by simpa using hname)]
      · dsimp only
        generalize putPositions b.memory.index (bytes ++ closing) 16 names = put
        obtain ⟨bytes, fault⟩ := put
        refine Agrees.mono (R := SameFiles) ((agrees_write output bytes).bind fun _ => ?_)
          (fun _ _ h => h.1) fun _ _ _ h => h
        cases fault with
        | some fault => exact agrees_throw _ fun _ _ h => h
        | none => exact agrees_modify (fun _ _ h => h) fun _ _ h => h
    · exact Agrees.mono (R := SameFiles) ((agrees_write output bytes).bind fun _ =>
        agrees_throw fault fun _ _ h => h) (fun _ _ h => h.1) fun _ _ _ h => h

end ApkWorkshop.Archive
