import ApkWorkshop.Archive.Unpacking
import ApkWorkshop.Proofs.Steps

/-!
# Looking Through an Archive

Most of unpacking only looks: it moves through the open archive, leaves messages and remembers what
it reads. `Surveys learns m` says that the work `m` is made of such steps, and `learns` whether it
may remember anything. **Such work touches nothing**, whether or not it ends well
(`Surveys.untouched`): it changes no file, keeps the target and the bytes of the archive, and
forgets no line of the index; if it does not learn, it keeps the memory.

Every step of unpacking before the records is such work (`surveys_readHeader`,
`surveys_readEntries`, `surveys_skipToRecords`), and so is the reading of a record up to the file
that is written.
-/

namespace ApkWorkshop.Archive

open List

variable {α : Type} {learns : Bool}

def Stream.bytes? : Stream → Option (List UInt8)
  | .opened bytes _ => some bytes
  | .closed => Option.none
  | .none => Option.none

theorem Stream.exists_of_bytes? {stream : Stream} {bytes : List UInt8}
    (h : stream.bytes? = some bytes) : ∃ position, stream = .opened bytes position := by
  cases stream with
  | none => cases h
  | closed => cases h
  | opened other position =>
    obtain rfl := Option.some.inj h
    exact ⟨position, rfl⟩

/-- Every line of an index has a line with the same key in the other: it may have been replaced, but
it was not forgotten. -/
def Remembers (index index' : List IndexLine) : Prop :=
  ∀ line ∈ index, ∃ line' ∈ index', line'.sameKey line = true

theorem IndexLine.sameKey_self (line : IndexLine) : line.sameKey line = true := by
  cases line <;> simp [sameKey]

theorem IndexLine.sameKey_trans {a b c : IndexLine} (hab : a.sameKey b = true)
    (hbc : b.sameKey c = true) : a.sameKey c = true := by
  cases a <;> cases b <;> cases c <;> simp_all [sameKey]

theorem Remembers.refl (index : List IndexLine) : Remembers index index :=
  fun line hline => ⟨line, hline, line.sameKey_self⟩

theorem Remembers.trans {a b c : List IndexLine} (hab : Remembers a b) (hbc : Remembers b c) :
    Remembers a c := by
  intro line hline
  obtain ⟨line', hline', hkey⟩ := hab line hline
  obtain ⟨line'', hline'', hkey'⟩ := hbc line' hline'
  exact ⟨line'', hline'', IndexLine.sameKey_trans hkey' hkey⟩

theorem remembers_putLine (line : IndexLine) (index : List IndexLine) :
    Remembers index (putLine line index) := by
  induction index with
  | nil => simp [Remembers]
  | cons old index ih =>
    rw [putLine]
    split
    · rename_i hkey
      intro other hother
      rcases mem_cons.mp hother with rfl | hother
      · exact ⟨line, mem_cons_self, hkey⟩
      · exact ⟨other, mem_cons_of_mem _ hother, other.sameKey_self⟩
    · intro other hother
      rcases mem_cons.mp hother with rfl | hother
      · exact ⟨other, mem_cons_self, other.sameKey_self⟩
      · obtain ⟨line', hline', hkey⟩ := ih other hother
        exact ⟨line', mem_cons_of_mem _ hline', hkey⟩

/-- Work that moves through the open archive, leaves messages and, if it learns, remembers. What is
remembered in the index depends on the index only, nothing in it is forgotten, and the size of the
archive is not changed. -/
inductive Surveys (learns : Bool) : {α : Type} → Work α → Prop
  | pure {α : Type} (a : α) : Surveys learns (pure a : Work α)
  | throw {α : Type} (fault : Fault) : Surveys learns (throw fault : Work α)
  | bind {α β : Type} {m : Work α} {f : α → Work β} (hm : Surveys learns m)
      (hf : ∀ a, Surveys learns (f a)) : Surveys learns (m >>= f)
  | note (level : Level) (text : String) : Surveys learns (note level text)
  | learn (h : learns = true) {change : Memory → Memory}
      (hindex : ∀ m n : Memory, m.index = n.index → (change m).index = (change n).index)
      (hkeeps : ∀ m, Remembers m.index (change m).index)
      (hsize : ∀ m, (change m).size = m.size) : Surveys learns (learn change)
  | openStream : Surveys learns openStream
  | moveTo (position : Nat) : Surveys learns (moveTo position)
  | knownSize : Surveys learns knownSize

/-! ### Single steps -/

/-- The bytes and the position of a stream, or why there are none. -/
def Stream.state : Stream → Except Fault (List UInt8 × Nat)
  | .none => .error .noStream
  | .closed => .error .closedStream
  | .opened bytes position => .ok (bytes, position)

theorem run_openStream (b : Bench) : openStream.run.run b = (b.stream.state, b) := by
  rw [openStream, run_get_bind]
  cases b.stream <;> rfl

theorem run_moveTo (position : Nat) (b : Bench) : (moveTo position).run.run b =
    match b.stream with
    | .none => (.error .noStream, b)
    | .closed => (.error .closedStream, b)
    | .opened bytes _ => (.ok (), { b with stream := .opened bytes position }) := by
  rw [moveTo, run_bind, run_openStream]
  cases b.stream <;> rfl

theorem run_knownSize (b : Bench) : knownSize.run.run b =
    (b.memory.size.elim (.error .sizeUnknown) .ok, b) := by
  rw [knownSize, run_get_bind]
  cases b.memory.size <;> rfl

theorem Surveys.throw_bind {β : Type} (fault : Fault) (f : α → Work β) :
    Surveys learns ((MonadExcept.throw fault : Work α) >>= f) :=
  .throw fault

/-! ### What such work keeps -/

/-- No file, not the target and not the archive has changed, and no line of the index is forgotten;
nor has the memory changed, unless the work learns. -/
structure Untouched (learns : Bool) (b b' : Bench) : Prop where
  files : b'.files = b.files
  target : b'.target = b.target
  bytes : b'.stream.bytes? = b.stream.bytes?
  index : Remembers b.memory.index b'.memory.index
  memory : learns = false → b'.memory = b.memory

namespace Untouched

theorem refl (b : Bench) : Untouched learns b b :=
  ⟨rfl, rfl, rfl, .refl _, fun _ => rfl⟩

theorem trans {b b' b'' : Bench} (h : Untouched learns b b') (h' : Untouched learns b' b'') :
    Untouched learns b b'' where
  files := h'.files.trans h.files
  target := h'.target.trans h.target
  bytes := h'.bytes.trans h.bytes
  index := h.index.trans h'.index
  memory hlearns := (h'.memory hlearns).trans (h.memory hlearns)

end Untouched

/-- **A survey touches nothing**, whether or not it ends well. -/
theorem Surveys.untouched {m : Work α} (h : Surveys learns m) (b : Bench) :
    Untouched learns b (m.run.run b).2 := by
  induction h generalizing b with
  | pure a => exact .refl b
  | throw fault => exact .refl b
  | @bind _ _ m f _ _ ihm ihf =>
    have hfirst := ihm b
    rw [run_bind]
    cases hrun : m.run.run b with
    | mk r b' =>
      rw [hrun] at hfirst
      cases r with
      | ok a => exact hfirst.trans (ihf a b')
      | error fault => exact hfirst
  | note level text => exact ⟨rfl, rfl, rfl, .refl _, fun _ => rfl⟩
  | learn h hindex hkeeps hsize =>
    exact ⟨rfl, rfl, rfl, hkeeps b.memory, fun hlearns => by simp [h] at hlearns⟩
  | openStream =>
    rw [run_openStream]
    exact .refl b
  | moveTo position =>
    rw [run_moveTo]
    cases hstream : b.stream with
    | none => exact .refl b
    | closed => exact .refl b
    | opened bytes old => exact ⟨rfl, rfl, by rw [hstream]; rfl, .refl _, fun _ => rfl⟩
  | knownSize =>
    rw [run_knownSize]
    exact .refl b

theorem Surveys.kept {m : Work α} (h : Surveys learns m) {b b' : Bench} {a : α}
    (hends : Ends m b a b') : Untouched learns b b' := by
  have hkept := h.untouched b
  rwa [hends] at hkept

/-! ### The steps of unpacking that only look -/

theorem surveys_seek (position : Int) : Surveys learns (seek position) := by
  refine .bind .openStream fun _ => ?_
  split
  · exact .throw _
  · exact .moveTo _

theorem surveys_stepBack : Surveys learns stepBack :=
  .bind .openStream fun _ => surveys_seek _

theorem surveys_position : Surveys learns position :=
  .bind .openStream fun _ => .pure _

theorem surveys_bytesLeft : Surveys learns bytesLeft :=
  .bind .openStream fun _ => .pure _

theorem surveys_readBytes (count : Int) : Surveys learns (readBytes count) := by
  refine .bind .openStream fun ⟨bytes, position⟩ => ?_
  by_cases hcount : count < -1
  · simp only [if_pos hcount]
    exact .throw_bind _ _
  · simp only [if_neg hcount]
    exact .bind (.moveTo _) fun _ => .pure _

theorem surveys_readWord : Surveys learns readWord := by
  refine .bind (surveys_readBytes 4) fun read => ?_
  cases word? read with
  | some n => exact .pure _
  | none => exact .throw _

theorem surveys_readThreeWords : Surveys learns readThreeWords := by
  refine .bind (surveys_readBytes 12) fun read => ?_
  cases threeWords? read with
  | some words => exact .pure _
  | none => exact .throw _

theorem surveys_readByte : Surveys learns readByte := by
  refine .bind (surveys_readBytes 1) fun read => ?_
  split
  · exact .pure _
  · exact .throw _

theorem surveys_findMark (mark : Int) (fuel : Nat) : Surveys learns (findMark mark fuel) := by
  induction fuel with
  | zero => exact .throw _
  | succ fuel ih =>
    refine .bind surveys_readByte fun _ => ?_
    split
    · exact surveys_stepBack
    · refine .bind .knownSize fun _ => .bind surveys_position fun _ => ?_
      split
      · exact .bind .openStream fun _ => .moveTo _
      · exact ih

theorem surveys_goToMark (mark : Int) (look : Bool) : Surveys learns (goToMark mark look) := by
  rw [goToMark]
  split
  · exact .bind surveys_bytesLeft fun _ => surveys_findMark _ _
  · exact surveys_stepBack

theorem surveys_skipToRecords (fuel : Nat) : Surveys learns (skipToRecords fuel) := by
  induction fuel with
  | zero => exact .throw _
  | succ fuel ih =>
    refine .bind surveys_readByte fun _ => ?_
    split
    · exact surveys_stepBack
    · exact ih

theorem surveys_readEntry (look : Bool) : Surveys true (readEntry look) := by
  refine .bind surveys_readThreeWords fun words => .bind (surveys_readBytes _) fun name => ?_
  refine .bind (.learn rfl ?_ (fun m => remembers_putLine _ m.index) fun _ => rfl) fun _ =>
    .bind (.note _ _) fun _ => surveys_goToMark _ _
  intro m n hindex
  rw [hindex]

theorem surveys_readEntries (count : Nat) : Surveys true (readEntries count) := by
  induction count with
  | zero => exact .pure _
  | succ count ih => exact .bind (surveys_readEntry _) fun _ => ih

theorem surveys_learn {change : Memory → Memory} (hindex : ∀ m, (change m).index = m.index)
    (hsize : ∀ m, (change m).size = m.size) : Surveys true (learn change) := by
  refine .learn rfl (fun m n h => ?_) (fun m => ?_) hsize
  · rw [hindex, hindex, h]
  · rw [hindex]
    exact .refl _

theorem surveys_readHeader : Surveys true readHeader := by
  refine .bind (surveys_readBytes 4) fun header => .bind (surveys_learn (fun _ => rfl) fun _ => rfl)
    fun _ => ?_
  by_cases hmagic : header ≠ magic
  · simp only [if_pos hmagic]
    exact .bind (.note _ _) fun _ => .throw_bind _ _
  · simp only [if_neg hmagic]
    refine .bind surveys_readWord fun found => ?_
    refine .bind (surveys_learn (fun _ => rfl) fun _ => rfl) fun _ => ?_
    split
    on_goal 1 => refine .bind (.note _ _) fun _ => ?_
    all_goals
      refine .bind surveys_readWord fun _ => .bind surveys_position fun _ => ?_
      refine .bind (surveys_learn (fun _ => rfl) fun _ => rfl) fun _ => ?_
      exact .bind surveys_readWord fun _ => surveys_learn (fun _ => rfl) fun _ => rfl

end ApkWorkshop.Archive
