import ApkWorkshop.Proofs.ArchiveAgreement

/-!
# Calls in One Process

A process may pack and unpack many archives, with many archivers. What is remembered about archives
belongs to the process; only the open stream and the target belong to an archiver. An index that was
filled once is never emptied, so a call may see what calls before it left.

That calls before it can matter is seen on two calls (`unpack_fails_after_pack`).
-/

namespace ApkWorkshop.Archive

open List

/-- A call of an archiver. -/
inductive Call
  | pack (folder output : String)
  | unpack (input target : String)

def Call.work : Call → Work Unit
  | .pack folder output => Archive.pack folder output
  | .unpack input target => Archive.unpack input target

/-- The files, what is remembered about archives, and the stream and the target of every archiver. A
new process remembers nothing, and its archivers have opened nothing. -/
structure Process where
  files : Files
  memory : Memory := {}
  own : Nat → Stream × String := fun _ => (.none, "")

namespace Process

variable {p q : Process}

def bench (p : Process) (archiver : Nat) : Bench where
  files := p.files
  memory := p.memory
  stream := (p.own archiver).1
  target := (p.own archiver).2

/-- A call of an archiver: how it ends, and the process afterwards. -/
def call (p : Process) (archiver : Nat) (c : Call) : Except Fault Unit × Process :=
  let out := c.work.run.run (p.bench archiver)
  (out.1, ⟨out.2.files, out.2.memory, Function.update p.own archiver (out.2.stream, out.2.target)⟩)

def after (p : Process) (history : List (Nat × Call)) : Process :=
  history.foldl (fun p c => (p.call c.1 c.2).2) p

/-- What a call comes to: how it ends, and the files that it leaves. -/
def outcome (p : Process) (archiver : Nat) (c : Call) : Except Fault Unit × Files :=
  ((p.call archiver c).1, (p.call archiver c).2.files)

/-! ### What the outcome of a call depends on -/

theorem outcome_eq_run (p : Process) (archiver : Nat) (c : Call) :
    p.outcome archiver c = ((c.work.run.run (p.bench archiver)).1,
      (c.work.run.run (p.bench archiver)).2.files) :=
  rfl

theorem outcome_of_agrees {R : Bench → Bench → Prop} {S : Unit → Bench → Bench → Prop} {c : Call}
    (h : Agrees R c.work S) {archiver : Nat} (hpq : R (p.bench archiver) (q.bench archiver)) :
    p.outcome archiver c = q.outcome archiver c := by
  obtain ⟨r, b, b', hb, hb', hfiles, -⟩ := h _ _ hpq
  rw [outcome_eq_run, outcome_eq_run, hb, hb', hfiles]

/-- **Packing** comes to the same in every process with these files. -/
theorem outcome_pack (hfiles : p.files = q.files) (archiver : Nat) (folder output : String) :
    p.outcome archiver (.pack folder output) = q.outcome archiver (.pack folder output) :=
  outcome_of_agrees (c := .pack folder output) (agrees_pack folder output) hfiles

/-- **Unpacking** comes to the same in every process with these files and this index. -/
theorem outcome_unpack (hfiles : p.files = q.files) (hindex : p.memory.index = q.memory.index)
    (archiver : Nat) (input target : String) :
    p.outcome archiver (.unpack input target) = q.outcome archiver (.unpack input target) :=
  outcome_of_agrees (c := .unpack input target) (agrees_unpack input target) ⟨hfiles, hindex⟩

/-- **Once something was packed** and its line is in the index, no archive can be unpacked: the line
stays, and it holds no position to go to. -/
theorem outcome_unpack_of_packed {name : String} {position : Nat}
    (h : .packed name position ∈ p.memory.index) (archiver : Nat) (input target : String) :
    (p.outcome archiver (.unpack input target)).1 ≠ .ok () := by
  intro hok
  obtain ⟨r, b, bytes, xs, rest, hrun, hkeeps, hindex, -, hrest, -⟩ :=
    exists_extracts_unpack input target (p.bench archiver)
  rw [outcome_eq_run, Call.work, hrun] at hok
  rw [hrest hok, append_nil] at hindex
  obtain ⟨line, hline, hkey⟩ := hkeeps _ h
  rw [hindex] at hline
  obtain ⟨x, -, rfl⟩ := mem_map.mp hline
  cases hkey

/-! ### An archive without entries -/

/-- An archive whose index is empty. A record at any of its positions is at most five bytes long. -/
def hollowArchive : List UInt8 :=
  headBytes (-2) 0 ++ [2]

def hollowTree : Files :=
  ⟨.folder (.cons "a" (.file hollowArchive) (.cons "o" (.folder .nil) .nil)), []⟩

theorem contentAt_hollowTree {place : List String} {content : List UInt8}
    (h : hollowTree.contentAt place = some content) : content = hollowArchive := by
  cases place with
  | nil => cases h
  | cons name rest =>
    rw [Files.contentAt, hollowTree, Node.get?_folder_cons, Entries.get?_cons] at h
    split at h
    · cases rest with
      | nil => exact (Option.some.inj h).symm
      | cons next rest => cases h
    rw [Entries.get?_cons] at h
    split at h
    · cases rest <;> cases h
    · cases h

theorem outcome_hollowTree (archiver : Nat) :
    ({ files := hollowTree } : Process).outcome archiver (.unpack "a" "o/") =
      (.ok (), hollowTree) := by
  have hok : ((unpack "a" "o/").run.run { files := hollowTree }).1 = .ok () := by decide +kernel
  have hempty : ((unpack "a" "o/").run.run { files := hollowTree }).2.memory.index = [] := by
    decide +kernel
  obtain ⟨r, b, bytes, xs, rest, hrun, -, hindex, hextracts, -⟩ :=
    exists_extracts_unpack "a" "o/" { files := hollowTree }
  rw [hrun] at hok hempty
  rw [hempty, eq_comm, append_eq_nil_iff, map_eq_nil_iff] at hindex
  rw [hindex.1] at hextracts
  exact Prod.ext ((congrArg Prod.fst hrun).trans hok)
    ((congrArg (·.2.files) hrun).trans hextracts.eq_of_nil)

theorem outcome_hollowTree_ne (hindex : p.memory.index ≠ []) (archiver : Nat) :
    ({ p with files := hollowTree } : Process).outcome archiver (.unpack "a" "o/") ≠
      (.ok (), hollowTree) := by
  intro hsame
  obtain ⟨r, b, bytes, xs, rest, hrun, hkeeps, hlines, hextracts, hrest, hread⟩ :=
    exists_extracts_unpack "a" "o/" (({ p with files := hollowTree } : Process).bench archiver)
  rw [outcome_eq_run, Call.work, hrun] at hsame
  obtain ⟨hok, hfiles⟩ := Prod.mk.inj hsame
  have hread := hread (Or.inl hok)
  have hready : readied (({ p with files := hollowTree } : Process).bench archiver).files "o/" =
      (hollowTree, none) := by
    change readied hollowTree "o/" = _
    rw [readied, if_pos (by decide +kernel)]
  rw [hready] at hread hextracts
  rw [hfiles] at hextracts
  obtain rfl : hollowArchive = bytes := by
    have hbytes : hollowTree.read "a" = .ok hollowArchive := by decide +kernel
    exact Except.ok.inj (hbytes.symm.trans hread)
  -- the line that is remembered leads to a file that was written
  obtain ⟨line, hline⟩ := exists_mem_of_ne_nil _ hindex
  obtain ⟨line', hline', -⟩ := hkeeps line hline
  rw [hlines, hrest hok, append_nil] at hline'
  obtain ⟨x, hx, -⟩ := mem_map.mp hline'
  have hlast : (lastAt hollowTree "o/" xs (hollowTree.wayTo ("o/" ++ x.file))).isSome = true := by
    rw [lastAt, find?_isSome]
    exact ⟨x, mem_reverse.mpr hx, beq_self_eq_true _⟩
  obtain ⟨y, hy⟩ := Option.isSome_iff_exists.mp hlast
  have hcontent := hextracts.contentAt (hollowTree.wayTo ("o/" ++ x.file))
  rw [hy, Option.map_some] at hcontent
  -- but it is shorter than the only file that is there
  have hread := hextracts.readFrom y (mem_reverse.mp (mem_of_find?_eq_some hy))
  have hshort := hread.length_content_le
  rw [contentAt_hollowTree hcontent] at hshort
  omega

end Process

/-! ### Behind any history -/

/-- **A call behind any history of calls**, made by any archiver. Packing has the outcome that it
has in a new process over the same files. Unpacking has the outcome that it has in a process over
the same files that remembers nothing but the index. Whatever is called next and over whatever
files, the outcome is that in a new process exactly if the index is empty; and if it holds a packed
file, unpacking never ends well. -/
theorem outcome_after_history (f : Files) (history : List (Nat × Call)) (archiver : Nat) :
    let p := Process.after { files := f } history
    (∀ folder output, p.outcome archiver (.pack folder output) =
      Process.outcome { files := p.files } archiver (.pack folder output)) ∧
    (∀ input target, p.outcome archiver (.unpack input target) =
      Process.outcome { files := p.files, memory := { index := p.memory.index } } archiver
        (.unpack input target)) ∧
    ((∀ g c, Process.outcome { p with files := g } archiver c =
      Process.outcome { files := g } archiver c) ↔ p.memory.index = []) ∧
    ∀ name position, .packed name position ∈ p.memory.index →
      ∀ input target, (p.outcome archiver (.unpack input target)).1 ≠ .ok () := by
  intro p
  clear_value p
  refine ⟨?_, ?_, ⟨?_, ?_⟩, ?_⟩
  · intro folder output
    apply Process.outcome_pack
    rfl
  · intro input target
    apply Process.outcome_unpack <;> rfl
  · intro hsame
    by_contra hindex
    exact Process.outcome_hollowTree_ne hindex archiver
      ((hsame _ _).trans (Process.outcome_hollowTree archiver))
  · intro hindex g c
    cases c with
    | pack folder output =>
      apply Process.outcome_pack
      rfl
    | unpack input target =>
      apply Process.outcome_unpack
      · rfl
      · exact hindex
  · intro name position hpacked
    exact Process.outcome_unpack_of_packed hpacked archiver

/-- Files with an archive, a folder to pack and a folder to unpack into. -/
def busyTree : Files :=
  ⟨.folder (.cons "a" (.file (headBytes 20 1 ++ entryBytes 32 "f" ++ recordBytes [1] ++ closing))
    (.cons "d" (.folder (.cons "f" (.file [2]) .nil)) (.cons "o" (.folder .nil) .nil))), []⟩

/-- **A call that fails because of another one**: behind the packing of a folder, an archive cannot
be unpacked, although it can be in a new process over the files as they are then. -/
theorem unpack_fails_after_pack :
    let p := Process.after { files := busyTree } [(0, .pack "d/" "n")]
    (p.outcome 0 (.unpack "a" "o/")).1 = .error .positionNotNumber ∧
      (Process.outcome { files := p.files } 0 (.unpack "a" "o/")).1 = .ok () := by
  constructor
  · decide +kernel
  · decide +kernel

end ApkWorkshop.Archive
