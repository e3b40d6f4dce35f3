import ApkWorkshop.Proofs.ArchiveExtraction

/-!
# Where Unpacked Files Lie and What They Hold

Unpacking trusts what it reads. The name of a file is any text of the index, put behind the target
as it is, and the content is what the archive holds from its record on, at most as much as the
record says. Both are checked by nothing, for any bytes that are given as an archive.

A name that goes up leads out of the target (`unpack_writes_outside`), and an archive that is cut
off is unpacked without a word (`unpack_cuts_content`).
-/

namespace ApkWorkshop

open List ApkWorkshop.Path Files

theorem Files.wayTo_append (f : Files) {target : String} (htarget : endsWith target "/" = true)
    (file : String) : f.wayTo (target ++ file) = resolve (f.wayTo target) (parts file) := by
  rw [endsWith_slash] at htarget
  obtain ⟨xs, hxs⟩ := getLast?_eq_some_iff.mp htarget
  have hparts : parts target = partsFrom [] xs ++ [""] := by
    rw [parts, hxs, partsFrom_append]
    rfl
  have hboth : parts (target ++ file) = partsFrom [] xs ++ parts file := by
    rw [parts, String.toList_append, hxs, append_assoc, singleton_append, partsFrom_append]
    rfl
  have horigin : f.origin (target ++ file) = f.origin target := by
    rw [origin, origin, isAbsolute, isAbsolute, String.toList_append, hxs]
    cases xs <;> rfl
  rw [wayTo, wayTo, horigin, hparts, hboth, resolve_append, resolve_append]
  rfl

namespace Archive

theorem exists_contentAt_unpack (input target : String) (b : Bench) :
    ∃ r b' bytes, ∃ xs : List Extraction, ∃ rest, (unpack input target).run.run b = (r, b') ∧
      b'.memory.index = xs.map Extraction.line ++ rest ∧ (∀ x ∈ xs, x.ReadFrom bytes) ∧
      (∀ place, b'.files.contentAt place =
        ((lastAt b.files target xs place).map (·.content)).or (b.files.contentAt place)) ∧
      (r = .ok () → rest = []) ∧
      (r = .ok () ∨ xs ≠ [] → (readied b.files target).1.read input = .ok bytes) := by
  obtain ⟨r, b', bytes, xs, rest, hrun, -, hindex, hextracts, hr⟩ :=
    exists_extracts_unpack input target b
  have hsame := sameContents_readied b.files target
  refine ⟨r, b', bytes, xs, rest, hrun, hindex, hextracts.readFrom, fun place => ?_, hr⟩
  have hlast : lastAt (readied b.files target).1 target xs place =
      lastAt b.files target xs place := by
    simp only [lastAt, wayTo, origin, hsame.home]
  rw [hextracts.contentAt, hsame.contentAt, hlast]

/-! ### Places -/

/-- **Where unpacking writes**, whatever the archive, whatever was remembered before, and however it
ends. The files that were written come from a front part of the index, and from all of it if
unpacking ends well, with the names that are given there. Each goes to the place where the target
with its name behind leads, and every other place holds what it held. If none of them goes to the
place of the archive, each is read from its record there. If the target ends with a slash, a name
that descends leads below the target; any other name leads out of some folder. -/
theorem unpack_writes_where_names_lead (input target : String) (b : Bench) :
    ∃ r b', ∃ xs : List Extraction, ∃ rest, (unpack input target).run.run b = (r, b') ∧
      b'.memory.index = xs.map Extraction.line ++ rest ∧ (r = .ok () → rest = []) ∧
      (∀ place, b'.files.contentAt place =
        ((lastAt b.files target xs place).map (·.content)).or (b.files.contentAt place)) ∧
      ((∀ x ∈ xs, b.files.wayTo (target ++ x.file) ≠ b.files.wayTo input) → ∀ x ∈ xs,
        ∃ bytes, (readied b.files target).1.read input = .ok bytes ∧ x.ReadFrom bytes) ∧
      ∀ x ∈ xs, x.Named ∧ (Path.endsWith target "/" = true → Path.descends 0 (Path.parts x.file) = true →
          Path.Inside (b.files.wayTo target) (b.files.wayTo (target ++ x.file))) ∧
        (Path.descends 0 (Path.parts x.file) = false →
          ∃ base, ¬ Path.Inside base (Path.resolve base (Path.parts x.file))) := by
  obtain ⟨r, b', bytes, xs, rest, hrun, hindex, hfrom, hcontents, hrest, hread⟩ :=
    exists_contentAt_unpack input target b
  refine ⟨r, b', xs, rest, hrun, hindex, hrest, hcontents, fun _ x hx => ?_,
    fun x hx => ⟨(hfrom x hx).named, ?_, ?_⟩⟩
  · exact ⟨bytes, hread (Or.inr (ne_nil_of_mem hx)), hfrom x hx⟩
  · intro htarget hname
    rw [Files.wayTo_append _ htarget]
    exact (Path.descends_iff _).mp hname (b.files.wayTo target)
  · intro hname
    by_contra hall
    rw [(Path.descends_iff _).mpr (not_exists_not.mp hall)] at hname
    cases hname

def climbingArchive : List UInt8 :=
  headBytes 24 1 ++ entryBytes 36 "../evil" ++ recordBytes [120] ++ closing

def climbingTree : Files :=
  ⟨.folder (.cons "a" (.file climbingArchive) (.cons "o" (.folder .nil) .nil)), []⟩

/-- **A file outside of the target**: a name that goes up leads out of the folder that the archive
is unpacked into, and nothing is said about it. -/
theorem unpack_writes_outside : ∃ b, Ends (unpack "a" "o/") { files := climbingTree } () b ∧
    climbingTree.contentAt ["evil"] = none ∧ b.files.contentAt ["evil"] = some [120] ∧
    climbingTree.wayTo "o/" = ["o"] ∧ ¬ Path.Inside ["o"] ["evil"] := by
  refine ⟨_, ends_of_run ?_, ?_, ?_, ?_, ?_⟩
  · decide +kernel
  · decide +kernel
  · decide +kernel
  · decide +kernel
  · rintro ⟨below, -, hbelow⟩
    simp at hbelow

/-! ### Contents -/

/-- **What unpacked files hold**, whatever the archive. If unpacking ends well in a process that
remembers nothing, it wrote one file for each line of the index that it read, and nothing else. If
none of them went to the place of the archive, each holds the bytes behind its record, as many as
the record says or all that are left; their number is the length in the record exactly if that is no
negative number and the archive does not end before. -/
theorem unpack_contents_by_length {f : Files} {input target : String} {b : Bench}
    (h : Ends (unpack input target) { files := f } () b) :
    ∃ bytes, ∃ xs : List Extraction, (readied f target).1.read input = .ok bytes ∧
      b.memory.index = xs.map Extraction.line ∧ (∀ x ∈ xs, x.Named) ∧
      ((∀ x ∈ xs, f.wayTo (target ++ x.file) ≠ f.wayTo input) →
        ∀ x ∈ xs, x.ReadFrom bytes ∧ ((x.content.length : Int) = x.length ↔
          0 ≤ x.length ∧ x.position + 12 + x.length ≤ bytes.length)) ∧
      ∀ place, b.files.contentAt place =
        ((lastAt f target xs place).map (·.content)).or (f.contentAt place) := by
  obtain ⟨r, b', bytes, xs, rest, hrun, hindex, hfrom, hcontents, hrest, hread⟩ :=
    exists_contentAt_unpack input target { files := f }
  obtain ⟨rfl, rfl⟩ := Prod.mk.inj (h.symm.trans hrun)
  rw [hrest rfl, append_nil] at hindex
  exact ⟨bytes, xs, hread (Or.inl rfl), hindex, fun x hx => (hfrom x hx).named,
    fun _ x hx => ⟨hfrom x hx, (hfrom x hx).length_content_iff⟩, hcontents⟩

/-- An archive of one file that ends within its content: three of five bytes are there. -/
def cutArchive : List UInt8 :=
  headBytes 20 1 ++ entryBytes 32 "f" ++ (recordBytes [104, 101, 108, 108, 111]).take 15

def cutTree : Files :=
  ⟨.folder (.cons "a" (.file cutArchive) (.cons "o" (.folder .nil) .nil)), []⟩

/-- One file is read from it, beside the archive. -/
theorem unpack_contents_cutArchive : ∃ b, Ends (unpack "a" "o/") { files := cutTree } () b ∧
    ∃ x : Extraction, b.memory.index = [x.line] ∧ x.ReadFrom cutArchive ∧
      ((x.content.length : Int) = x.length ↔
        0 ≤ x.length ∧ x.position + 12 + x.length ≤ cutArchive.length) := by
  have hends := @ends_of_run _ _ _ (unpack "a" "o/") { files := cutTree } () (by decide +kernel)
  obtain ⟨bytes, xs, hread, hindex, hnamed, hfrom, -⟩ := unpack_contents_by_length hends
  obtain rfl : cutArchive = bytes := Except.ok.inj (Eq.trans (by decide +kernel) hread)
  have hline : ((unpack "a" "o/").run.run { files := cutTree }).2.memory.index =
      [.found 32 [102]] := by decide +kernel
  obtain ⟨x, rfl, hx⟩ := map_eq_singleton_iff.mp (hindex.symm.trans hline)
  obtain ⟨-, hname⟩ := IndexLine.found.inj hx
  have hfile : x.file = "f" := by
    have hfile := hnamed x mem_cons_self
    rw [Extraction.Named, hname] at hfile
    exact (Except.ok.inj hfile).symm
  refine ⟨_, hends, x, hindex, hfrom (fun y hy => ?_) x mem_cons_self⟩
  rw [mem_singleton.mp hy, hfile]
  decide +kernel

/-- **A damaged file without an error**: the record says five bytes, three are written, and
unpacking ends well. -/
theorem unpack_cuts_content : ∃ b, Ends (unpack "a" "o/") { files := cutTree } () b ∧
    threeWords? ((cutArchive.drop 32).take 12) = some (2, 12, 5) ∧
    b.files.contentAt ["o", "f"] = some [104, 101, 108] := by
  refine ⟨_, ends_of_run ?_, ?_, ?_⟩
  · decide +kernel
  · decide
  · decide +kernel

end Archive

end ApkWorkshop
