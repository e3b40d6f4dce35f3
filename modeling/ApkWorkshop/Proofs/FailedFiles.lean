import ApkWorkshop.Proofs.Workbench
import ApkWorkshop.Tool.Decoder
import ApkWorkshop.Tool.Decompiler

/-!
# What a Failed File Leaves

The decompiler and the decoder work on one file at a time, and tell the fault of a file as its
trouble instead of stopping (`Tool.exists_ends_of_failsWith`). They differ in what such a file
leaves.

Contents are compared place by place. The headline is `Tool.contents_after_failed_file`, and
`Tool.failed_decoding_cuts_output` is a run in which an output from before is lost.
-/

namespace ApkWorkshop

open Text Job

namespace Files

variable {f f' : Files} {path : String} {bytes content : List UInt8}

theorem contentAt_of_read (h : f.read path = .ok bytes) :
    f.contentAt (f.wayTo path) = some bytes := by
  obtain ⟨place, hlocate⟩ := exists_locate_of_read h
  rw [wayTo_of_locate hlocate, contentAt, get?_of_locate hlocate]
  rfl

theorem read_of_write {other : String} (hread : f.read path = .ok bytes)
    (hwrite : f.write other content = .ok f') :
    f'.read path = .ok (if f.wayTo path = f.wayTo other then content else bytes) := by
  obtain ⟨place, hlocate⟩ := exists_locate_of_read hread
  have hafter := contentAt_write hwrite (f.wayTo path)
  rw [contentAt_of_read hread, ← apply_ite some] at hafter
  generalize (if f.wayTo path = f.wayTo other then content else bytes) = now at hafter
  obtain ⟨written, hcan, rfl⟩ := canWrite_of_write hwrite
  -- the path still leads to the same place, where a file stands
  obtain ⟨node, hlocate', hnode⟩ := locate_grows hlocate (hcan.grows content)
  rw [contentAt, wayTo_of_locate hlocate, hnode] at hafter
  rw [read, hlocate']
  cases node with
  | folder entries => cases hafter
  | file found => rw [Option.some.inj hafter]

theorem exists_write_again (h : f.write path content = .ok f') (new : List UInt8) :
    ∃ f'', f'.write path new = .ok f'' ∧ f''.home = f.home ∧ ∀ place, f''.contentAt place =
        if place = f.wayTo path then some new else f.contentAt place := by
  obtain ⟨place, hcan, hf'⟩ := canWrite_of_write h
  have hwrite : ∃ f'', f'.write path new = .ok f'' := by
    rw [hf']
    exact ⟨_, (hcan.put content).write new⟩
  obtain ⟨f'', hf''⟩ := hwrite
  refine ⟨f'', hf'', (home_write hf'').trans (home_write h), fun other => ?_⟩
  rw [contentAt_write hf'', wayTo_congr (home_write h), contentAt_write h]
  split <;> rfl

end Files

section

variable {α : Type} {path : String} {f : Unit → Job α} {w : World}
  {Q : Except Fault α → World → Prop}

theorem Job.leaves_makeFolders_keeps
    (hok : ∀ files, w.files.SameContents files → Leaves (f ()) { w with files } Q)
    (herror : ∀ files fault, w.files.SameContents files →
      Q (.error (.file fault)) { w with files }) : Leaves (makeFolders path >>= f) w Q :=
  have hkeeps := (Files.Spares.makeFolders w.files path).sameContents
  leaves_makeFolders_bind (fun _ => hok _ hkeeps) fun fault _ => herror _ fault hkeeps

theorem Job.leaves_readBytes_bind {f : List UInt8 → Job α}
    (hok : ∀ bytes, w.files.read path = .ok bytes → Leaves (f bytes) w Q)
    (herror : ∀ fault, w.files.read path = .error fault → Q (.error (.file fault)) w) :
    Leaves (readBytes path >>= f) w Q := by
  cases hread : w.files.read path with
  | ok bytes =>
    have hends : Ends (readBytes path) w bytes w := by
      refine Ends.bind (a := w.files) rfl ?_
      rw [hread]
      exact ends_pure.mpr ⟨rfl, rfl⟩
    exact hends.leaves_bind (hok bytes hread)
  | error fault =>
    have hthrows : Leaves (readBytes path) w fun r w' =>
        r = .error (.file fault) ∧ w' = w := by
      refine leaves_files_bind ?_
      rw [hread]
      exact leaves_throw ⟨rfl, rfl⟩
    refine hthrows.bind (fun bytes w' h => ?_) fun e w' h => ?_
    · cases h.1
    · obtain ⟨he, rfl⟩ := h
      cases he
      exact herror fault hread

theorem Job.leaves_writeText_bind {text : String}
    (hok : ∀ files, w.files.write path (encode text) = .ok files → Leaves (f ()) { w with files } Q)
    (herror : ∀ fault, w.files.write path (encode text) = .error fault →
      Q (.error (.file fault)) w) : Leaves (writeText path text >>= f) w Q := by
  rw [writeText]
  exact leaves_onFiles_bind hok herror

end

namespace Tool

/-! ### Work on one file -/

/-- Work on a file has no trouble to tell if it ends well, and otherwise its fault leaves `P`. -/
inductive FailsWith (P : Fault → World → Prop) : Except Fault Processed → World → Prop
  | ok {processed : Processed} {w' : World} (h : processed.trouble = none) :
      FailsWith P (.ok processed) w'
  | error {fault : Fault} {w' : World} (h : P fault w') : FailsWith P (.error fault) w'

theorem exists_ends_of_failsWith {work : Job Processed} {P : Fault → World → Prop} {w : World}
    (h : Leaves work w (FailsWith P)) (name : String) :
    ∃ processed w',
      Ends (work.orElse fun fault => return ⟨name, some fault.message⟩) w processed w' ∧
      ∀ trouble, processed.trouble = some trouble →
        ∃ fault, trouble = fault.message ∧ P fault w' := by
  refine Leaves.exists_ends ?_
  refine leaves_orElse h (fun processed w' hend => ?_) fun fault w' hend => ?_
  · cases hend with
    | ok hnone =>
      refine ⟨processed, rfl, fun trouble htrouble => ?_⟩
      rw [hnone] at htrouble
      cases htrouble
  · cases hend with
    | error hP =>
      refine leaves_pure ⟨_, rfl, fun trouble htrouble => ?_⟩
      exact ⟨fault, (Option.some.inj htrouble).symm, hP⟩

namespace Decompiler

/-- What the decompiler's process leaves behind, before anything is done with its output. -/
def leftByProcess (unluac java : Value) (input : String) (w : World) : World :=
  ((Job.runChecked [java, .text "-jar", unluac, .text input] (some 30)).doneIn w).2

theorem leaves_attempted (unluac java : Value) (input output : String) (w : World) :
    Leaves (process.attempted unluac java input output) w (FailsWith fun _ w' =>
      (leftByProcess unluac java input w).files.SameContents w'.files) := by
  have hrun : Leaves (runChecked [java, .text "-jar", unluac, .text input] (some 30)) w
      fun _ w₁ => w₁ = leftByProcess unluac java input w := by
    rw [Leaves, leftByProcess, doneIn]
  rw [process.attempted]
  refine hrun.bind (fun outcome w₁ hw₁ => ?_) fun fault w₁ hw₁ => .error ?_
  case refine_2 =>
    rw [hw₁]
    exact .refl _
  subst hw₁
  refine leaves_makeFolders_keeps (fun f₁ hfolders => ?_) fun f₁ fault hfolders =>
    .error hfolders
  refine leaves_attempt_bind (fun text _ => ?_) fun fault _ => .error hfolders
  exact leaves_writeText_bind (fun files _ => leaves_pure (.ok rfl)) fun fault _ =>
    .error hfolders

end Decompiler

namespace Decoder

/-- Decoding stops at a line with a fault, and the lines in front of it are decoded to a text. -/
def StopsAt (ls : List (List Char)) (text : List Char) (fault : Lua.EscapeFault) : Prop :=
  ∃ before line rest decoded, ls = before ++ line :: rest ∧
    List.Forall₂ (fun cs ds => Lua.decodeLine cs = .ok ds) before decoded ∧
    text = decoded.flatten ∧ Lua.decodeLine line = .error fault

theorem stopsAt_of_decodeLines {ls : List (List Char)} {text : List Char} {fault : Lua.EscapeFault}
    (h : decodeLines ls = (text, some fault)) : StopsAt ls text fault := by
  induction ls generalizing text with
  | nil => cases h
  | cons line rest ih =>
    rw [decodeLines] at h
    cases hline : Lua.decodeLine line with
    | error bad =>
      rw [hline] at h
      cases h
      exact ⟨[], line, rest, [], rfl, .nil, rfl, hline⟩
    | ok first =>
      rw [hline] at h
      generalize hrest : decodeLines rest = decoded at h
      obtain ⟨others, bad⟩ := decoded
      cases h
      obtain ⟨before, failing, behind, texts, rfl, hbefore, rfl, hfailing⟩ := ih hrest
      exact ⟨line :: before, failing, behind, first :: texts, rfl, .cons hline hbefore, rfl,
        hfailing⟩

/-- The files after a line could not be decoded: the output holds what was decoded before it, and
every other file is as it was. -/
structure CutShort (f f' : Files) (input output : String) (fault : Lua.EscapeFault) : Prop where
  home : f'.home = f.home
  apart : f.wayTo input ≠ f.wayTo output
  contents : ∃ bytes text, f.contentAt (f.wayTo input) = some bytes ∧
    StopsAt (lines (unifyNewlines (decodeLenient bytes))) text fault ∧
    ∀ place, f'.contentAt place =
      if place = f.wayTo output then some (encodeChars text) else f.contentAt place

/-- What a fault leaves: all contents if it was a file that could not be reached, and a cut output
if it was a line that could not be decoded. -/
def LeftBy (f : Files) (input output : String) (fault : Fault) (w' : World) : Prop :=
  (∃ bad, fault = .file bad) ∧ f.SameContents w'.files ∨
    ∃ bad, fault = faultOf bad ∧ CutShort f w'.files input output bad

theorem leaves_attempted (input output : String) (w : World) :
    Leaves (process.attempted input output) w (FailsWith (LeftBy w.files input output)) := by
  rw [process.attempted]
  refine leaves_makeFolders_keeps (fun f₁ hfolders => ?_) fun f₁ fault hfolders =>
    .error (.inl ⟨⟨fault, rfl⟩, hfolders⟩)
  refine leaves_readBytes_bind (fun bytes hread => ?_) fun fault _ =>
    .error (.inl ⟨⟨fault, rfl⟩, hfolders⟩)
  refine leaves_writeText_bind (fun f₂ hempty => ?_) fun fault _ =>
    .error (.inl ⟨⟨fault, rfl⟩, hfolders⟩)
  -- from here on, neither reading nor writing can fail
  have hagain := Files.read_of_write hread hempty
  refine leaves_readBytes_bind (fun now hnow => ?_) fun fault hfault => ?_
  case refine_2 => cases hagain.symm.trans hfault
  generalize hdecoded : decodeLines (lines (unifyNewlines (decodeLenient now))) = decoded
  obtain ⟨text, fault⟩ := decoded
  obtain ⟨f₃, hwrite, hhome, hcontents⟩ :=
    Files.exists_write_again hempty (encode (String.ofList text))
  refine leaves_writeText_bind (fun files hfiles => ?_) fun fault hfault => ?_
  case refine_2 => cases hwrite.symm.trans hfault
  obtain rfl : f₃ = files := Except.ok.inj (hwrite.symm.trans hfiles)
  cases fault with
  | none => exact leaves_pure (.ok rfl)
  | some fault =>
    refine leaves_throw (.error (.inr ⟨fault, rfl, ?_⟩))
    have hways := Files.wayTo_congr hfolders.home
    obtain rfl : _ = now := Except.ok.inj (hagain.symm.trans hnow)
    -- an input that is emptied as the output has no line to fail
    have hapart : f₁.wayTo input ≠ f₁.wayTo output := by
      intro hsame
      rw [if_pos hsame] at hdecoded
      cases hdecoded
    rw [if_neg hapart] at hdecoded
    refine ⟨hhome.trans hfolders.home, ?_, bytes, text, ?_, stopsAt_of_decodeLines hdecoded, ?_⟩
    · rwa [hways, hways] at hapart
    · rw [← hfolders.contentAt, ← hways]
      exact Files.contentAt_of_read hread
    · intro place
      rw [hcontents, hways, hfolders.contentAt, encode, String.toList_ofList]

end Decoder

/-- **A failed file** is told in its result. With the decompiler it leaves every content as the
process left it. With the decoder it leaves every content as it was, or the output cut in front of
the first line that cannot be decoded. -/
theorem contents_after_failed_file (w : World) (unluac java : Value) (input output : String) :
    (∃ processed w', Ends (Decompiler.process unluac java input output) w processed w' ∧
      (processed.trouble.isSome →
        (Decompiler.leftByProcess unluac java input w).files.SameContents w'.files)) ∧
    ∃ processed w', Ends (Decoder.process input output) w processed w' ∧
      ∀ trouble, processed.trouble = some trouble →
        ∃ fault, trouble = fault.message ∧ Decoder.LeftBy w.files input output fault w' := by
  constructor
  · obtain ⟨processed, w', hends, htrouble⟩ := exists_ends_of_failsWith
      (Decompiler.leaves_attempted unluac java input output w) (Path.name input)
    refine ⟨processed, w', hends, fun hsome => ?_⟩
    obtain ⟨trouble, hsome⟩ := Option.isSome_iff_exists.mp hsome
    obtain ⟨-, -, hcontents⟩ := htrouble trouble hsome
    exact hcontents
  · exact exists_ends_of_failsWith (Decoder.leaves_attempted input output w) (Path.name input)

/-- A Lua file whose second line cannot be decoded, and an output of an earlier run. -/
def staleOutput : World where
  files := ⟨.folder (.cons "in.lua" (.file (encode "x\n = \"\\300\\300\""))
    (.cons "out" (.folder (.cons "in.lua" (.file (encode "earlier")) .nil)) .nil)), []⟩

/-- **A failed file spoils its output**: what an earlier run has written is gone, and the first line
of the file that failed stands there instead. -/
theorem failed_decoding_cuts_output :
    staleOutput.files.contentAt ["out", "in.lua"] = some (encode "earlier") ∧
    ∃ w', Ends (Decoder.process "in.lua" "out/in.lua") staleOutput
        ⟨"in.lua", some "bytes must be in range(0, 256)"⟩ w' ∧
      w'.files.contentAt ["out", "in.lua"] = some (encode "x\n") :=
  ⟨by decide +kernel, Job.exists_ends_of_doneIn (by decide +kernel)⟩

end Tool

end ApkWorkshop
