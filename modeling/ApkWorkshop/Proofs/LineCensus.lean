import ApkWorkshop.Proofs.NestingStack

/-!
# The Census of a Listing

Which lines of a listing does the assembler handle, and which texts does it evaluate on them? For the
listing of a chunk the answer should be read off the chunk: a function line and a count line for every
function, a line for every constant and for every instruction, and no text but numbers and shown
constants. It is so unless a text of the chunk that the listing shows as it stands holds a line break.
-/

namespace ApkWorkshop.Listing

open Bytecode List Assembling
open Text

variable {ls ls' texts : List (List Char)} {kinds : List LineKind} {l : List Char} {kind : LineKind}
  {f : Function} {o : Options} {bytes : List UInt8} {code : List Nat} {r : Reading}
  {onConsole : Bool}

/-! ### What is handled -/

def LineKind.isHandled : LineKind → Bool
  | .comment | .blank => false
  | .function | .constant | .count | .code | .stray => true

/-- The part of a line that is evaluated as an expression. -/
def evaluated? (line : List Char) : Option (List Char) :=
  match lineKind line with
  | .function => functionParameters? line
  | .constant => constantValue? line
  | .count => some (line.drop "FUNCS_NUM: ".toList.length)
  | .comment | .code | .blank | .stray => none

/-- The lines hold no breaks, they are handled as lines of these kinds, in this order, and these texts
are evaluated on them. -/
structure Handled (ls : List (List Char)) (kinds : List LineKind) (texts : List (List Char)) : Prop where
  plain : ∀ l ∈ ls, Plain l
  kinds : (ls.map fun l => lineKind (trimEnd l)).filter LineKind.isHandled = kinds
  texts : ls.filterMap (fun l => evaluated? (trimEnd l)) = texts

theorem Handled.append {kinds' : List LineKind} {texts' : List (List Char)}
    (h : Handled ls kinds texts) (h' : Handled ls' kinds' texts') :
    Handled (ls ++ ls') (kinds ++ kinds') (texts ++ texts') where
  plain := forall_mem_append.mpr ⟨h.plain, h'.plain⟩
  kinds := by rw [map_append, filter_append, h.kinds, h'.kinds]
  texts := by rw [filterMap_append, h.texts, h'.texts]

theorem handled_nil : Handled [] [] [] := ⟨by simp, rfl, rfl⟩

theorem handled_singleton {t : List Char} (hplain : Plain l) (htrim : trimEnd l = t)
    (hkind : lineKind t = kind) (hhandled : kind.isHandled = true)
    (htexts : (evaluated? t).toList = texts) : Handled [l] [kind] texts := by
  refine ⟨by simpa using hplain, by simp [htrim, hkind, hhandled], ?_⟩
  rw [← htexts]
  cases h : evaluated? t <;> simp [htrim, h]

theorem handled_passedOver (hplain : Plain l)
    (hkind : lineKind (trimEnd l) = .comment ∨ lineKind (trimEnd l) = .blank) :
    Handled [l] [] [] := by
  rcases hkind with hkind | hkind <;>
    exact ⟨by simpa using hplain, by simp [hkind, LineKind.isHandled], by simp [evaluated?, hkind]⟩

/-! ### Skipped lines and code -/

theorem length_written_enter (a : Assembling) (e : Entry) :
    a.written.length + (if e.inBody then 0 else 1) ≤ (a.enter e).written.length := by
  cases e with
  | function p => simp [enter, Entry.inBody, encodeText, encodeWord]
  | count f => simp [enter, Entry.inBody, encodeWord]; omega
  | constant | code | skipped => simp [enter, Entry.inBody]

theorem length_written_foldl_enter (es : List Entry) (a : Assembling) :
    a.written.length + es.countP (!·.inBody) ≤ (es.foldl enter a).written.length := by
  induction es generalizing a with
  | nil => simp
  | cons e es ih =>
    have hfirst := length_written_enter a e
    have hrest := ih (a.enter e)
    cases he : e.inBody <;> simp [he] at hfirst ⊢ <;> omega

theorem handled_of_forall₂ {es : List Entry} (h : List.Forall₂ StandsFor ls es)
    (hplain : ∀ l ∈ ls, Plain l) (hinBody : ∀ e ∈ es, e.inBody = true)
    (hconstants : es.filterMap Entry.constant? = []) :
    Handled ls (List.replicate (es.filterMap Entry.word?).length .code) [] := by
  induction h with
  | nil => exact handled_nil
  | @cons l e ls es he hes ih =>
    rw [forall_mem_cons] at hplain hinBody
    have hrest := ih hplain.2 hinBody.2
    cases e with
    | function | count => simp [Entry.inBody] at hinBody
    | constant k => simp [Entry.constant?] at hconstants
    | code word =>
      have hkind : lineKind (trimEnd l) = .code := by simpa [Entry.kinds] using he.lineKind_mem
      exact (handled_singleton hplain.1 rfl hkind rfl (by rw [evaluated?, hkind])).append
        (hrest hconstants)
    | skipped =>
      have hkind : lineKind (trimEnd l) = .comment ∨ lineKind (trimEnd l) = .blank := by
        simpa [Entry.kinds] using he.lineKind_mem
      exact (handled_passedOver hplain.1 hkind).append (hrest hconstants)

/-- **Lines that only collect instructions** are skipped lines and as many code lines as there are
instructions. -/
theorem handled_of_assembles {a : Assembling}
    (h : Assembles ls a { a with code := a.code ++ code }) :
    Handled ls (List.replicate code.length .code) [] := by
  obtain ⟨es, hes, ha⟩ := takesAll_iff.mp h.2
  have hinBody : ∀ e ∈ es, e.inBody = true := by
    have hlength := length_written_foldl_enter es a
    rw [← ha] at hlength
    have hnone : es.countP (!·.inBody) = 0 := by simpa using hlength
    simpa using countP_eq_zero.mp hnone
  rw [foldl_enter_body hinBody] at ha
  have hcode : code = es.filterMap Entry.word? := by simpa using congrArg (·.code) ha
  have hconstants : es.filterMap Entry.constant? = [] := by
    simpa using congrArg (·.constants) ha
  rw [hcode]
  exact handled_of_forall₂ hes h.1 hinBody hconstants

theorem handled_of_skipped (h : ∀ l ∈ ls, Skipped l) : Handled ls [] [] :=
  @handled_of_assembles ls [] {} (assembles_of_skipped h {})

/-! ### The listing of a function -/

theorem handled_functionLine (begun : Nat) (path : List Nat) (p : Parameters) :
    Handled [(functionLine begun path p).toList] [.function]
      [(joinWith ", " ((parameterNumbers p).map decimal)).toList] := by
  refine handled_singleton (plain_functionLine begun path p) (trimEnd_functionLine begun path p)
    (lineKind_functionLine begun path p) rfl ?_
  rw [evaluated?, lineKind_functionLine]
  simp only [functionParameters?_functionLine, Option.toList_some]

theorem handled_constantLine (k : Constant) (i : Nat) :
    Handled [(constantLine k i).toList] [.constant] [k.shown.toList] := by
  refine handled_singleton (plain_constantLine k i) (trimEnd_constantLine k i)
    (lineKind_constantLine k i) rfl ?_
  rw [evaluated?, lineKind_constantLine]
  simp only [constantValue?_constantLine, Option.toList_some]

theorem handled_countLine (n : Nat) :
    Handled [(countLine n).toList] [.count] [(decimal n).toList] := by
  refine handled_singleton (plain_countLine n) (trimEnd_countLine n) (lineKind_countLine n) rfl ?_
  rw [evaluated?, lineKind_countLine, toList_countLine]
  simp

theorem handled_constantLines (ks : List Constant) (first : Nat) :
    Handled ((ks.zipIdx first).map fun k => (constantLine k.1 k.2).toList)
      (List.replicate ks.length .constant) (ks.map fun k => k.shown.toList) := by
  induction ks generalizing first with
  | nil => exact handled_nil
  | cons k ks ih => exact (handled_constantLine k first).append (ih (first + 1))

def kindsOf (b : Block) : List LineKind :=
  .function :: (List.replicate b.constants.length .constant ++
    (List.replicate b.code.length .code ++ [.count]))

/-- The texts that are evaluated for a block: its numbers, its constants as they are shown and the
number of its inner functions. -/
def textsOf (b : Block) : List (List Char) :=
  (joinWith ", " ((parameterNumbers b.parameters).map decimal)).toList ::
    (b.constants.map (fun k => k.shown.toList) ++ [(decimal b.count).toList])

/-- No text that the listing shows as it stands holds a line break, at any depth. -/
def PlainTexts (f : Function) : Prop :=
  ∀ g, Within g f → ∀ w ∈ g.code, ∀ s ∈ bareTextOf? g.constants w, Plain s.toList

theorem PlainTexts.inner {g : Function} (h : PlainTexts f) (hg : g ∈ f.inner) : PlainTexts g :=
  fun k hk => h k (.inner hg hk)

def HandledAs (ls : List (List Char)) (bs : List Block) : Prop :=
  Handled ls (bs.flatMap kindsOf) (bs.flatMap textsOf)

theorem HandledAs.append {bs bs' : List Block} (h : HandledAs ls bs) (h' : HandledAs ls' bs') :
    HandledAs (ls ++ ls') (bs ++ bs') := by
  rw [HandledAs, flatMap_append, flatMap_append]
  exact Handled.append h h'

theorem shown_stripped (k : Constant) : k.stripped.shown = k.shown := by
  cases k <;> rfl

theorem handledAs_flatten {fs : List Function} {lss : List (List (List Char))}
    (h : List.Forall₂ (fun f ls => HandledAs ls f.blocks) fs lss) :
    HandledAs lss.flatten (blocksAll fs) := by
  induction h with
  | nil => exact handled_nil
  | cons hf _ ih => exact hf.append ih

theorem handledAs_block {p : Parameters} {ks : List Constant} {n begun : Nat} {path : List Nat}
    {name notes body : List (List Char)} (hname : ∀ l ∈ name, Skipped l)
    (hnotes : ∀ l ∈ notes, Skipped l) (hbody : Assembles body {} { code := code }) :
    HandledAs ([[], (functionLine begun path p).toList] ++ (name ++
      ((ks.zipIdx.map fun k => (constantLine k.1 k.2).toList) ++ (notes ++ (body ++
        [(countLine n).toList]))))) [⟨p, code, ks.map Constant.stripped, n⟩] := by
  have hempty : ∀ l ∈ [[]], Skipped l := by simpa using skipped_nil
  have hall := (handled_of_skipped hempty).append ((handled_functionLine begun path p).append
    ((handled_of_skipped hname).append ((handled_constantLines ks 0).append
      ((handled_of_skipped hnotes).append ((handled_of_assembles hbody).append
        (handled_countLine n))))))
  simpa [HandledAs, kindsOf, textsOf, Function.comp_def, shown_stripped] using hall

/-- **The listing of a function** is handled as its blocks say, whatever its quoted texts hold. -/
theorem writes_handled (hconstants : o.constants = true) (hconcise : o.concise = false)
    (order : Enumeration) (depth : Nat) :
    Writes (readFunction o order depth) fun f ls => PlainTexts f → HandledAs ls f.blocks := by
  refine writes_readFunction_of hconstants hconcise order (fun f lss ls hf hinner hplain => ?_) depth
  cases hf with
  | @mk source p code ks fs debug begun path name notes body records lss hp hcount hname hnotes hbody
      hrecords =>
      have hown := @handledAs_block code p ks fs.length begun path name notes body hname hnotes
        (hbody (hplain _ (.self _)) {})
      have hfs : List.Forall₂ (fun f ls => HandledAs ls f.blocks) fs lss :=
        ((forall₂_and_left (p := PlainTexts) fs lss).mpr
          ⟨fun f hf => hplain.inner hf, hinner⟩).imp fun f ls ⟨hf, h⟩ => h hf
      have hdebug : HandledAs records [] := handled_of_skipped hrecords
      have hall := hown.append ((handledAs_flatten hfs).append hdebug)
      simpa [Function.blocks] using hall

/-! ### Chunks -/

/-- The lines of a listing as the assembler looks at them: split at breaks of any sort, and without the
blanks at their ends. -/
def seenLines (listing : String) : List (List Char) :=
  (lines (unifyNewlines listing.toList)).map trimEnd

theorem run_readChunk (order : Enumeration) (r : Reading) :
    (readChunk o order).run.run r = if r.rest.take 12 = chunkHeader
      then (readFunction o order (r.rest.drop 12).length).run.run
        { r with rest := r.rest.drop 12, offset := 12 }
      else (.error (.badHeader (r.rest.take 12)), { r with rest := r.rest.drop 12 }) := by
  have hrun : (readChunk o order).run.run r = (if r.rest.take 12 ≠ chunkHeader
      then (throw (.badHeader (r.rest.take 12)) : Disassembly Unit) >>= fun _ =>
        (modify fun r => { r with offset := 12 }) >>= fun _ =>
          get >>= fun r => readFunction o order r.rest.length
      else (modify fun r => { r with offset := 12 }) >>= fun _ =>
          get >>= fun r => readFunction o order r.rest.length).run.run
        { r with rest := r.rest.drop 12 } := rfl
  rw [hrun]
  by_cases hheader : r.rest.take 12 = chunkHeader
  · rw [if_neg (not_not.mpr hheader), if_pos hheader]
    rfl
  · rw [if_pos hheader, if_neg hheader]
    rfl

theorem ends_readChunk {order : Enumeration} {r' : Reading} :
    Ends (readChunk o order) r f r' ↔ r.rest.take 12 = chunkHeader ∧
      Ends (readFunction o order (r.rest.drop 12).length)
        { r with rest := r.rest.drop 12, offset := 12 } f r' := by
  rw [Ends, run_readChunk]
  split
  · rename_i hheader
    exact (and_iff_right hheader).symm
  · rename_i hheader
    exact iff_of_false (fun h => by cases h) fun h => hheader h.1

theorem ends_of_disassemble (h : (disassemble o onConsole bytes).result = .ok f) :
    ∃ r, Ends (readChunk o .ascending) { rest := bytes, onConsole } f r :=
  ⟨_, Prod.ext h rfl⟩

theorem disassemble_of_ends (h : Ends (readChunk o .ascending) { rest := bytes, onConsole } f r) :
    disassemble o onConsole bytes = ⟨.ok f, r.listing, r.console⟩ := by
  have hrun : ((readChunk o .ascending).run { rest := bytes, onConsole }).run = (.ok f, r) := h
  rw [disassemble, hrun]

theorem exists_lines_of_disassemble {post : Function → List (List Char) → Prop}
    (hwrites : Writes (readChunk o .ascending) post)
    (h : (disassemble o false bytes).result = .ok f) :
    ∃ ls, (disassemble o false bytes).listing.toList = unlines ls ∧ post f ls := by
  obtain ⟨r, hends⟩ := ends_of_disassemble h
  obtain ⟨-, ls, hls, hpost⟩ := hwrites _ _ _ hends rfl
  exact ⟨ls, by simpa [disassemble_of_ends hends] using hls, hpost⟩

theorem seenLines_of_unlines {listing : String} (hlisting : listing.toList = unlines ls)
    (hplain : ∀ l ∈ ls, Plain l) : seenLines listing = ls.map trimEnd := by
  rw [seenLines, hlisting, lines_unlines hplain, map_map]
  exact map_congr_left fun l _ => trimEnd_newline l

theorem Handled.count_eq (h : Handled ls kinds texts) (hkind : kind.isHandled = true) :
    ((ls.map trimEnd).map lineKind).count kind = kinds.count kind := by
  rw [← h.kinds, count_filter hkind, map_map]
  rfl

/-- **The census of a listing.** Let a chunk be disassembled without fault, with its constants shown,
with or without trace and hexadecimal words, and let the texts that the listing shows as they stand
hold no line breaks; all other texts are arbitrary. Among the lines that the assembler looks at there
are as many function lines and count lines as the chunk has functions, as many constant lines as it has
constants and as many code lines as it has instructions; the others are comments or blank. The texts
that are evaluated are, for every function in preorder, its numbers, its constants as they are shown,
which puts texts in quotes, and the number of its inner functions. -/
theorem census_of_disassemble (trace hexadecimal : Bool) (bytes : List UInt8) (f : Function)
    (h : (disassemble { constants := true, trace, hexadecimal } false bytes).result = .ok f)
    (hplain : ∀ g, Within g f → ∀ w ∈ g.code, ∀ s ∈ bareTextOf? g.constants w,
      '\n' ∉ s.toList ∧ '\r' ∉ s.toList) :
    let seen := seenLines (disassemble { constants := true, trace, hexadecimal } false bytes).listing
    (seen.map lineKind).count .function = f.blocks.length ∧
    (seen.map lineKind).count .constant = (f.blocks.map (·.constants.length)).sum ∧
    (seen.map lineKind).count .count = f.blocks.length ∧
    (seen.map lineKind).count .code = (f.blocks.map (·.code.length)).sum ∧
    .stray ∉ seen.map lineKind ∧
    seen.filterMap evaluated? = f.blocks.flatMap textsOf := by
  intro seen
  have hwrites := writes_readChunk_of
    (@writes_handled { constants := true, trace, hexadecimal } rfl rfl .ascending)
  obtain ⟨ls, hlisting, hhandled⟩ := exists_lines_of_disassemble hwrites h
  have hls : HandledAs ls f.blocks := hhandled fun g hg w hw s hs c hc =>
    ⟨fun he => (hplain g hg w hw s hs).1 (he ▸ hc), fun he => (hplain g hg w hw s hs).2 (he ▸ hc)⟩
  have hseen : seen = ls.map trimEnd := seenLines_of_unlines hlisting hls.plain
  rw [hseen, ← count_eq_zero, hls.count_eq rfl, hls.count_eq rfl, hls.count_eq rfl,
    hls.count_eq rfl, hls.count_eq rfl, filterMap_map]
  refine ⟨?_, ?_, ?_, ?_, ?_, hls.texts⟩
  all_goals
    simp [count_flatMap, Function.comp_def, kindsOf, count_replicate]

/-- A function that loads a text which looks like a constant line behind a break; its other constant is
an infinity. -/
def quotedFunction : Function :=
  .mk none ⟨0, 0, 0, 0, 2, 2⟩ [1, plainReturn]
    [.text "x\nCONST 9 None\n#", .number ⟨0x7FF0000000000000⟩] [] {}

/-- In its listing, traced and with hexadecimal words, the text stays within its quotes. -/
theorem census_of_disassemble_quoted :
    let seen := seenLines (disassemble { constants := true, trace := true, hexadecimal := true } false
      (encodeChunk quotedFunction)).listing
    (seen.map lineKind).count .constant = 2 ∧ (seen.map lineKind).count .code = 2 ∧
    seen.filterMap evaluated? = ["0, 0, 0, 0, 2, 2", "'x\\nCONST 9 None\\n#'", "inf", "0"].map
      String.toList := by
  have hwithin : ∀ g, Within g quotedFunction → g = quotedFunction := by
    intro g hg
    rcases within_iff.mp hg with rfl | ⟨h, hmem, -⟩
    · rfl
    · cases hmem
  obtain ⟨-, hconstants, -, hcode, -, htexts⟩ := census_of_disassemble true true
    (encodeChunk quotedFunction) quotedFunction (by decide +kernel) (fun g hg => by
      rw [hwithin g hg]
      decide +kernel)
  exact ⟨hconstants, hcode, htexts.trans (by decide +kernel)⟩

/-- A function that reads a global whose name holds a constant line between two pieces of code. -/
def forgingFunction : Function :=
  .mk none ⟨0, 0, 0, 0, 2, 2⟩ [5, plainReturn] [.text "x ; Move  0 0\nCONST 9 None\ny"] [] {}

/-- The name stands as it is in the listing, so that the assembler finds a constant line and a code line
too many, and evaluates a text that stands in the name. -/
theorem forged_lines :
    let outcome := disassemble { constants := true } false (encodeChunk forgingFunction)
    outcome.result = .ok forgingFunction ∧
    ((seenLines outcome.listing).map lineKind).count .constant = 2 ∧
    (forgingFunction.blocks.map (·.constants.length)).sum = 1 ∧
    ((seenLines outcome.listing).map lineKind).count .code = 3 ∧
    (forgingFunction.blocks.map (·.code.length)).sum = 2 ∧
    "None".toList ∈ (seenLines outcome.listing).filterMap evaluated? := by
  decide +kernel

end ApkWorkshop.Listing
