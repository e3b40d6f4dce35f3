import ApkWorkshop.Proofs.SecondReading
import ApkWorkshop.Proofs.StrippedFunction

/-!
# Listing What a Listing Is Assembled To

A listing is assembled to the chunk without its source names and debug records. Disassembling that
chunk gives the same listing once more, without the lines that showed them: nothing else in a listing
depends on debug information, although the debug records of a function stand behind its inner
functions, in the middle of the chunk. The two disassemblies are compared part by part.
-/

namespace ApkWorkshop.Listing

open Bytecode List
open Text

variable {o : Options} {bytes : List UInt8} {f : Function} {r' : Reading}

/-! ### The parts of a function -/

def writeHead (p : Parameters) : Disassembly Unit := do
  let r ← get
  writeLine ("\n" ++ functionLine r.begun r.path.reverse p)

def writeSource (source : Option String) : Disassembly Unit := do
  if let some name := source then
    if name ≠ "" then writeLine ("#func_name: " ++ quoted name)

def writeBody (o : Options) (order : Enumeration) (code : List Nat) (ks : List Constant) :
    Disassembly Unit := do
  for (k, i) in ks.zipIdx do
    writeLine ("CONST " ++ decimal i ++ " " ++ k.shown)
  let descriptions ← code.mapM fun (w : Nat) => (Description.ofWord ks w : Except Fault _)
  let lines ← annotate o order (codeLines descriptions)
  writeCode o 0 code lines

/-- **The parts of a function**, in the order in which they are read and written. Without hexadecimal
offsets no part looks at the offset. -/
theorem readFunction_succ (hconstants : o.constants = true) (hhex : o.hexadecimal = false)
    (order : Enumeration) (depth : Nat) :
    readFunction o order (depth + 1) = do
      let source ← readText
      let p ← readParameters
      writeHead p
      writeSource source
      let code ← readCode
      let ks ← readList readConstant
      writeBody o order code ks
      enterInner
      let count ← readWord
      writeLine (countLine count)
      let inner ← repeated (readFunction o order depth) count
      leaveInner
      let debug ← readDebug
      return .mk source p code ks inner debug := by
  have hoffset : ∀ offset code lines, writeCode o offset code lines = writeCode o 0 code lines := by
    intro offset code lines
    simp only [writeCode, hhex, Bool.false_eq_true, if_false]
  rw [readFunction]
  simp only [readConstants, hconstants, if_true, hoffset, writeHead, writeBody, bind_assoc, pure_bind,
    countLine]
  refine bind_congr fun source => bind_congr fun p => bind_congr fun r => bind_congr fun _ => ?_
  cases source with
  | none => rfl
  | some name =>
    by_cases hname : name = ""
    · simp [writeSource, hname]
    · simp [writeSource, hname]

/-! ### The parts side by side -/

theorem mirrors_writeHead (limit : Nat) (p : Parameters) :
    Mirrors limit (writeHead p) (writeHead p) fun _ _ bytes ls =>
      bytes = [] ∧ ∃ begun path, ls = [[], (functionLine begun path p).toList] := by
  intro r a r' hends hr
  have hhead : ∀ s : Reading, s.onConsole = false → Ends (writeHead p) s ()
      { s with listing := s.listing ++ ("\n" ++ functionLine s.begun s.path.reverse p ++ "\n") } := by
    intro s hs
    refine Ends.bind (ends_get.mpr ⟨rfl, rfl⟩) (ends_modify.mpr ?_)
    rw [hs, if_neg (by decide)]
  obtain ⟨-, rfl⟩ := hends.unique (hhead r hr)
  refine ⟨hr, (), [], _, ⟨rfl, r.begun, r.path.reverse, rfl⟩, by simp [unlines],
    fun _ s more hs hrest => ?_⟩
  refine ⟨_, hhead s hs.file, ⟨hs.begun, hs.path, hs.file⟩, hrest, ?_⟩
  have hnotes : ∀ l ∈ [[], (functionLine r.begun r.path.reverse p).toList],
      isDebugLine l = false := by
    simp only [forall_mem_cons, not_mem_nil, false_implies, implies_true, and_true]
    exact ⟨rfl, isDebugLine_of_head? (by simp [functionLine])⟩
  rw [withoutDebug_of_notes hnotes, hs.begun, hs.path]
  simp [unlines]

theorem mirrors_writeSource (limit : Nat) (source : Option String) :
    Mirrors limit (writeSource source) (writeSource none) fun _ _ bytes ls =>
      bytes = [] ∧ ∀ l ∈ ls, Plain l := by
  have hname : ∀ name : String, Plain ("#func_name: " ++ quoted name).toList := by simp
  have hsource : Stays (writeSource source) ∧
      WritesOnly IsDebugNote (writeSource source) fun _ => True := by
    cases source with
    | none => exact ⟨stays_pure _, writesOnly_pure trivial⟩
    | some name =>
      rw [writeSource]
      split
      · exact ⟨stays_writeLine _, writesOnly_debugNote rfl (by decide) (hname name)⟩
      · exact ⟨stays_pure _, writesOnly_pure trivial⟩
  refine (@mirrors_of_reads _ _ _ limit (writeSource none) (fun _ => ()) (fun _ => []) _ hsource.2
    hsource.1 ?_ ?_).mono ?_
  · exact fun _ ls h l hl => (h.2 l hl).2
  · exact fun _ _ _ => ⟨0, reads_pure ()⟩
  · exact fun _ _ _ _ h => ⟨h.2.2, fun l hl => (h.1.2 l hl).1.1⟩

theorem writeBody_map_stripped (o : Options) (order : Enumeration) (code : List Nat)
    (ks : List Constant) :
    writeBody o order code (ks.map Constant.stripped) = writeBody o order code ks := by
  simp only [writeBody, Description.ofWord, describe_map_stripped, zipIdx_map, forIn_map, Prod.map,
    shown_stripped, id]

theorem blind_writeBody (o : Options) (order : Enumeration) (code : List Nat) (ks : List Constant) :
    Blind (writeBody o order code ks) := by
  refine (blind_forIn (fun p _ => (blind_writeLine _).bind fun _ => blind_pure _) _ _).bind fun _ => ?_
  refine (blind_mapM (fun w => blind_liftM _) code).bind fun ds => ?_
  exact (blind_annotate o order _).bind fun lines => blind_writeCode o 0 code lines

/-- **A body** shows no debug records, and its lines are plain if the texts shown as they stand are. -/
theorem writes_writeBody (hconcise : o.concise = false) (order : Enumeration) {code : List Nat}
    (hcode : ∀ w ∈ code, w < 0x100000000) (ks : List Constant) :
    Writes (writeBody o order code ks) fun _ ls => (∀ l ∈ ls, isDebugLine l = false) ∧
      ((∀ w ∈ code, ∀ s ∈ bareTextOf? ks w, Plain s.toList) → ∀ l ∈ ls, Plain l) := by
  refine writes_bind (writes_forIn_lines fun p => writes_writeLine_bind (writes_pure ⟨rfl, rfl⟩))
    fun _ consts hconsts => ?_
  refine (silent_mapM code).bind fun ds hds => ?_
  refine writes_bind (writes_annotate o order (codeLines ds)) fun lines notes hlines => ?_
  refine (writes_writeCode hconcise 0 code lines).mono fun _ body hbody => ?_
  subst hconsts hbody
  have hconsts : ∀ l ∈ ks.zipIdx.map fun p => (constantLine p.1 p.2).toList,
      isDebugLine l = false ∧ Plain l := by
    intro l hl
    obtain ⟨p, -, rfl⟩ := mem_map.mp hl
    exact ⟨isDebugLine_of_head? (by simp [constantLine]), plain_constantLine p.1 p.2⟩
  have hcomments := skippedComment_of_kept hlines.1
  refine ⟨?_, fun hplain => ?_⟩
  · refine forall_mem_append.mpr ⟨fun l hl => (hconsts l hl).1, ?_⟩
    refine forall_mem_append.mpr ⟨fun l hl => (hlines.2 l hl).2, fun l hl => ?_⟩
    obtain ⟨p, hp, hl⟩ := mem_flatMap.mp hl
    exact isDebugLine_codeBlock o 0 p.2 p.1.1
      (hcomments _ (of_mem_zip (fst_mem_of_mem_zipIdx hp)).2) l hl
  · refine forall_mem_append.mpr ⟨fun l hl => (hconsts l hl).2, ?_⟩
    refine forall_mem_append.mpr ⟨fun l hl => (hlines.2 l hl).1.1, ?_⟩
    exact (assembles_codeBlocks o 0 hcode (shows_of_bareTextOf? hds hlines.1 hplain) {}).1

theorem mirrors_enterInner (limit : Nat) : Mirrors limit enterInner enterInner fun _ _ bytes ls =>
    bytes = [] ∧ ls = [] :=
  mirrors_modify (fun _ => rfl) (fun _ => rfl) (fun _ => rfl) (fun r s h => by simp [h.begun])
    fun r s h => by simp [h.path]

theorem mirrors_leaveInner (limit : Nat) : Mirrors limit leaveInner leaveInner fun _ _ bytes ls =>
    bytes = [] ∧ ls = [] :=
  mirrors_modify (fun _ => rfl) (fun _ => rfl) (fun _ => rfl) (fun r s h => h.begun)
    fun r s h => by simp [h.path]

theorem mirrors_writeCount (limit n : Nat) :
    Mirrors limit (writeLine (countLine n)) (writeLine (countLine n)) fun _ _ bytes ls =>
      bytes = [] ∧ ls = [(countLine n).toList] := by
  refine (mirrors_blind (blind_writeLine _)
    (@writes_writeLine _ (fun _ ls => ls = [(countLine n).toList]) rfl) ?_).mono ?_
  · rintro - ls rfl
    simpa using isDebugLine_of_head? (by simp [countLine])
  · exact fun _ _ _ _ h => ⟨h.2.2, h.1⟩

theorem stays_readDebug : Stays readDebug := by
  refine (onlyReads_readList onlyReads_readWord).stays.bind fun lines => ?_
  refine stays_when (stays_writeLine _) ?_
  refine (onlyReads_readList onlyReads_readLocal).stays.bind fun locals => ?_
  refine stays_when (stays_writeLine _) ?_
  refine (onlyReads_readList onlyReads_readText).stays.bind fun upvalues => ?_
  exact stays_when (stays_writeLine _) (stays_pure _)

theorem mirrors_readDebug (limit : Nat) :
    Mirrors limit readDebug readDebug fun _ b bytes ls =>
      b = {} ∧ bytes = encodeDebug {} ∧ ∀ l ∈ ls, Plain l := by
  refine (@mirrors_of_reads _ _ _ limit readDebug (fun _ => {}) (fun _ => encodeDebug {}) _
    writes_readDebug stays_readDebug ?_ ?_).mono ?_
  · exact fun _ ls h l hl => (h.2 l hl).2
  · exact fun _ _ _ => ⟨12, (reads_readList_nil _).bind ((reads_readList_nil _).bind
      ((reads_readList_nil _).bind (reads_pure ({} : DebugRecords)) rfl rfl) rfl rfl) rfl rfl⟩
  · exact fun _ _ _ _ h => ⟨h.2.1, h.2.2, fun l hl => (h.1.2 l hl).1.1⟩

theorem mirrors_readConstants (limit : Nat) :
    Mirrors limit (readList readConstant) (readList readConstant) fun ks ks' bytes ls =>
      ks' = ks.map Constant.stripped ∧ bytes = encodeList encodeConstant (ks.map Constant.stripped) ∧
        ls = [] := by
  have hfits : OnlyReads readConstant fun k => True ∧ ∀ s, k = .text s → FitsRecord s :=
    onlyReads_readConstant.and fun _ _ _ h => (tag_of_readConstant h).2
  refine (mirrors_read (onlyReads_readList hfits) fun ks hks => ?_).mono fun _ _ _ _ h => h.2
  refine reads_readList (by simpa using hks.1) fun k hk => ⟨_, reads_readConstant fun s hs => ?_⟩
  obtain ⟨k', hmem, rfl⟩ := mem_map.mp hk
  refine (hks.2 k' hmem).2 s ?_
  cases k' with
  | absent => cases hs
  | nil | truth b | number x | text t => exact hs

theorem plain_of_mem_flatten {fs : List Function} {lss : List (List (List Char))}
    (h : List.Forall₂ (fun f ls => PlainTexts f → ∀ l ∈ ls, Plain l) fs lss)
    (hfs : ∀ f ∈ fs, PlainTexts f) : ∀ l ∈ lss.flatten, Plain l := by
  induction h with
  | nil => simp
  | cons hf _ ih =>
    rw [forall_mem_cons] at hfs
    exact forall_mem_append.mpr ⟨hf hfs.1, ih hfs.2⟩

/-! ### Functions -/

/-- How a function and what the second reading makes of it belong together: it is the stripped function,
found in its encoding, and the lines of the first reading are plain if the texts of the function are. -/
def StripsTo (f g : Function) (bytes : List UInt8) (ls : List (List Char)) : Prop :=
  g = f.stripped ∧ bytes = f.stripped.encode ∧ (PlainTexts f → ∀ l ∈ ls, Plain l)

/-- **A function and the stripped function, side by side**, if inner functions are read so within what
the limit leaves for them. -/
theorem mirrors_readFunction_succ (hconstants : o.constants = true) (hconcise : o.concise = false)
    (hhex : o.hexadecimal = false) (order : Enumeration) {depth limit : Nat}
    (hinner : Mirrors limit (readFunction o order depth) (readFunction o order limit) StripsTo) :
    Mirrors (limit + 1) (readFunction o order (depth + 1)) (readFunction o order (limit + 1))
      StripsTo := by
  rw [readFunction_succ hconstants hhex, readFunction_succ hconstants hhex]
  -- The text record in front takes bytes, and leaves the limit of the inner functions.
  refine mirrors_bind_of_le (mirrors_read onlyReads_readText fun _ _ =>
    ⟨4, reads_readText_none⟩) (fun _ _ _ _ h => by rw [h.2.2.1]; decide) ?_
  rintro source _ _ _ ⟨-, rfl, rfl, rfl⟩
  refine mirrors_bind (mirrors_read onlyReads_readParameters fun p hp =>
    ⟨12, reads_readParameters hp⟩) ?_
  rintro _ p _ _ ⟨-, rfl, rfl, rfl⟩
  refine mirrors_bind (mirrors_writeHead limit p) ?_
  rintro _ _ _ _ ⟨rfl, begun, path, rfl⟩
  refine mirrors_bind (mirrors_writeSource limit source) ?_
  rintro _ _ _ name ⟨rfl, hname⟩
  refine mirrors_bind (mirrors_read onlyReads_readCode fun code hcode =>
    reads_readCode hcode.1 hcode.2.1 hcode.2.2) ?_
  rintro _ code _ _ ⟨⟨-, hcode, -⟩, rfl, rfl, rfl⟩
  refine mirrors_bind (mirrors_readConstants limit) ?_
  rintro ks _ _ _ ⟨rfl, rfl, rfl⟩
  rw [writeBody_map_stripped]
  refine mirrors_bind (mirrors_blind (blind_writeBody o order code ks)
    (writes_writeBody hconcise order hcode ks) fun _ _ h => h.1) ?_
  rintro _ _ _ body ⟨⟨-, hbody⟩, -, rfl⟩
  refine mirrors_bind (mirrors_enterInner limit) ?_
  rintro _ _ _ _ ⟨rfl, rfl⟩
  refine mirrors_bind (mirrors_read onlyReads_readWord fun n hn => ⟨4, reads_readWord hn⟩) ?_
  rintro _ count _ _ ⟨-, rfl, rfl, rfl⟩
  refine mirrors_bind (mirrors_writeCount limit count) ?_
  rintro _ _ _ _ ⟨rfl, rfl⟩
  refine mirrors_bind (mirrors_repeated hinner count) ?_
  rintro fs _ _ _ ⟨rfl, rfl, rfl, lss, hlss, rfl⟩
  refine mirrors_bind (mirrors_leaveInner limit) ?_
  rintro _ _ _ _ ⟨rfl, rfl⟩
  refine mirrors_bind (mirrors_readDebug limit) ?_
  rintro debug _ _ records ⟨rfl, rfl, hrecords⟩
  refine mirrors_pure ⟨?_, ?_, fun hplain => ?_⟩
  · rw [Function.stripped, strippedAll_eq_map]
  · simp only [Function.stripped, Function.encode, strippedAll_eq_map, encodeAll_eq_flatMap,
      length_map, flatMap_map, append_assoc, nil_append, append_nil]
  · have hlines := plain_of_mem_flatten hlss fun f hf => hplain.inner hf
    simp only [forall_mem_append, forall_mem_cons, not_mem_nil, false_implies,
      implies_true, and_true, true_and]
    exact ⟨⟨plain_nil, plain_functionLine begun path p⟩, hname, hbody (hplain _ (.self _)),
      plain_countLine _, hlines, hrecords⟩

/-- **Functions at any depth.** The first reading nests as deeply as it was allowed to; the second needs
no more depth than it takes bytes, since every function takes some. -/
theorem mirrors_readFunction (hconstants : o.constants = true) (hconcise : o.concise = false)
    (hhex : o.hexadecimal = false) (order : Enumeration) (depth limit : Nat) :
    Mirrors limit (readFunction o order depth) (readFunction o order limit) StripsTo := by
  induction depth generalizing limit with
  | zero => exact fun _ _ _ hm _ => absurd hm not_ends_throw
  | succ depth ih =>
    have hsucc := fun limit => mirrors_readFunction_succ hconstants hconcise hhex order (ih limit)
    cases limit with
    | zero =>
      refine (hsucc 0).of_pos fun f g bytes ls h => ?_
      rw [h.2.1]
      cases f.stripped
      simp [Function.encode, encodeParameters, encodeWord]
    | succ limit => exact hsucc limit

/-! ### Chunks -/

theorem exists_lines_of_stripped (hconstants : o.constants = true) (hconcise : o.concise = false)
    (hhex : o.hexadecimal = false) (h : (disassemble o false bytes).result = .ok f) :
    ∃ ls, (disassemble o false bytes).listing.toList = unlines ls ∧
      (PlainTexts f → ∀ l ∈ ls, Plain l) ∧
      (disassemble o false (encodeChunk f.stripped)).result = .ok f.stripped ∧
      (disassemble o false (encodeChunk f.stripped)).listing.toList = unlines (withoutDebug ls) := by
  obtain ⟨r', hends⟩ := ends_of_disassemble h
  obtain ⟨-, hfunction⟩ := ends_readChunk.mp hends
  obtain ⟨hr', g, encoded, ls, ⟨rfl, rfl, hplain⟩, hls, hretraces⟩ :=
    mirrors_readFunction hconstants hconcise hhex .ascending _ f.stripped.encode.length _ f r'
      hfunction rfl
  obtain ⟨s', hends', -, -, hls'⟩ := hretraces le_rfl
    { rest := f.stripped.encode, offset := 12 } [] ⟨rfl, rfl, rfl⟩ (append_nil _).symm
  have hchunk : Ends (readChunk o .ascending) { rest := encodeChunk f.stripped, onConsole := false }
      f.stripped s' := ends_readChunk.mpr ⟨rfl, hends'⟩
  rw [disassemble_of_ends hends, disassemble_of_ends hchunk]
  exact ⟨ls, by simpa using hls, hplain, rfl, by simpa using hls'⟩

/-! ### Listings without debug lines -/

/-- A listing without the lines that show source names and debug records. -/
def withoutDebugLines (listing : String) : String :=
  String.ofList ((lines listing.toList).filter fun l => !isDebugLine l).flatten

theorem isDebugLine_newline (l : List Char) : isDebugLine (l ++ ['\n']) = isDebugLine l := by
  have hword : ∀ word ∈ debugStarts,
      word.toList.isPrefixOf (l ++ ['\n']) = word.toList.isPrefixOf l := by
    intro word hmem
    have hplain : '\n' ∉ word.toList := by
      revert word
      decide
    rw [Bool.eq_iff_iff, isPrefixOf_iff_prefix, isPrefixOf_iff_prefix, prefix_concat_iff]
    refine or_iff_right fun heq => hplain ?_
    rw [heq]
    simp
  rw [Bool.eq_iff_iff, isDebugLine, isDebugLine, any_eq_true, any_eq_true]
  exact exists_congr fun word => and_congr_right fun hmem => by rw [hword word hmem]

theorem withoutDebugLines_of_unlines {listing : String} {ls : List (List Char)}
    (hlisting : listing.toList = unlines ls) (hplain : ∀ l ∈ ls, Plain l) :
    withoutDebugLines listing = String.ofList (unlines (withoutDebug ls)) := by
  have hlines : lines (unlines ls) = ls.map (· ++ ['\n']) := by
    rw [← lines_unlines hplain, unifyNewlines_unlines hplain]
  rw [withoutDebugLines, hlisting, hlines, filter_map, unlines, withoutDebug, List.flatMap]
  simp only [Function.comp_def, isDebugLine_newline]

example : withoutDebugLines "#upvalues: ['x']\nCONST 0 None\n" = "CONST 0 None\n" := by
  decide +kernel

/-- **The chunk of a stripped function** is read as that function, and listed without debug lines. -/
theorem disassemble_stripped (hconstants : o.constants = true) (hconcise : o.concise = false)
    (hhex : o.hexadecimal = false) (h : (disassemble o false bytes).result = .ok f)
    (hplain : PlainTexts f) :
    (disassemble o false (encodeChunk f.stripped)).result = .ok f.stripped ∧
      (disassemble o false (encodeChunk f.stripped)).listing =
        withoutDebugLines (disassemble o false bytes).listing := by
  obtain ⟨ls, hlisting, hls, hresult, hlisting'⟩ :=
    exists_lines_of_stripped hconstants hconcise hhex h
  refine ⟨hresult, ?_⟩
  rw [withoutDebugLines_of_unlines hlisting (hls hplain), ← hlisting', String.ofList_toList]

/-- **Listing again what a listing is assembled to.** Let a chunk be disassembled without fault, with
its constants shown, with or without trace. If its numbers are finite and the texts that the listing
shows as they stand hold no line breaks, then the listing is assembled to a chunk that is disassembled
without fault to the stripped function, and its listing is the first one without the lines about source
names and debug records. So all chunks that differ in debug information only have the same listing but
for these lines. -/
theorem disassemble_assembleBytes (trace : Bool) (bytes : List UInt8) (f : Function)
    (h : (disassemble { constants := true, trace } false bytes).result = .ok f)
    (hfinite : ∀ g, Within g f → ∀ x, .number x ∈ g.constants →
      ∃ negative units, x.value = .finite negative units)
    (hplain : ∀ g, Within g f → ∀ w ∈ g.code, ∀ s ∈ bareTextOf? g.constants w,
      '\n' ∉ s.toList ∧ '\r' ∉ s.toList) :
    ∃ chunk, assembleBytes (encode (disassemble { constants := true, trace } false bytes).listing) =
        (.ok (), chunk) ∧
      (disassemble { constants := true, trace } false chunk).result = .ok f.stripped ∧
      (disassemble { constants := true, trace } false chunk).listing =
        withoutDebugLines (disassemble { constants := true, trace } false bytes).listing ∧
      ∀ other g, (disassemble { constants := true, trace } false other).result = .ok g →
        g.stripped = f.stripped →
        withoutDebugLines (disassemble { constants := true, trace } false other).listing =
          withoutDebugLines (disassemble { constants := true, trace } false bytes).listing := by
  have hplain' : PlainTexts f := fun g hg w hw s hs c hc =>
    ⟨fun he => (hplain g hg w hw s hs).1 (he ▸ hc), fun he => (hplain g hg w hw s hs).2 (he ▸ hc)⟩
  have hlist : Listable f := ⟨fun g hg k hk x hx => hfinite g hg x (hx ▸ hk), hplain'⟩
  refine ⟨encodeChunk f.stripped, ?_, ?_⟩
  · obtain ⟨ls, hlisting, hto⟩ := exists_lines_of_disassemble (writes_readChunk rfl rfl .ascending) h
    rw [assembleBytes, encode, decodeChars_encodeChars]
    simp only [hlisting]
    exact assemble_unlines (hto hlist)
  · have hstripped := fun other g =>
      @disassemble_stripped { constants := true, trace } other g rfl rfl rfl
    obtain ⟨hresult, hlisting⟩ := hstripped bytes f h hplain'
    refine ⟨hresult, hlisting, fun other g hg hsame => ?_⟩
    have hg' : PlainTexts g := by rwa [← plainTexts_stripped, hsame, plainTexts_stripped]
    obtain ⟨-, hlisting'⟩ := hstripped other g hg hg'
    rw [← hlisting, ← hlisting', hsame]

def debuggedInner : Function :=
  .mk (some "@part.lua") ⟨2, 3, 1, 0, 0, 2⟩ [plainReturn] [.truth true, .absent] []
    { lines := [3], locals := [⟨some "i", 0, 1⟩], upvalues := [some "total", none] }

/-- A function that reads a global, with its source lines behind an inner function. -/
def debuggedOuter (inner : Function) : Function :=
  .mk (some "@main.lua") ⟨0, 0, 0, 0, 2, 2⟩ [5, plainReturn] [.text "print"] [inner]
    { lines := [1, 4] }

/-- The traced listing of a chunk with debug records at two depths, the listing of what is left of it,
and that of a chunk without the inner debug records. -/
theorem disassemble_assembleBytes_debugged :
    (∃ chunk, assembleBytes (encode (disassemble { constants := true, trace := true } false
        (encodeChunk (debuggedOuter debuggedInner))).listing) = (.ok (), chunk) ∧
      (disassemble { constants := true, trace := true } false chunk).result =
        .ok (debuggedOuter debuggedInner).stripped ∧
      (disassemble { constants := true, trace := true } false chunk).listing =
        withoutDebugLines (disassemble { constants := true, trace := true } false
          (encodeChunk (debuggedOuter debuggedInner))).listing) ∧
    withoutDebugLines (disassemble { constants := true, trace := true } false
        (encodeChunk (debuggedOuter debuggedInner.stripped))).listing =
      withoutDebugLines (disassemble { constants := true, trace := true } false
        (encodeChunk (debuggedOuter debuggedInner))).listing := by
  have hwithin : ∀ g, Within g (debuggedOuter debuggedInner) →
      g = debuggedOuter debuggedInner ∨ g = debuggedInner := by
    intro g hg
    rcases within_iff.mp hg with rfl | ⟨h, hmem, hg⟩
    · exact Or.inl rfl
    · obtain rfl := mem_singleton.mp hmem
      rcases within_iff.mp hg with rfl | ⟨h, hmem, -⟩
      · exact Or.inr rfl
      · cases hmem
  have hfinite : ∀ g, Within g (debuggedOuter debuggedInner) → ∀ x, .number x ∈ g.constants →
      ∃ negative units, x.value = .finite negative units := by
    intro g hg x hx
    rcases hwithin g hg with rfl | rfl
    · simp [debuggedOuter, Function.constants] at hx
    · simp [debuggedInner, Function.constants] at hx
  obtain ⟨chunk, hchunk, hresult, hlisting, hothers⟩ := disassemble_assembleBytes true
    (encodeChunk (debuggedOuter debuggedInner)) (debuggedOuter debuggedInner) (by decide +kernel)
    hfinite (fun g hg => by rcases hwithin g hg with rfl | rfl <;> decide +kernel)
  exact ⟨⟨chunk, hchunk, hresult, hlisting⟩, hothers _ (debuggedOuter debuggedInner.stripped)
    (by decide +kernel) (by decide +kernel)⟩

end ApkWorkshop.Listing
