import ApkWorkshop.Proofs.FunctionListing

/-!
# From a Chunk to Its Listing and Back

The listing of a chunk, made with its constants shown, is assembled to the same chunk without source
names and debug records. The assembler has no tree to follow: it knows only how many inner functions
are to come in each function that is open. What ties its stack to the tree is `finish`, which says
what is written, and which functions stay open, when the function read last is complete:

* `closeFinished_zero`, `closeFinished_succ` — a count line closes a function without inner functions
  and leaves any other open;
* `assembles_inner` — the listings of as many inner functions as were announced close the function
  around them;
* `writes_readFunction_of` — what holds of the listing of a function, by induction on the depth to which
  functions are nested;
* `writes_readFunction` — a function is assembled to its stripped encoding;
* `assembleBytes_disassemble` — the whole round trip.
-/

namespace ApkWorkshop.Bytecode

/-! ### Functions and what is stripped from them -/

namespace Function

def code : Function → List Nat
  | .mk _ _ code _ _ _ => code

def constants : Function → List Constant
  | .mk _ _ _ constants _ _ => constants

def inner : Function → List Function
  | .mk _ _ _ _ inner _ => inner

end Function

mutual

/-- A function without source names and debug records at any depth, with missing texts as `nil`. -/
def Function.stripped : Function → Function
  | .mk _ parameters code constants inner _ =>
    .mk none parameters code (constants.map Constant.stripped) (strippedAll inner) {}

def strippedAll : List Function → List Function
  | [] => []
  | f :: rest => f.stripped :: strippedAll rest

end

mutual

def Function.decEq : (f g : Function) → Decidable (f = g)
  | .mk source parameters code constants inner debug,
    .mk source' parameters' code' constants' inner' debug' =>
    have := decEqAll inner inner'
    decidable_of_iff (source = source' ∧ parameters = parameters' ∧ code = code' ∧
      constants = constants' ∧ inner = inner' ∧ debug = debug') (by simp)

def decEqAll : (fs gs : List Function) → Decidable (fs = gs)
  | [], [] => isTrue rfl
  | [], _ :: _ => isFalse (by simp)
  | _ :: _, [] => isFalse (by simp)
  | f :: fs, g :: gs =>
    have := f.decEq g
    have := decEqAll fs gs
    decidable_of_iff (f = g ∧ fs = gs) (by simp)

end

instance : DecidableEq Function := Function.decEq

/-- A function is within another if it is that function or within one of its inner functions. -/
inductive Within : Function → Function → Prop
  | self (f : Function) : Within f f
  | inner {g h f : Function} (hmem : h ∈ f.inner) (hwithin : Within g h) : Within g f

theorem within_iff {g f : Function} : Within g f ↔ g = f ∨ ∃ h ∈ f.inner, Within g h := by
  constructor
  · rintro (_ | ⟨hmem, hwithin⟩)
    · exact Or.inl rfl
    · exact Or.inr ⟨_, hmem, hwithin⟩
  · rintro (rfl | ⟨h, hmem, hwithin⟩)
    · exact .self g
    · exact .inner hmem hwithin

theorem length_strippedAll (fs : List Function) : (strippedAll fs).length = fs.length := by
  induction fs with
  | nil => rw [strippedAll]
  | cons f fs ih => rw [strippedAll, List.length_cons, List.length_cons, ih]

end ApkWorkshop.Bytecode

namespace ApkWorkshop.Listing

open Bytecode List
open Text

variable {f : Function} {o : Options} {post : Function → List (List Char) → Prop}

/-- The text of the chunk that the description of a word shows as it stands, if it shows one: the name
of a global, the key of a table that is read, or the name of a method. -/
def bareTextOf? (ks : List Constant) (w : Nat) : Option String :=
  (Mnemonic.ofNumber? (operationNumber w)).bind fun m => bareText? (Fields.ofWord w) ks m

/-- The listing of a function can be read back: at every depth numbers are finite, and texts that are
shown as they stand hold no line breaks. -/
structure Listable (f : Function) : Prop where
  finite : ∀ g, Within g f → ∀ k ∈ g.constants, FiniteNumber k
  plain : ∀ g, Within g f → ∀ w ∈ g.code, ∀ s ∈ bareTextOf? g.constants w, Plain s.toList

theorem Listable.inner {g : Function} (h : Listable f) (hg : g ∈ f.inner) : Listable g :=
  ⟨fun k hk => h.finite k (.inner hg hk), fun k hk => h.plain k (.inner hg hk)⟩

/-! ### The stack of open functions -/

/-- What is written, and which functions stay open, when the innermost function is complete. -/
def finish : List OpenFunction → List UInt8 × List OpenFunction
  | [] => ([], [])
  | outer :: above => closeFinished outer.countDown above

theorem closeFinished_zero (shown : String) (levels : List OpenFunction) :
    closeFinished ⟨0, shown⟩ levels = (emptyDebug ++ (finish levels).1, (finish levels).2) := by
  cases levels with
  | nil => simp [closeFinished, finish]
  | cons outer above => simp [closeFinished, finish]

theorem closeFinished_succ (n : Nat) (shown : String) (levels : List OpenFunction) :
    closeFinished ⟨n + 1, shown⟩ levels = ([], ⟨n + 1, shown⟩ :: levels) := by
  cases levels with
  | nil => simp [closeFinished]
  | cons outer above => simp [closeFinished]

/-- The lines are assembled to the stripped function, whatever was written before and whichever
functions are open. -/
def AssemblesTo (ls : List (List Char)) (f : Function) : Prop :=
  ∀ written levels, Assembles ls ⟨written, [], [], levels⟩
    ⟨written ++ f.stripped.encode ++ (finish levels).1, [], [], (finish levels).2⟩

/-- **Inner functions**: behind a count line, the listings of as many functions as were announced are
assembled to these functions, and then the function around them is closed. -/
theorem assembles_inner {fs : List Function} {lss : List (List (List Char))}
    (h : List.Forall₂ (fun f ls => AssemblesTo ls f) fs lss) (written : List UInt8) (shown : String)
    (levels : List OpenFunction) :
    Assembles lss.flatten ⟨written ++ (closeFinished ⟨fs.length, shown⟩ levels).1, [], [],
        (closeFinished ⟨fs.length, shown⟩ levels).2⟩
      ⟨written ++ encodeAll (strippedAll fs) ++ emptyDebug ++ (finish levels).1, [], [],
        (finish levels).2⟩ := by
  induction h generalizing written shown with
  | nil =>
    rw [length_nil, closeFinished_zero, strippedAll, encodeAll]
    exact ⟨by simp, by simp⟩
  | cons hf _ ih =>
    rename_i f ls fs lss _
    rw [length_cons, closeFinished_succ, strippedAll, encodeAll, append_nil]
    have hfirst := hf written (⟨fs.length + 1, shown⟩ :: levels)
    have hrest := ih (written ++ f.stripped.encode) (decimal fs.length)
    refine assembles_append hfirst ?_
    simpa [finish, OpenFunction.countDown] using hrest

/-! ### Functions -/

theorem assembles_head {p : Parameters} (hp : InRecords p) (begun : Nat) (path : List Nat)
    (a : Assembling) :
    Assembles [[], (functionLine begun path p).toList] a
      { a with written := a.written ++ (encodeText none ++ encodeParameters p) } := by
  refine ⟨by simp [plain_functionLine], takesAll_cons.mpr ⟨a, takes_nil a, ?_⟩⟩
  exact takesAll_cons.mpr ⟨_, takes_functionLine hp begun path a, by simp⟩

theorem writes_sourceName {β : Type} {source : Option String} {f : Unit → Disassembly β}
    {post : β → List (List Char) → Prop} :
    (∀ ls, (∀ l ∈ ls, Skipped l) → Writes (f ()) fun b ms => post b (ls ++ ms)) →
    Writes (match source with
      | some name => if name ≠ "" then writeLine ("#func_name: " ++ quoted name) >>= f else f ()
      | _ => f ()) post := by
  intro hf
  split
  · rename_i name
    have hcomment : Skipped ("#func_name: " ++ quoted name).toList :=
      skipped_comment rfl (by simp)
    split
    · exact writes_writeLine_bind (hf [_] (by simpa using hcomment))
    · exact hf [] (by simp)
  · exact hf [] (by simp)

/-- The lines of a function and of its inner functions `lss`: an empty line and the function line, the
source name, the constants, notes about the structure, the code, the count, what the inner functions
are listed as, and the debug records. -/
inductive ListedAs : Function → List (List (List Char)) → List (List Char) → Prop
  | mk {source : Option String} {p : Parameters} {code : List Nat} {ks : List Constant}
      {fs : List Function} {debug : DebugRecords} {begun : Nat} {path : List Nat}
      {name notes body records : List (List Char)} {lss : List (List (List Char))}
      (hp : InRecords p) (hcount : fs.length < 0x100000000) (hname : ∀ l ∈ name, Skipped l)
      (hnotes : ∀ l ∈ notes, Skipped l)
      (hbody : (∀ w ∈ code, ∀ s ∈ bareTextOf? ks w, Plain s.toList) →
        ∀ a, Assembles body a { a with code := a.code ++ code })
      (hrecords : ∀ l ∈ records, Skipped l) :
      ListedAs (.mk source p code ks fs debug) lss
        ([[], (functionLine begun path p).toList] ++ (name ++
          ((ks.zipIdx.map fun k => (constantLine k.1 k.2).toList) ++ (notes ++ (body ++
            ([(countLine fs.length).toList] ++ (lss.flatten ++ records)))))))

theorem shows_of_bareTextOf? {ks : List Constant} {code : List Nat} {ds : List Description}
    {lines : List CodeLine}
    (hds : List.Forall₂ (fun (w : Nat) d => Description.ofWord ks w = .ok d) code ds)
    (hkept : Kept (codeLines ds) lines)
    (hplain : ∀ w ∈ code, ∀ s ∈ bareTextOf? ks w, Plain s.toList) :
    List.Forall₂ Shows code lines := by
  refine shows_of_kept hds (fun w hw m hnum s hs => hplain w hw s ?_) hkept
  rw [bareTextOf?, ← hnum, Mnemonic.ofNumber?_number]
  exact hs

/-- **What holds of the listing of a function**: whatever follows for a function from the same for its
inner functions. The induction is on the depth to which functions are nested. -/
theorem writes_readFunction_of (hconstants : o.constants = true) (hconcise : o.concise = false)
    (order : Enumeration)
    (hpost : ∀ f lss ls, ListedAs f lss ls → List.Forall₂ post f.inner lss → post f ls)
    (depth : Nat) : Writes (readFunction o order depth) post := by
  induction depth with
  | zero => exact writes_throw
  | succ depth ih =>
    unfold readFunction
    refine onlyReads_readText.silent.bind fun source _ => ?_
    refine onlyReads_readParameters.silent.bind fun p hp => ?_
    refine silent_get.bind fun r _ => ?_
    refine @writes_writeListing_bind _ _ [[], (functionLine r.begun r.path.reverse p).toList] _ _
      (by simp [unlines]) ?_
    refine writes_sourceName fun name hname => ?_
    refine onlyReads_readCode.silent.bind fun code hcode => ?_
    refine writes_bind (writes_readConstants hconstants) fun ks consts hconsts => ?_
    refine (silent_mapM code).bind fun ds hds => ?_
    refine writes_bind (writes_annotate o order (codeLines ds)) fun lines notes hlines => ?_
    refine writes_bind (writes_writeCode hconcise _ code lines) fun _ body hbody => ?_
    have hmoves : Silent enterInner (fun _ => True) ∧ Silent leaveInner fun _ => True :=
      ⟨silent_modify (fun _ => rfl) fun _ => rfl, silent_modify (fun _ => rfl) fun _ => rfl⟩
    refine hmoves.1.bind fun _ _ => onlyReads_readWord.silent.bind fun count hcount => ?_
    rw [if_pos hconstants]
    refine writes_writeLine_bind ?_
    refine writes_bind (writes_repeated ih count) fun fs inner hinner => ?_
    refine hmoves.2.bind fun _ _ => ?_
    refine writes_bind writes_readDebug fun debug records hrecords => writes_pure ?_
    obtain ⟨rfl, lss, hlss, rfl⟩ := hinner
    rw [hconsts, append_nil]
    refine hpost _ lss _ (.mk hp hcount hname (fun l hl => (hlines.2 l hl).1) (fun hplain => ?_)
      fun l hl => (hrecords.2 l hl).1) hlss
    rw [hbody]
    exact assembles_codeBlocks o _ hcode.2.1 (shows_of_bareTextOf? hds hlines.1 hplain)

/-- **A function** is listed by lines that are assembled to it. -/
theorem writes_readFunction (hconstants : o.constants = true) (hconcise : o.concise = false)
    (order : Enumeration) (depth : Nat) :
    Writes (readFunction o order depth) fun f ls => Listable f → AssemblesTo ls f := by
  refine writes_readFunction_of hconstants hconcise order (fun f lss ls hf hinner hlist => ?_) depth
  cases hf with
  | @mk source p code ks fs debug begun path name notes body records lss hp hcount hname hnotes hbody
      hrecords =>
      have hfinite : ∀ k ∈ ks, FiniteNumber k := hlist.finite _ (.self _)
      have hfs : List.Forall₂ (fun f ls => AssemblesTo ls f) fs lss :=
        ((forall₂_and_left (p := Listable) fs lss).mpr
          ⟨fun f hf => hlist.inner hf, hinner⟩).imp fun f ls ⟨hf, h⟩ => h hf
      intro written levels
      refine assembles_append (assembles_head hp _ _ _) ?_
      refine assembles_append (assembles_of_skipped hname _) ?_
      refine assembles_append (assembles_constantLines hfinite 0 _) ?_
      refine assembles_append (assembles_of_skipped hnotes _) ?_
      refine assembles_append (hbody (hlist.plain _ (.self _)) _) ?_
      refine assembles_append (assembles_singleton (plain_countLine _) (takes_countLine hcount _)) ?_
      have hin := assembles_inner hfs (written ++ (encodeText none ++ encodeParameters p) ++
        encodeList encodeWord code ++ encodeList encodeConstant (ks.map Constant.stripped) ++
        encodeWord fs.length) (decimal fs.length) levels
      refine assembles_append hin ?_
      have hencode : written ++ (Function.mk source p code ks fs debug).stripped.encode ++
          (finish levels).1 = written ++ (encodeText none ++ encodeParameters p) ++
            encodeList encodeWord code ++ encodeList encodeConstant (ks.map Constant.stripped) ++
            encodeWord fs.length ++ encodeAll (strippedAll fs) ++ emptyDebug ++ (finish levels).1 := by
        simp only [Function.stripped, Function.encode, length_strippedAll, emptyDebug, append_assoc]
      rw [hencode]
      exact assembles_of_skipped hrecords _

/-! ### Chunks -/

theorem writes_readChunk_of {order : Enumeration}
    (h : ∀ depth, Writes (readFunction o order depth) post) : Writes (readChunk o order) post := by
  refine (onlyReads_takeBytes 12).silent.bind fun header _ => ?_
  split
  · exact writes_throw
  · refine Silent.bind (silent_modify ?_ ?_) fun _ _ => silent_get.bind fun r _ => h r.rest.length
    · exact fun _ => rfl
    · exact fun _ => rfl

theorem writes_readChunk (hconstants : o.constants = true) (hconcise : o.concise = false)
    (order : Enumeration) : Writes (readChunk o order) fun f ls => Listable f → AssemblesTo ls f :=
  writes_readChunk_of (writes_readFunction hconstants hconcise order)

theorem assemble_unlines {ls : List (List Char)} (h : AssemblesTo ls f) :
    assemble (unlines ls) = (.ok (), encodeChunk f.stripped) := by
  obtain ⟨hplain, htakes⟩ := h chunkHeader []
  have hlines := (takesAll_map trimEnd_newline).mpr htakes
  rw [← lines_unlines hplain] at hlines
  rw [assemble_of_takesAll hlines]
  simp [finish, encodeChunk]

/-- **The chunk round trip.** Let a chunk be disassembled without fault, with its constants shown, with
or without trace and hexadecimal words. If its numbers are finite and the texts that the listing shows
as they stand hold no line breaks, then the listing is assembled without fault to the header and the
function that was read, without source names and debug records and with missing texts as `nil`. -/
theorem assembleBytes_disassemble (trace hexadecimal : Bool) (bytes : List UInt8) (f : Function)
    (h : (disassemble { constants := true, trace, hexadecimal } false bytes).result = .ok f)
    (hfinite : ∀ g, Within g f → ∀ x, .number x ∈ g.constants →
      ∃ negative units, x.value = .finite negative units)
    (hplain : ∀ g, Within g f → ∀ w ∈ g.code, ∀ s ∈ bareTextOf? g.constants w,
      '\n' ∉ s.toList ∧ '\r' ∉ s.toList) :
    assembleBytes (encode (disassemble { constants := true, trace, hexadecimal } false bytes).listing)
      = (.ok (), encodeChunk f.stripped) := by
  have hlist : Listable f :=
    ⟨fun g hg k hk x hx => hfinite g hg x (hx ▸ hk), fun g hg w hw s hs c hc =>
      ⟨fun he => (hplain g hg w hw s hs).1 (he ▸ hc),
        fun he => (hplain g hg w hw s hs).2 (he ▸ hc)⟩⟩
  have hwrites := @writes_readChunk { constants := true, trace, hexadecimal } rfl rfl .ascending
  cases hrun : ((readChunk { constants := true, trace, hexadecimal } .ascending).run
      { rest := bytes, onConsole := false }).run with
  | mk result reading =>
    rw [disassemble, hrun] at h
    obtain rfl : result = .ok f := h
    obtain ⟨-, ls, hls, hto⟩ := hwrites _ _ _ hrun rfl
    have hlisting : reading.listing.toList = unlines ls := by simpa using hls
    rw [disassemble, hrun, assembleBytes, encode, decodeChars_encodeChars]
    simp only [hlisting]
    exact assemble_unlines (hto hlist)

/-- A function that reads a global and has an inner function. Its constants are a text that stands
bare in the listing, a missing text, a text with a line break and a number. -/
def nestedFunction : Function :=
  .mk (some "@main.lua") ⟨0, 0, 0, 0, 2, 2⟩ [5, plainReturn]
    [.text "print", .absent, .text "a\nb", .number ⟨0x3FE0000000000000⟩]
    [.mk none ⟨2, 3, 0, 0, 0, 2⟩ [plainReturn] [.truth true] [] {}] { lines := [1, 4] }

/-- The round trip of a chunk with a nested function and hexadecimal words: the source name, the lines
and the missing text are stripped, the line break in the other text is kept. -/
theorem assembleBytes_disassemble_nested :
    assembleBytes (encode (disassemble { constants := true, trace := false, hexadecimal := true }
      false (encodeChunk nestedFunction)).listing) = (.ok (), encodeChunk nestedFunction.stripped) := by
  have hwithin : ∀ g, Within g nestedFunction →
      g = nestedFunction ∨ g = .mk none ⟨2, 3, 0, 0, 0, 2⟩ [plainReturn] [.truth true] [] {} := by
    intro g hg
    rcases within_iff.mp hg with rfl | ⟨h, hmem, hg⟩
    · exact Or.inl rfl
    · obtain rfl := List.mem_singleton.mp hmem
      rcases within_iff.mp hg with rfl | ⟨h, hmem, -⟩
      · exact Or.inr rfl
      · cases hmem
  refine assembleBytes_disassemble false true (encodeChunk nestedFunction) nestedFunction
    (by decide +kernel) (fun g hg x hx => ?_) (fun g hg => ?_)
  · rcases hwithin g hg with rfl | rfl
    · obtain rfl : x = ⟨0x3FE0000000000000⟩ := by
        simpa [nestedFunction, Function.constants] using hx
      exact ⟨_, _, rfl⟩
    · simp [Function.constants] at hx
  · rcases hwithin g hg with rfl | rfl <;> decide +kernel

end ApkWorkshop.Listing
