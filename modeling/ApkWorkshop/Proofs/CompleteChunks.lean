import ApkWorkshop.Proofs.PrintedChunks

/-!
# Accepted Chunks Are Complete

A file that is disassembled without fault begins with the encoding of the function tree that was read, and
what is printed shows that tree. There is one exception. The length of a text record is not held against the
bytes that are left, so at the very end of a file the name of the last upvalue may be cut off, if only the
cut is made behind a zero byte.
-/

namespace ApkWorkshop.Listing

open Bytecode List
open Text

variable {α : Type} {enc : α → List UInt8} {good : α → Prop} {f g : Function} {bytes : List UInt8}
  {s name : String}

/-! ### Unique reading -/

/-- The encoding of a good value can be told from what stands behind it. -/
def SelfDelimiting (enc : α → List UInt8) (good : α → Prop) : Prop :=
  ∀ a b x y, good a → good b → enc a ++ x = enc b ++ y → a = b ∧ x = y

/-- **Records that are read back** can be told from what stands behind them, since reading has one
outcome. -/
theorem selfDelimiting_of_reads {m : Disassembly α}
    (h : ∀ a, good a → ∃ count, Reads m (enc a) count a) : SelfDelimiting enc good := by
  intro a b x y ha hb heq
  obtain ⟨count, hreads⟩ := h a ha
  obtain ⟨count', hreads'⟩ := h b hb
  obtain ⟨hvalue, hstate⟩ := (hreads { rest := enc a ++ x } x rfl).unique (hreads' _ y heq)
  exact ⟨hvalue, congrArg Reading.rest hstate⟩

theorem exists_reads_text {text : Option String} (h : ∀ s ∈ text, FitsRecord s) :
    ∃ count, Reads readText (encodeText text) count text := by
  cases text with
  | none => exact ⟨_, reads_readText_none⟩
  | some s => exact ⟨_, reads_readText (h s rfl)⟩

theorem selfDelimiting_list {record : Disassembly α}
    (h : ∀ a, good a → ∃ count, Reads record (enc a) count a) :
    SelfDelimiting (encodeList enc) fun xs => xs.length < 0x100000000 ∧ ∀ x ∈ xs, good x :=
  selfDelimiting_of_reads fun _ hxs => reads_readList hxs.1 fun x hx => h x (hxs.2 x hx)

theorem exists_reads_local {v : LocalVariable} (h : (∀ s ∈ v.name, FitsRecord s) ∧
    v.first < 0x100000000 ∧ v.stop < 0x100000000) :
    ∃ count, Reads (do
        let name ← readText
        let first ← readWord
        let stop ← readWord
        return ({ name, first, stop } : LocalVariable))
      (encodeText v.name ++ encodeWord v.first ++ encodeWord v.stop) count v := by
  obtain ⟨count, hname⟩ := exists_reads_text h.1
  rw [append_assoc]
  exact ⟨_, hname.bind ((reads_readWord h.2.1).bind ((reads_readWord h.2.2).bind (reads_pure v)
    (append_nil _).symm rfl) rfl rfl) rfl rfl⟩

theorem selfDelimiting_debug : SelfDelimiting encodeDebug FitsDebug := by
  rintro ⟨lines, locals, upvalues⟩ ⟨lines', locals', upvalues'⟩ x y hd he h
  rw [encodeDebug, encodeDebug, append_assoc, append_assoc, append_assoc, append_assoc] at h
  obtain ⟨hlines, h⟩ := selfDelimiting_list (fun _ hn => ⟨_, reads_readWord hn⟩) _ _ _ _
    hd.lines he.lines h
  obtain ⟨hlocals, h⟩ := selfDelimiting_list (fun _ hv => exists_reads_local hv) _ _ _ _
    hd.locals he.locals h
  obtain ⟨hupvalues, h⟩ := selfDelimiting_list (fun _ hs => exists_reads_text hs) _ _ _ _
    hd.upvalues he.upvalues h
  exact ⟨(DebugRecords.mk.injEq ..).mpr ⟨hlines, hlocals, hupvalues⟩, h⟩

mutual

/-- **Functions** can be told from what stands behind them. -/
theorem encode_append_inj (f g : Function) {x y : List UInt8} (hf : AllFit f) (hg : AllFit g)
    (h : f.encode ++ x = g.encode ++ y) : f = g ∧ x = y := by
  cases f with
  | mk source p code ks inner debug =>
    cases g with
    | mk source' p' code' ks' inner' debug' =>
      obtain ⟨hs, hp, hcode, hks, hcount, hd⟩ := hf _ (.self _)
      obtain ⟨hs', hp', hcode', hks', hcount', hd'⟩ := hg _ (.self _)
      simp only [Function.encode, append_assoc] at h
      obtain ⟨hsource, h⟩ := selfDelimiting_of_reads (fun _ h => exists_reads_text h) _ _ _ _
        hs hs' h
      obtain ⟨hparameters, h⟩ := selfDelimiting_of_reads
        (fun _ h => ⟨_, reads_readParameters h⟩) _ _ _ _ hp hp' h
      obtain ⟨hwords, h⟩ := selfDelimiting_list (fun _ hn => ⟨_, reads_readWord hn⟩) _ _ _ _
        ⟨hcode.1, hcode.2.1⟩ ⟨hcode'.1, hcode'.2.1⟩ h
      obtain ⟨hconstants, h⟩ := selfDelimiting_list (fun _ hk => ⟨_, reads_readConstant hk⟩) _ _ _ _
        hks hks' h
      obtain ⟨hlength, h⟩ := selfDelimiting_of_reads (fun _ hn => ⟨_, reads_readWord hn⟩) _ _ _ _
        hcount hcount' h
      obtain ⟨hinner, h⟩ := encodeAll_append_inj inner inner' hlength (fun k hk => hf.inner hk)
        (fun k hk => hg.inner hk) h
      obtain ⟨hdebug, h⟩ := selfDelimiting_debug _ _ _ _ hd hd' h
      exact ⟨by rw [hsource, hparameters, hwords, hconstants, hinner, hdebug], h⟩

theorem encodeAll_append_inj (fs gs : List Function) {x y : List UInt8}
    (hlength : fs.length = gs.length) (hfs : ∀ f ∈ fs, AllFit f) (hgs : ∀ g ∈ gs, AllFit g)
    (h : encodeAll fs ++ x = encodeAll gs ++ y) : fs = gs ∧ x = y := by
  cases fs with
  | nil =>
    obtain rfl := length_eq_zero_iff.mp hlength.symm
    exact ⟨rfl, h⟩
  | cons f fs =>
    cases gs with
    | nil => cases hlength
    | cons g gs =>
      rw [encodeAll, encodeAll, append_assoc, append_assoc] at h
      obtain ⟨hfirst, h⟩ := encode_append_inj f g (hfs f (by simp)) (hgs g (by simp)) h
      obtain ⟨hothers, h⟩ := encodeAll_append_inj fs gs (by simpa using hlength)
        (fun k hk => hfs k (by simp [hk])) (fun k hk => hgs k (by simp [hk])) h
      exact ⟨by rw [hfirst, hothers], h⟩

end

theorem selfDelimiting_encodeChunk : SelfDelimiting encodeChunk AllFit := by
  intro f g x y hf hg h
  rw [encodeChunk, encodeChunk, append_assoc] at h
  exact encode_append_inj f g hf hg (append_cancel_left h)

theorem not_prefix_of_append {missing : List UInt8} (hf : AllFit f) (hg : AllFit g)
    (h : encodeChunk f = bytes ++ missing) (hmissing : missing ≠ []) :
    ¬ encodeChunk g <+: bytes := by
  rintro ⟨rest, rfl⟩
  rw [append_assoc] at h
  obtain ⟨-, hnil⟩ := selfDelimiting_encodeChunk _ _ _ _ hf hg ((append_nil _).trans h)
  exact hmissing (append_eq_nil_iff.mp hnil.symm).2

/-! ### Chunks that are cut off -/

def renameLast (name : String) : Function → Function
  | .mk source p code ks inner debug => .mk source p code ks inner
      { debug with upvalues := debug.upvalues.dropLast ++ [some name] }

theorem exists_eq_concat_of_last {upvalues : List (Option String)}
    (h : s ∈ upvalues.getLast?.join) : ∃ names, upvalues = names ++ [some s] :=
  getLast?_eq_some_iff.mp (Option.join_eq_some_iff.mp h)

theorem exists_encodeChunk_eq (hs : s ∈ lastUpvalue f) :
    ∃ front, encodeChunk f = front ++ encodeText (some s) ∧
      ∀ name, encodeChunk (renameLast name f) = front ++ encodeText (some name) := by
  obtain ⟨source, p, code, ks, inner, lines, locals, upvalues⟩ := f
  obtain ⟨names, rfl⟩ := exists_eq_concat_of_last hs
  refine ⟨chunkHeader ++ (encodeText source ++ (encodeParameters p ++ (encodeList encodeWord code ++
    (encodeList encodeConstant ks ++ (encodeWord inner.length ++ (encodeAll inner ++
      (encodeList encodeWord lines ++ (encodeList (fun v => encodeText v.name ++ encodeWord v.first ++
        encodeWord v.stop) locals ++ (encodeWord (names.length + 1) ++
          names.flatMap encodeText))))))))), ?_, fun name => ?_⟩
  · simp [encodeChunk, Function.encode, encodeDebug, encodeList]
  · simp [encodeChunk, Function.encode, encodeDebug, encodeList, renameLast]

theorem AllFit.renameLast (h : AllFit f) (hs : s ∈ lastUpvalue f) (hname : FitsRecord name) :
    AllFit (renameLast name f) := by
  obtain ⟨source, p, code, ks, inner, lines, locals, upvalues⟩ := f
  obtain ⟨names, rfl⟩ := exists_eq_concat_of_last hs
  obtain ⟨hsource, hp, hcode, hks, hcount, hlines, hlocals, hlength, hnames⟩ := h _ (.self _)
  intro g hg
  rcases within_iff.mp hg with rfl | ⟨k, hk, hg⟩
  · refine ⟨hsource, hp, hcode, hks, hcount, hlines, hlocals, ?_, ?_⟩
    · simpa using hlength
    · rw [dropLast_concat, forall_mem_append]
      rw [forall_mem_append] at hnames
      exact ⟨hnames.1, by simpa using hname⟩
  · exact h g (.inner hk hg)

def padded (s : String) (k : Nat) : String := s ++ String.ofList (List.replicate k '\x00')

theorem encode_padded (s : String) (k : Nat) :
    encode (padded s k) = encode s ++ List.replicate k 0 := by
  have hzero : encodeChar '\x00' = [0] := by decide
  simp [encode, padded, encodeChars, hzero, flatMap_replicate]

theorem encodeText_padded (s : String) (k : Nat) : encodeText (some (padded s k)) =
    encodeWord ((encode s).length + 1 + k) ++ (encode s ++ [0]) ++ List.replicate k 0 := by
  have hlength : (encode s ++ List.replicate k 0 ++ [0]).length = (encode s).length + 1 + k := by
    simp
    omega
  rw [encodeText, encode_padded, hlength]
  simp [← replicate_succ', replicate_succ]

/-- **A file that overruns the last name** is a chunk that is cut off: with zero bytes behind it, it is the
chunk of the same function with a longer name. So no chunk is complete in it. -/
theorem not_prefix_of_overruns (hf : AllFit f) (hs : s ∈ lastUpvalue f)
    (hover : Overruns s (encodeChunk f) bytes) (hg : AllFit g) : ¬ encodeChunk g <+: bytes := by
  obtain ⟨front, n, hfront, rfl, hlong, hn⟩ := hover
  obtain ⟨front', hfront', hrename⟩ := exists_encodeChunk_eq hs
  obtain rfl : front = front' := append_cancel_right (hfront.symm.trans hfront')
  obtain ⟨k, rfl⟩ := Nat.exists_eq_add_of_lt hlong
  have hfits : FitsRecord (padded s (k + 1)) := by
    rw [FitsRecord, encode_padded, length_append, length_replicate]
    omega
  have hwhole : encodeChunk (renameLast (padded s (k + 1)) f) =
      front ++ (encodeWord ((encode s).length + 1 + k + 1) ++ (encode s ++ [0])) ++
        List.replicate (k + 1) 0 := by
    rw [hrename, encodeText_padded, append_assoc front, ← Nat.add_assoc]
  exact not_prefix_of_append (hf.renameLast hs hfits) hg hwhole (by simp)

/-! ### Accepted files -/

/-- **What is accepted is complete.** If a file is disassembled without fault to a function tree, then the
tree fits the format, what is printed shows it, and its encoding is the beginning of the file; or no chunk
at all is complete in the file, since it ends with the name of the last upvalue of the main function, and
only the length of that name is greater than what is there of it. -/
theorem complete_of_disassemble (o : Options) (onConsole : Bool) (bytes : List UInt8) (f : Function)
    (h : (disassemble o onConsole bytes).result = .ok f) :
    (encodeChunk f <+: bytes ∨ (∀ g, AllFit g → ¬ encodeChunk g <+: bytes) ∧
        ∃ s ∈ lastUpvalue f, Overruns s (encodeChunk f) bytes) ∧ AllFit f ∧
      ∃ es, (disassemble o onConsole bytes).shown onConsole = textOf o es ∧
        (∀ e ∈ es, e.Holds bytes) ∧ shownItems es = functionItems o f := by
  obtain ⟨es, hshown, hholds, htree⟩ := exists_prints_of_disassemble o onConsole bytes
  obtain ⟨hitems, hfit, rest, hfound⟩ := htree f h
  refine ⟨?_, hfit, es, hshown, hholds, hitems⟩
  rcases hfound with hexact | ⟨-, s, hs, hover⟩
  · exact Or.inl ⟨rest, hexact.symm⟩
  · exact Or.inr ⟨fun g hg => not_prefix_of_overruns hfit hs hover hg, s, hs, hover⟩

def namedUpvalue (name : String) : Function :=
  .mk none ⟨0, 0, 0, 0, 2, 2⟩ [plainReturn] [] [] { upvalues := [some name] }

/-- A chunk with an inner function, and with bytes behind it that are not looked at, and a chunk in which
the length of the last name is too great. -/
theorem complete_of_disassemble_nested :
    (∃ es, (disassemble { constants := true } false (encodeChunk nestedFunction ++ [7, 7])).listing =
        textOf { constants := true } es ∧
      shownItems es = functionItems { constants := true } nestedFunction) ∧
    ∃ s ∈ lastUpvalue (namedUpvalue "a"), Overruns s (encodeChunk (namedUpvalue "a"))
      ((encodeChunk (namedUpvalue "a\x00bc")).take 62) := by
  have hok : (disassemble { constants := true } false (encodeChunk nestedFunction ++ [7, 7])).result =
      .ok nestedFunction := by decide +kernel
  have hok' : (disassemble {} false ((encodeChunk (namedUpvalue "a\x00bc")).take 62)).result =
      .ok (namedUpvalue "a") := by decide +kernel
  obtain ⟨-, -, es, hshown, -, hitems⟩ := complete_of_disassemble _ _ _ _ hok
  obtain ⟨hcomplete, -⟩ := complete_of_disassemble _ _ _ _ hok'
  refine ⟨⟨es, hshown, hitems⟩, ?_⟩
  rcases hcomplete with hprefix | ⟨-, hover⟩
  · exact absurd hprefix (by decide +kernel)
  · exact hover

theorem allFit_namedUpvalue (h : FitsRecord name) : AllFit (namedUpvalue name) := by
  intro g hg
  rcases within_iff.mp hg with rfl | ⟨k, hk, -⟩
  · refine ⟨by simp, by simp [InRecords], ?_, by simp, by simp, by simp, by simp, ?_⟩
    · simp [FitsCode, plainReturn]
    · simpa using h
  · cases hk

/-- **A chunk that is cut off and accepted.** The name of its upvalue has a zero byte, and behind that byte
the chunk is cut. What is left is read as a chunk with a shorter name, although no chunk at all is complete
in it. -/
theorem cut_chunk_accepted :
    let whole := encodeChunk (namedUpvalue "a\x00bc")
    62 < whole.length ∧ (disassemble {} false (whole.take 62)).result = .ok (namedUpvalue "a") ∧
    ∀ g, AllFit g → ¬ encodeChunk g <+: whole.take 62 := by
  have hfits : FitsRecord "a\x00bc" := by
    rw [FitsRecord]
    decide +kernel
  intro whole
  refine ⟨by decide +kernel, by decide +kernel, fun g hg => ?_⟩
  exact not_prefix_of_append (allFit_namedUpvalue hfits) hg (take_append_drop 62 whole).symm
    (by decide +kernel)

end ApkWorkshop.Listing
