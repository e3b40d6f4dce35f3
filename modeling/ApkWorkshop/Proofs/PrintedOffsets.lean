import ApkWorkshop.Proofs.PrintedChunks

/-!
# Printed Offsets Are True

With the hexadecimal margin, a line shows an instruction behind its offset in the file and its word. The
offset is counted along while records are read, and the count has to agree with the bytes that were taken.
A name in a description may have line breaks of its own, so what is printed is taken in pieces and not in
lines.
-/

namespace ApkWorkshop.Listing

open Bytecode List
open Text

variable {n : Nat} {c : Char} {s : String}

/-! ### Reading a margin -/

def smallHexDigits : List Char :=
  ['0', '1', '2', '3', '4', '5', '6', '7', '8', '9', 'a', 'b', 'c', 'd', 'e', 'f']

theorem mem_smallHexDigits (h : c ∈ (hex n).toList) : c ∈ smallHexDigits := by
  obtain ⟨ds, hds, hlt, -⟩ := exists_digits (by decide : 1 < 16) n
  rw [hex, String.toList_ofList, hds] at h
  obtain ⟨d, hd, rfl⟩ := mem_map.mp h
  have hd16 : d < 16 := hlt d hd
  interval_cases d <;> decide

theorem ne_space_of_mem_hex (h : c ∈ (hex n).toList) : (c != ' ') = true := by
  have hdigits : smallHexDigits.all (· != ' ') = true := by decide
  exact all_eq_true.mp hdigits c (mem_smallHexDigits h)

theorem hex_injective {m : Nat} (h : hex m = hex n) : m = n := by
  obtain ⟨ds, hds, hlt, rfl⟩ := exists_digits (by decide : 1 < 16) m
  obtain ⟨es, hes, hlt', rfl⟩ := exists_digits (by decide : 1 < 16) n
  have hchars : ds.map Nat.digitChar = es.map Nat.digitChar := by
    rw [← hds, ← hes]
    exact String.ofList_injective h
  have hread := hexDigits?_map_digitChar hlt 0 []
  have hread' := hexDigits?_map_digitChar hlt' 0 []
  have hlength : ds.length = es.length := by simpa using congrArg List.length hchars
  rw [hchars, hlength, hread'] at hread
  simpa using hread.symm

def firstWord (cs : List Char) : List Char :=
  (cs.dropWhile (· == ' ')).takeWhile (· != ' ')

/-- What stands behind the first word of a text and the space that ends it. -/
def behindWord (cs : List Char) : List Char :=
  ((cs.dropWhile (· == ' ')).dropWhile (· != ' ')).drop 1

theorem exists_hex_eq_cons (n : Nat) : ∃ c cs, (hex n).toList = c :: cs :=
  exists_cons_of_ne_nil (by simp [hex])

theorem dropWhile_padStart (width n : Nat) (rest : List Char) :
    ((padStart width ' ' (hex n)).toList ++ rest).dropWhile (· == ' ') = (hex n).toList ++ rest := by
  obtain ⟨c, cs, hcs⟩ := exists_hex_eq_cons n
  have hc : (c != ' ') = true := ne_space_of_mem_hex (n := n) (by simp [hcs])
  have hspaces : ∀ k, ∀ c ∈ List.replicate k ' ', (c == ' ') = true := fun k c hmem => by
    simp [(mem_replicate.mp hmem).2]
  rw [padStart, String.toList_append, String.toList_ofList, append_assoc,
    dropWhile_append_of_pos (hspaces _), hcs, cons_append,
    dropWhile_cons_of_neg (by simpa using hc)]

theorem firstWord_padStart (width n : Nat) (rest : List Char) :
    firstWord ((padStart width ' ' (hex n)).toList ++ (' ' :: rest)) = (hex n).toList := by
  rw [firstWord, dropWhile_padStart, takeWhile_append_of_pos fun c hc => ne_space_of_mem_hex hc]
  simp

theorem behindWord_padStart (width n : Nat) (rest : List Char) :
    behindWord ((padStart width ' ' (hex n)).toList ++ (' ' :: rest)) = rest := by
  rw [behindWord, dropWhile_padStart, dropWhile_append_of_pos fun c hc => ne_space_of_mem_hex hc]
  simp

theorem toList_hexMargin_append (offset w : Nat) (rest : String) :
    (hexMargin offset w ++ rest).toList = (padStart 5 ' ' (hex offset)).toList ++
      (' ' :: ((padStart 8 ' ' (hex w)).toList ++ (' ' :: rest.toList))) := by
  simp [hexMargin]

/-- **The offset and the word** can be read off the beginning of a piece. -/
theorem hexMargin_injective {offset offset' w w' : Nat} {rest rest' : String}
    (h : hexMargin offset w ++ rest = hexMargin offset' w' ++ rest') :
    offset = offset' ∧ w = w' ∧ rest = rest' := by
  have hchars := congrArg String.toList h
  rw [toList_hexMargin_append, toList_hexMargin_append] at hchars
  have hoffset := congrArg firstWord hchars
  have hbehind := congrArg behindWord hchars
  rw [firstWord_padStart, firstWord_padStart] at hoffset
  rw [behindWord_padStart, behindWord_padStart] at hbehind
  have hword := congrArg firstWord hbehind
  have hrest := congrArg behindWord hbehind
  rw [firstWord_padStart, firstWord_padStart] at hword
  rw [behindWord_padStart, behindWord_padStart] at hrest
  exact ⟨hex_injective (String.toList_injective hoffset), hex_injective (String.toList_injective hword),
    String.toList_injective hrest⟩

/-! ### Pieces without a margin -/

/-- Is the first character that is not a space other than the digits of numbers in hexadecimal? -/
def beginsOtherwise (s : String) : Bool :=
  (s.toList.find? (· != ' ')).any fun c => !smallHexDigits.contains c

theorem beginsOtherwise_append (h : beginsOtherwise s = true) (t : String) :
    beginsOtherwise (s ++ t) = true := by
  rw [beginsOtherwise, Option.any_eq_true] at h ⊢
  obtain ⟨c, hc, hother⟩ := h
  refine ⟨c, ?_, hother⟩
  rw [String.toList_append, find?_append, hc, Option.some_or]

theorem beginsOtherwise_hexMargin (offset w : Nat) (rest : String) :
    beginsOtherwise (hexMargin offset w ++ rest) = false := by
  obtain ⟨d, ds, hds⟩ := exists_hex_eq_cons offset
  have hd : d ∈ (hex offset).toList := by simp [hds]
  have hfind : (hexMargin offset w ++ rest).toList.find? (· != ' ') = some d := by
    rw [toList_hexMargin_append, padStart, String.toList_append,
      append_assoc, find?_append, find?_eq_none.mpr (by simp), Option.none_or, hds,
      cons_append, find?_cons, ne_space_of_mem_hex hd]
  rw [beginsOtherwise, hfind]
  simpa using mem_smallHexDigits hd

theorem beginsOtherwise_record (x : Record) : beginsOtherwise x.line = true := by
  cases x with
  | constant place k =>
    have hstart : beginsOtherwise "CONST " = true := by decide
    exact beginsOtherwise_append (beginsOtherwise_append (beginsOtherwise_append hstart _) _) _
  | source | count | lines | locals | upvalues => exact beginsOtherwise_append (by decide) _

theorem beginsOtherwise_remark (h : RemarkText s) : beginsOtherwise (s ++ "\n") = true := by
  have hstarts : ∀ start ∈ remarkStarts, beginsOtherwise start = true := by decide
  rcases h with rfl | ⟨start, hstart, t, rfl, -⟩
  · decide
  · exact beginsOtherwise_append (beginsOtherwise_append (hstarts start hstart) t) "\n"

/-- **Only instructions** begin with an offset and a word, and only with their own. -/
theorem text_eq_hexMargin_iff {o : Options} {bytes : List UInt8} {e : Print} (he : e.Holds bytes)
    (hhex : o.hexadecimal = true) (hfull : o.concise = false) (offset w : Nat) :
    (∃ rest, e.text o = hexMargin offset w ++ rest) ↔ ∃ place l, e = .instruction offset w place l := by
  have hother : beginsOtherwise (e.text o) = true →
      ¬ ∃ rest, e.text o = hexMargin offset w ++ rest := by
    rintro h ⟨rest, hrest⟩
    rw [hrest, beginsOtherwise_hexMargin] at h
    cases h
  cases e with
  | remark s => exact iff_of_false (hother (beginsOtherwise_remark he)) (by simp)
  | head begun path p =>
    refine iff_of_false (hother ?_) (by simp)
    rw [Print.text, String.append_assoc]
    exact beginsOtherwise_append (by decide) _
  | record x =>
    exact iff_of_false (hother (beginsOtherwise_append (beginsOtherwise_record x) "\n")) (by simp)
  | instruction offset' w' place l =>
    have htext : Print.text o (.instruction offset' w' place l) =
        hexMargin offset' w' ++ (fullLine place l ++ "\n") := by
      rw [Print.text, if_neg (by simp [hfull]), if_pos hhex, String.append_assoc]
    rw [htext]
    constructor
    · rintro ⟨rest, hrest⟩
      obtain ⟨rfl, rfl, -⟩ := hexMargin_injective hrest
      exact ⟨place, l, rfl⟩
    · rintro ⟨place', l', heq⟩
      obtain ⟨rfl, rfl, rfl, rfl⟩ := Print.instruction.inj heq
      exact ⟨_, rfl⟩

/-! ### Whole disassemblies -/

/-- **At a printed offset stands the printed word.** What a disassembly with hexadecimal margins prints,
whether it ends well or not, are pieces that begin with an offset and a word exactly if they are the
instruction with that word at that offset. There the word stands in the file, in four bytes with the lowest
first, and behind the margin is its line in the body of a function. The other pieces are remarks of one
line, heads and records. A disassembly that ends well prints the whole function tree. -/
theorem words_at_printed_offsets (o : Options) (onConsole : Bool) (bytes : List UInt8)
    (hhex : o.hexadecimal = true) (hfull : o.concise = false) :
    ∃ es, (disassemble o onConsole bytes).shown onConsole = textOf o es ∧
      (∀ e ∈ es, ∀ offset w, (∃ rest, e.text o = hexMargin offset w ++ rest) ↔
        ∃ place l, e = .instruction offset w place l) ∧
      (∀ offset w place l, .instruction offset w place l ∈ es →
        w < 0x100000000 ∧ (bytes.drop offset).take 4 = encodeWord w ∧ DescribedAt place w l) ∧
      (∀ s, .remark s ∈ es → RemarkText s) ∧
      ∀ f, (disassemble o onConsole bytes).result = .ok f → shownItems es = functionItems o f := by
  obtain ⟨es, hshown, hholds, htree⟩ := exists_prints_of_disassemble o onConsole bytes
  refine ⟨es, hshown, fun e he offset w => ?_, fun offset w place l he => hholds _ he,
    fun s hs => hholds _ hs, fun f hf => (htree f hf).1⟩
  exact text_eq_hexMargin_iff (hholds e he) hhex hfull offset w

/-- A chunk with an inner function shows three words, each at its offset, and so does what is printed of the
chunk when it is cut off in its debug records. -/
theorem words_at_printed_offsets_nested :
    let o : Options := { hexadecimal := true }
    let chunk := encodeChunk nestedFunction
    (∃ es, (disassemble o false chunk).listing = textOf o es ∧
      shownItems es = [.head ⟨0, 0, 0, 0, 2, 2⟩, .record (.source "@main.lua"), .word 5, .word plainReturn,
        .head ⟨2, 3, 0, 0, 0, 2⟩, .word plainReturn, .record (.lines [1, 4])] ∧
      ∀ offset w place l, .instruction offset w place l ∈ es →
        (chunk.drop offset).take 4 = encodeWord w) ∧
    (disassemble o false (chunk.take 140)).result = .error .shortRead ∧
    ∃ es, (disassemble o false (chunk.take 140)).listing = textOf o es ∧
      ∀ offset w place l, .instruction offset w place l ∈ es →
        ((chunk.take 140).drop offset).take 4 = encodeWord w := by
  intro o chunk
  have hok : (disassemble o false chunk).result = .ok nestedFunction := by decide +kernel
  obtain ⟨es, hshown, -, hwords, -, htree⟩ := words_at_printed_offsets o false chunk rfl rfl
  obtain ⟨es', hshown', -, hwords', -, -⟩ := words_at_printed_offsets o false (chunk.take 140) rfl rfl
  refine ⟨⟨es, hshown, htree _ hok, fun offset w place l he => ?_⟩, by decide +kernel, es', hshown',
    fun offset w place l he => ?_⟩
  · exact (hwords offset w place l he).2.1
  · exact (hwords' offset w place l he).2.1

end ApkWorkshop.Listing
