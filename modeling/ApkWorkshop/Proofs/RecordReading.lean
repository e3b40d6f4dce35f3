import ApkWorkshop.Proofs.ListingWrites

/-!
# Records Are Read Back

A disassembly takes records from the front of the bytes that are left. `Reads m bytes count a` says
that the step `m` finds `a` in `bytes`, whatever stands behind them, and counts `count` bytes as read;
nothing else of the state is touched. The rules follow the chunk format, from words to lists of constants.

The other way round, `tag_of_readConstant` says what is known about a constant that was read: the byte
it began with, and that it fits into a record again.
-/

namespace ApkWorkshop.Bytecode

open Nat

def Constant.tag : Constant → UInt8
  | .nil => 0
  | .truth _ => 1
  | .number _ => 3
  | .absent | .text _ => 4

@[simp] theorem head?_encodeConstant (k : Constant) : (encodeConstant k).head? = some k.tag := by
  cases k <;> rfl

end ApkWorkshop.Bytecode

namespace ApkWorkshop.Listing

open Bytecode List
open Text

variable {α β : Type}

variable {bytes : List UInt8} {n : Nat} {r r' : Reading} {s : String} {record : Disassembly α}
  {encoded : α → List UInt8} {xs : List α} {k : Constant}

/-- The step finds `a` in front of any bytes, and counts `count` bytes. -/
def Reads (m : Disassembly α) (bytes : List UInt8) (count : Nat) (a : α) : Prop :=
  ∀ r more, r.rest = bytes ++ more → Ends m r a { r with rest := more, offset := r.offset + count }

theorem reads_pure (a : α) : Reads (pure a) [] 0 a := by
  intro r more hr
  obtain rfl : r.rest = more := hr
  exact ends_pure.mpr ⟨rfl, rfl⟩

/-- **Two steps in a row** read what stands side by side. -/
theorem Reads.bind {m : Disassembly α} {f : α → Disassembly β} {bytes' whole : List UInt8}
    {count count' total : Nat} {a : α} {b : β} (hm : Reads m bytes count a)
    (hf : Reads (f a) bytes' count' b) (hwhole : whole = bytes ++ bytes')
    (htotal : total = count + count') : Reads (m >>= f) whole total b := by
  intro r more hr
  have hfirst := hm r (bytes' ++ more) (by rw [hr, hwhole, append_assoc])
  have hsecond := hf { r with rest := bytes' ++ more, offset := r.offset + count } more rfl
  rw [add_assoc, ← htotal] at hsecond
  exact hfirst.bind hsecond

theorem reads_countBytes (n : Nat) : Reads (countBytes n) [] n () := by
  intro r more hr
  obtain rfl : r.rest = more := hr
  exact ends_modify.mpr rfl

theorem ends_takeBytes :
    Ends (takeBytes n) r bytes r' ↔
      bytes = r.rest.take n ∧ r' = { r with rest := r.rest.drop n } := by
  constructor
  · intro h
    obtain ⟨_, _, hget, hrest⟩ := ends_bind.mp h
    obtain ⟨rfl, rfl⟩ := ends_get.mp hget
    obtain ⟨_, _, hset, hpure⟩ := ends_bind.mp hrest
    obtain rfl := ends_set.mp hset
    obtain ⟨rfl, rfl⟩ := ends_pure.mp hpure
    exact ⟨rfl, rfl⟩
  · rintro ⟨rfl, rfl⟩
    exact Ends.bind (ends_get.mpr ⟨rfl, rfl⟩)
      (Ends.bind ((ends_set (u := ⟨⟩)).mpr rfl) (ends_pure.mpr ⟨rfl, rfl⟩))

theorem reads_takeBytes (bytes : List UInt8) : Reads (takeBytes bytes.length) bytes 0 bytes := by
  intro r more hr
  exact ends_takeBytes.mpr ⟨by simp [hr], by simp [hr]⟩

theorem reads_takeExactly (bytes : List UInt8) :
    Reads (takeExactly bytes.length) bytes 0 bytes := by
  refine (reads_takeBytes bytes).bind ?_ (append_nil bytes).symm (add_zero 0).symm
  rw [if_pos rfl]
  exact reads_pure bytes

/-! ### Words -/

theorem littleEndian_append (low high : List UInt8) :
    littleEndian (low ++ high) = littleEndian low + 256 ^ low.length * littleEndian high := by
  induction low with
  | nil => simp [littleEndian]
  | cons b low ih =>
    change b.toNat + 256 * littleEndian (low ++ high) = b.toNat + 256 * littleEndian low + _
    rw [ih, length_cons]
    ring

theorem littleEndian_encodeWord (h : n < 0x100000000) : littleEndian (encodeWord n) = n := by
  have hbyte : ∀ k : Nat, k.toUInt8.toNat = k % 256 := fun k => UInt8.toNat_ofNat'
  simp only [encodeWord, littleEndian, foldr_cons, foldr_nil, hbyte]
  omega

theorem reads_readWord (h : n < 0x100000000) : Reads readWord (encodeWord n) 4 n := by
  refine (reads_countBytes 4).bind ?_ rfl (add_zero 4).symm
  refine (reads_takeExactly (encodeWord n)).bind ?_ rfl (add_zero 0).symm
  rw [littleEndian_encodeWord h]
  exact reads_pure n

theorem reads_readByte (b : UInt8) : Reads readByte [b] 1 b :=
  (reads_countBytes 1).bind ((reads_takeBytes [b]).bind (reads_pure b) rfl rfl) rfl rfl

/-! ### Texts -/

/-- Does the text fit into a record, whose length counts the zero byte behind the text? -/
def FitsRecord (s : String) : Prop :=
  (encode s).length + 1 < 0x100000000

theorem reads_readText_none : Reads readText (encodeText none) 4 none := by
  refine (reads_readWord (by decide)).bind ?_ (append_nil _).symm (add_zero 4).symm
  exact reads_pure none

theorem reads_readText (h : FitsRecord s) :
    Reads readText (encodeText (some s)) (encodeText (some s)).length (some s) := by
  have hlength : (encode s ++ [0]).length = (encode s).length + 1 := by simp
  refine (reads_readWord (hlength ▸ h)).bind ?_ rfl (length_append ..)
  rw [if_neg (by simp)]
  refine (reads_countBytes _).bind ?_ rfl (add_zero _).symm
  refine (reads_takeBytes (encode s ++ [0])).bind ?_ (append_nil _).symm (add_zero 0).symm
  simp only [getLast?_append, getLast?_singleton, Option.some_or, dropLast_concat, decode_encode]
  exact reads_pure (some s)

theorem fits_of_readText (h : Ends readText r (some s) r') : FitsRecord s := by
  obtain ⟨length, r₁, hword, h⟩ := ends_bind.mp h
  split at h
  · cases (ends_pure.mp h).1
  obtain ⟨_, r₂, -, h⟩ := ends_bind.mp h
  obtain ⟨bytes, r₃, htake, h⟩ := ends_bind.mp h
  obtain ⟨hbytes, -⟩ := ends_takeBytes.mp htake
  cases hlast : bytes.getLast? with
  | none => rw [hlast] at h; exact absurd h not_ends_throw
  | some last =>
    simp only [hlast] at h
    split at h
    · obtain ⟨_, _, hthrow, -⟩ := ends_bind.mp h
      exact absurd hthrow not_ends_throw
    split at h
    · rename_i t hdecode
      obtain ⟨hs, -⟩ := ends_pure.mp h
      obtain rfl : t = s := Option.some.inj hs
      have hle : bytes.length ≤ length := by
        rw [hbytes]
        exact length_take_le _ _
      have hpos : bytes ≠ [] := by
        rintro rfl
        cases hlast
      rw [FitsRecord, encode_of_decode hdecode, length_dropLast]
      have := (onlyReads_readWord _ _ _ hword).1
      omega
    · exact absurd h not_ends_throw

/-! ### Constants -/

theorem littleEndian_encodeDouble (x : Double) :
    (littleEndian (encodeDouble x)).toUInt64 = x.bits := by
  have hlt := x.bits.toNat_lt
  rw [encodeDouble, littleEndian_append, littleEndian_encodeWord (Nat.mod_lt _ (by decide)),
    littleEndian_encodeWord (by omega)]
  have hlength : (encodeWord (x.bits.toNat % 0x100000000)).length = 4 := rfl
  rw [hlength, show 256 ^ 4 = 0x100000000 from rfl, Nat.mod_add_div]
  simp

/-- **A constant** whose text fits into a record is read back. -/
theorem reads_readConstant (h : ∀ s, k = .text s → FitsRecord s) :
    Reads readConstant (encodeConstant k) (encodeConstant k).length k := by
  cases k with
  | nil => exact (reads_readByte 0).bind (reads_pure _) rfl rfl
  | absent =>
    exact (reads_readByte 4).bind (reads_readText_none.bind (reads_pure _)
      (append_nil _).symm rfl) rfl rfl
  | truth b =>
    cases b with
    | false =>
      exact (reads_readByte 1).bind ((reads_readByte 0).bind (reads_pure _) rfl rfl) rfl rfl
    | true =>
      exact (reads_readByte 1).bind ((reads_readByte 1).bind (reads_pure _) rfl rfl) rfl rfl
  | number x =>
    have hbits : Reads (pure (Constant.number ⟨(littleEndian (encodeDouble x)).toUInt64⟩)) [] 0
        (.number x) := by
      rw [littleEndian_encodeDouble]
      exact reads_pure _
    exact (reads_readByte 3).bind ((reads_countBytes 8).bind
      ((reads_takeExactly (encodeDouble x)).bind hbits (append_nil _).symm rfl) rfl rfl)
      rfl rfl
  | text s =>
    have htext := reads_readText (h s rfl)
    exact (reads_readByte 4).bind (htext.bind (reads_pure _) (append_nil _).symm rfl) rfl
      (add_comm _ 1)

theorem head?_of_readByte {b : UInt8} (h : Ends readByte r b r') : r.rest.head? = some b := by
  obtain ⟨_, r₁, hcount, hbyte⟩ := ends_bind.mp h
  obtain rfl := ends_modify.mp hcount
  obtain ⟨bytes, r₂, htake, hmatch⟩ := ends_bind.mp hbyte
  obtain ⟨hbytes, -⟩ := ends_takeBytes.mp htake
  cases hrest : r.rest with
  | nil =>
    simp only [hrest, take_nil] at hbytes
    rw [hbytes] at hmatch
    exact absurd hmatch not_ends_throw
  | cons c rest =>
    simp only [hrest, take_succ_cons, take_zero] at hbytes
    rw [hbytes] at hmatch
    rw [head?_cons, (ends_pure.mp hmatch).1]

theorem tag_of_readConstant (h : Ends readConstant r k r') :
    r.rest.head? = some k.tag ∧ ∀ s, k = .text s → FitsRecord s := by
  obtain ⟨tag, r₁, htag, hvalue⟩ := ends_bind.mp h
  rw [head?_of_readByte htag]
  split at hvalue
  · obtain ⟨rfl, -⟩ := ends_pure.mp hvalue
    exact ⟨rfl, by simp⟩
  · obtain ⟨b, r₂, -, htruth⟩ := ends_bind.mp hvalue
    split at htruth
    · obtain ⟨rfl, -⟩ := ends_pure.mp htruth
      exact ⟨rfl, by simp⟩
    · obtain ⟨rfl, -⟩ := ends_pure.mp htruth
      exact ⟨rfl, by simp⟩
    · exact absurd htruth not_ends_throw
  · obtain ⟨_, r₂, -, hnumber⟩ := ends_bind.mp hvalue
    obtain ⟨bytes, r₃, -, hpure⟩ := ends_bind.mp hnumber
    obtain ⟨rfl, -⟩ := ends_pure.mp hpure
    exact ⟨rfl, by simp⟩
  · obtain ⟨text, r₂, htext, hpure⟩ := ends_bind.mp hvalue
    cases text with
    | none =>
      obtain ⟨rfl, -⟩ := ends_pure.mp hpure
      exact ⟨rfl, by simp⟩
    | some s =>
      obtain ⟨rfl, -⟩ := ends_pure.mp hpure
      refine ⟨rfl, fun t ht => ?_⟩
      obtain rfl : s = t := Constant.text.inj ht
      exact fits_of_readText htext
  · exact absurd hvalue not_ends_throw

/-! ### Lists, code and parameters -/

theorem reads_repeated (h : ∀ x ∈ xs, ∃ count, Reads record (encoded x) count x) :
    ∃ count, Reads (repeated record xs.length) (xs.flatMap encoded) count xs := by
  induction xs with
  | nil => exact ⟨0, reads_pure []⟩
  | cons x xs ih =>
    rw [forall_mem_cons] at h
    obtain ⟨first, hfirst⟩ := h.1
    obtain ⟨others, hothers⟩ := ih h.2
    exact ⟨first + others, hfirst.bind (hothers.bind (reads_pure _) (append_nil _).symm rfl)
      flatMap_cons rfl⟩

theorem reads_readList (hlength : xs.length < 0x100000000)
    (h : ∀ x ∈ xs, ∃ count, Reads record (encoded x) count x) :
    ∃ count, Reads (readList record) (encodeList encoded xs) count xs := by
  obtain ⟨count, hcount⟩ := reads_repeated h
  exact ⟨4 + count, (reads_readWord hlength).bind hcount rfl rfl⟩

theorem reads_readList_nil (record : Disassembly α) : Reads (readList record) (encodeWord 0) 4 [] :=
  (@reads_readWord 0 (by decide)).bind (reads_pure []) (append_nil _).symm rfl

theorem reads_readCode {code : List Nat} (hlength : code.length < 0x100000000)
    (hwords : ∀ w ∈ code, w < 0x100000000) (hlast : code.getLast? = some plainReturn) :
    ∃ count, Reads readCode (encodeList encodeWord code) count code := by
  obtain ⟨count, hcount⟩ := reads_readList hlength fun w hw => ⟨4, reads_readWord (hwords w hw)⟩
  refine ⟨count, hcount.bind ?_ (append_nil _).symm (add_zero count).symm⟩
  rw [hlast]
  exact reads_pure code

theorem reads_readParameters {p : Parameters} (h : InRecords p) :
    Reads readParameters (encodeParameters p) 12 p := by
  obtain ⟨hfirst, hlast, hupvalues, hparameters, hvarArg, hregisters⟩ := h
  have hbyte : ∀ n < 256, littleEndian [n.toUInt8] = n := by
    intro n hn
    simp [littleEndian, Nat.mod_eq_of_lt hn]
  have hvalue : Reads (pure (Parameters.mk (littleEndian (encodeWord p.firstLine))
      (littleEndian (encodeWord p.lastLine)) (littleEndian [p.upvalues.toUInt8])
      (littleEndian [p.parameters.toUInt8]) (littleEndian [p.varArg.toUInt8])
      (littleEndian [p.registers.toUInt8]))) [] 0 p := by
    rw [littleEndian_encodeWord hfirst, littleEndian_encodeWord hlast, hbyte _ hupvalues,
      hbyte _ hparameters, hbyte _ hvarArg, hbyte _ hregisters]
    exact reads_pure p
  refine (reads_countBytes 12).bind ?_ rfl (add_zero 12).symm
  exact (reads_takeExactly (encodeParameters p)).bind hvalue (append_nil _).symm (add_zero 0).symm

end ApkWorkshop.Listing
