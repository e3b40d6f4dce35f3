import ApkWorkshop.Proofs.RecordReading

/-!
# Records That Were Found

Words, bytes and numbers are taken whole or not at all, but a text record is taken as far as it goes: if
the file ends before the record does, and the last byte there is a zero byte, then what is left passes for
the text. That can happen only at the very end of the file. So what was read stands in the bytes as it is
encoded, with the rest behind it, or it takes all bytes and only the length of its last text is wrong:

* `Found` — the bytes are an encoding and the rest, or nothing is left and the last text is overrun;
* `Found.append` — records that were found one after the other were found together;
* `found_text` — a text record that was taken was found.
-/

namespace ApkWorkshop.Listing

open Bytecode List
open Text

variable {s : String} {exact bytes rest : List UInt8}

/-- The encoding of records, and the last of them if it is a text. -/
@[ext] structure Encoding where
  bytes : List UInt8
  lastText : Option String := none

/-- Records one after the other. Behind no records at all the last one stays the last. -/
instance : Append Encoding where
  append first second := {
    bytes := first.bytes ++ second.bytes
    lastText := if second.bytes = [] then first.lastText else second.lastText }

@[simp] theorem bytes_append (first second : Encoding) :
    (first ++ second).bytes = first.bytes ++ second.bytes := rfl

theorem lastText_append (first second : Encoding) : (first ++ second).lastText =
    if second.bytes = [] then first.lastText else second.lastText := rfl

/-- The bytes are an encoding that ends with the record of a text, apart from the length of this record,
which announces more bytes than there are. -/
def Overruns (s : String) (exact bytes : List UInt8) : Prop :=
  ∃ front n, exact = front ++ encodeText (some s) ∧
    bytes = front ++ (encodeWord n ++ (encode s ++ [0])) ∧
    (encode s).length + 1 < n ∧ n < 0x100000000

theorem Overruns.append_left (h : Overruns s exact bytes) (front : List UInt8) :
    Overruns s (front ++ exact) (front ++ bytes) := by
  obtain ⟨front', n, rfl, rfl, hlong, hn⟩ := h
  exact ⟨front ++ front', n, by rw [append_assoc], by rw [append_assoc], hlong, hn⟩

theorem Overruns.exact_ne_nil (h : Overruns s exact bytes) : exact ≠ [] := by
  obtain ⟨front, n, rfl, -⟩ := h
  simp [encodeText]

theorem Overruns.ne_nil (h : Overruns s exact bytes) : bytes ≠ [] := by
  obtain ⟨front, n, -, rfl, -⟩ := h
  simp

/-- The encoding stands in front of the rest, or nothing is left and the bytes overrun its last text. -/
def Found (exact : Encoding) (bytes rest : List UInt8) : Prop :=
  bytes = exact.bytes ++ rest ∨ rest = [] ∧ ∃ s ∈ exact.lastText, Overruns s exact.bytes bytes

/-- **One after the other.** A record that is overrun leaves nothing, so only an empty one is found
behind it. -/
theorem Found.append {first second : Encoding} {between : List UInt8}
    (h : Found first bytes between) (h' : Found second between rest) :
    Found (first ++ second) bytes rest := by
  rcases h with rfl | ⟨rfl, s, hs, hover⟩
  · rcases h' with rfl | ⟨rfl, s, hs, hover⟩
    · exact Or.inl (append_assoc ..).symm
    · refine Or.inr ⟨rfl, s, ?_, hover.append_left first.bytes⟩
      rwa [lastText_append, if_neg hover.exact_ne_nil]
  · rcases h' with hnil | ⟨-, s', -, hover'⟩
    · obtain ⟨hsecond, rfl⟩ := append_eq_nil_iff.mp hnil.symm
      refine Or.inr ⟨rfl, s, by rwa [lastText_append, if_pos hsecond], ?_⟩
      rwa [bytes_append, hsecond, append_nil]
    · exact absurd rfl hover'.ne_nil

/-! ### Numbers -/

theorem encodeWord_littleEndian (h : bytes.length = 4) :
    encodeWord (littleEndian bytes) = bytes := by
  obtain ⟨a, b, c, d, rfl⟩ := length_eq_four.mp h
  have ha := a.toNat_lt
  have hb := b.toNat_lt
  have hc := c.toNat_lt
  have hd := d.toNat_lt
  have hbyte : ∀ (n : Nat) (x : UInt8), n % 256 = x.toNat → n.toUInt8 = x := by
    intro n x hx
    rw [← UInt8.toNat_inj]
    exact UInt8.toNat_ofNat'.trans hx
  simp only [encodeWord, littleEndian, foldr_cons, foldr_nil, List.cons.injEq, and_true]
  refine ⟨hbyte _ _ ?_, hbyte _ _ ?_, hbyte _ _ ?_, hbyte _ _ ?_⟩ <;> omega

theorem littleEndian_lt_word (h : bytes.length = 4) : littleEndian bytes < 0x100000000 := by
  have := littleEndian_lt bytes
  rwa [h] at this

theorem encodeDouble_littleEndian (h : bytes.length = 8) :
    encodeDouble ⟨(littleEndian bytes).toUInt64⟩ = bytes := by
  have hlow : (bytes.take 4).length = 4 := by simp [h]
  have hhigh : (bytes.drop 4).length = 4 := by simp [h]
  have hsum : littleEndian bytes =
      littleEndian (bytes.take 4) + 0x100000000 * littleEndian (bytes.drop 4) := by
    conv_lhs => rw [← take_append_drop 4 bytes]
    rw [littleEndian_append, hlow, show 256 ^ 4 = 0x100000000 from rfl]
  have hlow' := littleEndian_lt_word hlow
  have hhigh' := littleEndian_lt_word hhigh
  have hbits : (littleEndian bytes).toUInt64.toNat = littleEndian bytes := by
    rw [UInt64.toNat_ofNat']
    omega
  rw [encodeDouble, hbits]
  have hmod : littleEndian bytes % 0x100000000 = littleEndian (bytes.take 4) := by omega
  have hdiv : littleEndian bytes / 0x100000000 = littleEndian (bytes.drop 4) := by omega
  rw [hmod, hdiv, encodeWord_littleEndian hlow, encodeWord_littleEndian hhigh, take_append_drop]

/-! ### Texts -/

theorem found_text {n : Nat} (hn : n < 0x100000000) (h : rest.take n = encode s ++ [0]) :
    Found ⟨encodeText (some s), some s⟩ (encodeWord n ++ rest) (rest.drop n) := by
  have hsplit : rest = encode s ++ [0] ++ rest.drop n := by
    rw [← h, take_append_drop]
  have hlength : (encode s).length + 1 = min n rest.length := by
    rw [← length_take, h, length_append, length_singleton]
  rcases Nat.lt_or_ge (min n rest.length) n with hshort | hlong
  · -- the file ended before the record did
    have hnone : rest.drop n = [] := drop_eq_nil_of_le (by omega)
    refine Or.inr ⟨hnone, s, rfl, [], n, rfl, ?_, by omega, hn⟩
    rw [hnone, append_nil] at hsplit
    rw [nil_append, ← hsplit]
  · have hexact : (encode s ++ [0]).length = n := by
      rw [length_append, length_singleton]
      omega
    refine Or.inl ?_
    rw [encodeText, hexact, append_assoc, ← hsplit]

end ApkWorkshop.Listing
