import ApkWorkshop.Text.Utf8
import Mathlib.Tactic

/-!
# UTF-8 Decodes What It Encodes

The decoder looks at the first byte of a character to see how many bytes belong to it, and at the
second one to rule out overlong forms and surrogates. The bytes of an encoded character pass both
tests, so the decoder takes them as that character and goes on behind them.
-/

namespace ApkWorkshop.Text

open List

variable {n : Nat} {first second : UInt8} {cs : List Char} {bs : List UInt8}

/-! ### Bytes -/

theorem toNat_toUInt8 (h : n < 256) : n.toUInt8.toNat = n := by
  rw [Nat.toUInt8]
  exact Nat.mod_eq_of_lt h

theorem toNat_valid (c : Char) : c.toNat < 0xD800 ∨ 0xDFFF < c.toNat ∧ c.toNat < 0x110000 := by
  have h := c.valid
  simpa [UInt32.isValidChar, Nat.isValidChar] using h

theorem isContinuation_iff :
    isContinuation second = true ↔ 0x80 ≤ second.toNat ∧ second.toNat < 0xC0 := by
  simp [isContinuation]

theorem secondFits_iff : secondFits first second = true ↔
    (0x80 ≤ second.toNat ∧ second.toNat < 0xC0) ∧ (first.toNat = 0xE0 → 0xA0 ≤ second.toNat) ∧
      (first.toNat = 0xED → second.toNat < 0xA0) ∧ (first.toNat = 0xF0 → 0x90 ≤ second.toNat) ∧
      (first.toNat = 0xF4 → second.toNat < 0x90) := by
  have hbyte : ∀ n : UInt8, first = n ↔ first.toNat = n.toNat := fun n => UInt8.toNat_inj.symm
  simp only [secondFits, hbyte]
  split_ifs <;> simp_all [isContinuation] <;> omega

theorem isContinuation_toUInt8 (h : n < 0x40) : isContinuation (0x80 + n).toUInt8 = true := by
  rw [isContinuation_iff, toNat_toUInt8 (by omega)]
  omega

/-! ### Characters -/

/-- **One character**: its bytes are decoded as the character, and decoding goes on behind
them. -/
theorem piecesFrom_encodeChar_append (pos : Nat) (c : Char) (rest : List UInt8) :
    ∃ next, piecesFrom pos (encodeChar c ++ rest) = .char c :: piecesFrom next rest := by
  have hvalid := toNat_valid c
  have hback : Char.ofNat c.toNat = c := Char.ofNat_toNat c
  generalize hn : c.toNat = n at hvalid hback
  rw [encodeChar, hn]
  split_ifs
  · refine ⟨pos + 1, ?_⟩
    rw [singleton_append, piecesFrom.eq_def]
    simp (disch := omega) only [toNat_toUInt8, if_pos, hback]
  -- two, three or four bytes: each of the tests is about numbers below 256
  on_goal 1 => refine ⟨pos + 2, ?_⟩
  on_goal 2 => refine ⟨pos + 3, ?_⟩
  on_goal 3 => refine ⟨pos + 4, ?_⟩
  all_goals
    rw [piecesFrom.eq_def]
    simp only [nil_append, cons_append]
    rw [secondFits_iff.mpr (by simp (disch := omega) only [toNat_toUInt8]; omega)]
    simp (disch := omega) only [toNat_toUInt8, isContinuation_toUInt8, Bool.or_eq_true,
      decide_eq_true_eq, Bool.not_true, Bool.false_eq_true, if_neg, if_pos, if_false]
    rw [show Char.ofNat _ = c from hback ▸ congrArg Char.ofNat (by omega)]

/-! ### Texts -/

theorem wholePieces_encodeChars (pos : Nat) (cs : List Char) :
    wholePieces (piecesFrom pos (encodeChars cs)) = .ok cs := by
  induction cs generalizing pos with
  | nil => simp [encodeChars, piecesFrom, wholePieces]
  | cons c cs ih =>
    obtain ⟨next, hnext⟩ := piecesFrom_encodeChar_append pos c (encodeChars cs)
    have hcons : encodeChars (c :: cs) = encodeChar c ++ encodeChars cs := by
      simp [encodeChars]
    rw [hcons, hnext, wholePieces, ih]
    rfl

@[simp] theorem decodeChars_encodeChars (cs : List Char) : decodeChars (encodeChars cs) = .ok cs :=
  wholePieces_encodeChars 0 cs

@[simp] theorem decode_encode (s : String) : decode (encode s) = .ok s := by
  rw [decode, encode]
  simp [Except.map]

/-! ### From bytes to texts and back -/

theorem toNat_ofNat_of_valid (h : n < 0xD800 ∨ 0xDFFF < n ∧ n < 0x110000) :
    (Char.ofNat n).toNat = n := by
  have hvalid : n.isValidChar := h
  rw [Char.ofNat, dif_pos hvalid]
  rfl

theorem toUInt8_eq_iff {b : UInt8} (h : n < 256) : n.toUInt8 = b ↔ n = b.toNat := by
  rw [← UInt8.toNat_inj, toNat_toUInt8 h]

theorem cons_of_wholePieces {c : Char} {ps : List Utf8Piece}
    (h : wholePieces (.char c :: ps) = .ok cs) : ∃ ds, cs = c :: ds ∧ wholePieces ps = .ok ds := by
  rw [wholePieces] at h
  cases hp : wholePieces ps with
  | error fault => rw [hp] at h; cases h
  | ok ds => rw [hp] at h; cases h; exact ⟨ds, rfl, rfl⟩

theorem encodeChars_of_wholePieces {pos : Nat} (h : wholePieces (piecesFrom pos bs) = .ok cs) :
    encodeChars cs = bs := by
  have hcons : ∀ c ds, encodeChars (c :: ds) = encodeChar c ++ encodeChars ds := by
    simp [encodeChars]
  fun_induction piecesFrom pos bs generalizing cs
  case case1 => cases h; rfl
  case case2 pos b r n hn ih =>
    obtain ⟨ds, rfl, hds⟩ := cons_of_wholePieces h
    rw [hcons, ih hds, encodeChar, toNat_ofNat_of_valid (by omega), if_pos hn, singleton_append,
      (toUInt8_eq_iff b.toNat_lt).mpr rfl]
  case case3 | case4 | case5 | case7 | case8 | case10 | case11 => cases h
  -- a sequence of two, three or four bytes: the tests that it passed bound each of its bytes
  all_goals
    rename_i ih
    obtain ⟨ds, rfl, hds⟩ := cons_of_wholePieces h
    simp only [Bool.or_eq_true, decide_eq_true_eq, not_or, Bool.not_eq_true', Bool.not_eq_false,
      secondFits_iff, isContinuation_iff] at *
    rw [hcons, ih hds, encodeChar, toNat_ofNat_of_valid (by omega)]
    split_ifs <;> first
    | omega
    | simp (disch := omega) only [cons_append, nil_append, cons.injEq, and_true, toUInt8_eq_iff]
      omega

/-- **Encoding inverts decoding**: bytes that stand for a text are the bytes of this text. -/
theorem encode_of_decode {s : String} (h : decode bs = .ok s) : encode s = bs := by
  rw [decode] at h
  cases hcs : decodeChars bs with
  | error fault => rw [hcs] at h; cases h
  | ok cs =>
    rw [hcs] at h
    cases h
    rw [encode, String.toList_ofList]
    exact encodeChars_of_wholePieces hcs

theorem unifyNewlines_of_not_mem (h : '\r' ∉ cs) : unifyNewlines cs = cs := by
  induction cs with
  | nil => rfl
  | cons c cs ih =>
    simp only [mem_cons, not_or] at h
    rw [unifyNewlines.eq_4 _ _ (by simp [Ne.symm h.1]) (by simp [Ne.symm h.1]), ih h.2]

end ApkWorkshop.Text
