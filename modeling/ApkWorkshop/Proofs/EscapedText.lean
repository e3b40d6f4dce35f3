import ApkWorkshop.Lua.Escape
import ApkWorkshop.Proofs.Utf8

/-!
# Escaped Texts Are Decoded

An escape takes as many digits as it finds, at most three, so where it ends depends on what stands
behind it. `Splits` says how a text is divided into escapes and other characters, one rule for each
kind of piece, and `pieces` divides it so (`splits_pieces`).
-/

namespace ApkWorkshop.Lua

open Text List

variable {c : Char} {cs rest ds s t : List Char} {n : Nat} {ps : List Piece} {bs : List UInt8}

/-! ### Division into pieces -/

/-- The digits of an escape, one to three and of any script, with the number that they write. -/
inductive Numeral : List Char → Nat → Prop
  | one {d₁ : Char} {a : Nat} (h₁ : digitValue? d₁ = some a) : Numeral [d₁] a
  | two {d₁ d₂ : Char} {a b : Nat} (h₁ : digitValue? d₁ = some a) (h₂ : digitValue? d₂ = some b) :
      Numeral [d₁, d₂] (10 * a + b)
  | three {d₁ d₂ d₃ : Char} {a b c : Nat} (h₁ : digitValue? d₁ = some a)
      (h₂ : digitValue? d₂ = some b) (h₃ : digitValue? d₃ = some c) :
      Numeral [d₁, d₂, d₃] (100 * a + 10 * b + c)

def NoDigitFirst (cs : List Char) : Prop :=
  ∀ d ∈ cs.head?, digitValue? d = none

theorem noDigitFirst_nil : NoDigitFirst [] := by simp [NoDigitFirst]

theorem noDigitFirst_cons : NoDigitFirst (c :: cs) ↔ digitValue? c = none := by
  simp [NoDigitFirst]

/-- How a text is divided: an escape ends behind its third digit or in front of something else, and
a backslash that begins no escape stands for itself. -/
inductive Splits : List Char → List Piece → Prop
  | nil : Splits [] []
  | plain {c : Char} {rest : List Char} {ps : List Piece} (hc : c = '\\' → NoDigitFirst rest)
      (h : Splits rest ps) : Splits (c :: rest) (.plain c :: ps)
  | escape {ds rest : List Char} {n : Nat} {ps : List Piece} (hds : Numeral ds n)
      (hend : ds.length = 3 ∨ NoDigitFirst rest) (h : Splits rest ps) :
      Splits ('\\' :: (ds ++ rest)) (.escape n :: ps)

theorem splits_pieces (cs : List Char) : Splits cs (pieces cs) := by
  fun_induction pieces cs with
  | case1 => exact .nil
  | case2 d₁ r₁ h₁ ih => exact .plain (fun _ => noDigitFirst_cons.mpr h₁) ih
  | case3 d₁ a h₁ => exact .escape (.one h₁) (.inr noDigitFirst_nil) .nil
  | case4 d₁ a h₁ d₂ r₂ h₂ ih => exact .escape (.one h₁) (.inr (noDigitFirst_cons.mpr h₂)) ih
  | case5 d₁ a h₁ d₂ b h₂ => exact .escape (.two h₁ h₂) (.inr noDigitFirst_nil) .nil
  | case6 d₁ a h₁ d₂ b h₂ d₃ r₃ h₃ ih =>
    exact .escape (.two h₁ h₂) (.inr (noDigitFirst_cons.mpr h₃)) ih
  | case7 d₁ a h₁ d₂ b h₂ d₃ r₃ c h₃ ih => exact .escape (.three h₁ h₂ h₃) (.inl rfl) ih
  | case8 c rest hc ih =>
    refine .plain (fun heq => ?_) ih
    cases rest with
    | nil => exact noDigitFirst_nil
    | cons d rest => exact (hc d rest heq rfl).elim

theorem pieces_plain (h : c = '\\' → NoDigitFirst rest) :
    pieces (c :: rest) = .plain c :: pieces rest := by
  by_cases hc : c = '\\'
  · subst hc
    cases rest with
    | nil => rfl
    | cons d rest => rw [pieces, noDigitFirst_cons.mp (h rfl)]
  · rw [pieces]
    exact fun d r heq => absurd heq hc

theorem pieces_escape (hds : Numeral ds n) (hend : ds.length = 3 ∨ NoDigitFirst rest) :
    pieces ('\\' :: (ds ++ rest)) = .escape n :: pieces rest := by
  cases hds with
  | one h₁ =>
    have hrest := hend.resolve_left (by simp)
    cases rest with
    | nil => simp [pieces, h₁]
    | cons d rest => simp [pieces, h₁, noDigitFirst_cons.mp hrest]
  | two h₁ h₂ =>
    have hrest := hend.resolve_left (by simp)
    cases rest with
    | nil => simp [pieces, h₁, h₂]
    | cons d rest => simp [pieces, h₁, h₂, noDigitFirst_cons.mp hrest]
  | three h₁ h₂ h₃ => simp [pieces, h₁, h₂, h₃]

/-! ### Bytes of pieces -/

@[simp] theorem encodeChars_nil : encodeChars [] = [] := rfl

@[simp] theorem encodeChars_cons (c : Char) (cs : List Char) :
    encodeChars (c :: cs) = encodeChar c ++ encodeChars cs :=
  flatMap_cons

@[simp] theorem encodeChars_append (cs ds : List Char) :
    encodeChars (cs ++ ds) = encodeChars cs ++ encodeChars ds :=
  flatMap_append

theorem encodeChar_ne_nil (c : Char) : encodeChar c ≠ [] := by
  rw [encodeChar]
  split_ifs <;> simp

theorem bytesOfPieces_cons_ok {p : Piece} :
    bytesOfPieces (p :: ps) = .ok bs ↔
      ∃ first rest, p.bytes = .ok first ∧ bytesOfPieces ps = .ok rest ∧ bs = first ++ rest := by
  rw [bytesOfPieces]
  cases p.bytes <;> cases bytesOfPieces ps <;>
    simp [bind, Except.bind, pure, Except.pure, eq_comm]

theorem bytesOfPieces_plain :
    bytesOfPieces (.plain c :: ps) = .ok bs ↔
      ∃ rest, bytesOfPieces ps = .ok rest ∧ bs = encodeChar c ++ rest := by
  rw [bytesOfPieces_cons_ok]
  simp [Piece.bytes]

theorem bytesOfPieces_escape :
    bytesOfPieces (.escape n :: ps) = .ok bs ↔
      n < 256 ∧ ∃ rest, bytesOfPieces ps = .ok rest ∧ bs = n.toUInt8 :: rest := by
  rw [bytesOfPieces_cons_ok, Piece.bytes]
  by_cases hn : n < 256 <;> simp [hn]

theorem decodeEscapes_eq_ok_iff :
    decodeEscapes cs = .ok ds ↔ bytesOfPieces (pieces cs) = .ok (encodeChars ds) := by
  rw [decodeEscapes, textOfPieces]
  cases bytesOfPieces (pieces cs) with
  | error fault => simp [bind, Except.bind]
  | ok bytes =>
    simp only [bind, Except.bind, Except.ok.injEq]
    constructor
    · intro h
      cases hchars : decodeChars bytes with
      | error fault => rw [hchars] at h; cases h
      | ok found =>
        rw [hchars] at h
        cases h
        exact (encodeChars_of_wholePieces hchars).symm
    · rintro rfl
      rw [decodeChars_encodeChars]

/-! ### Spellings -/

def WritesByte (b : UInt8) (cs : List Char) : Prop :=
  ∃ ds, cs = '\\' :: ds ∧ ds.length = 3 ∧ Numeral ds b.toNat

/-- The spellings of a text. Each character either stays or is written as escapes of three digits,
one for each of its bytes. -/
inductive Spells : List Char → List Char → Prop
  | nil : Spells [] []
  | kept {s t : List Char} (c : Char) (h : Spells s t) : Spells (c :: s) (c :: t)
  | escaped {s t : List Char} {c : Char} {written : List (List Char)}
      (hc : List.Forall₂ WritesByte (encodeChar c) written) (h : Spells s t) :
      Spells (c :: s) (written.flatten ++ t)

theorem spells_self (s : List Char) : Spells s s := by
  induction s with
  | nil => exact .nil
  | cons c s ih => exact .kept c ih

/-- The texts in which no backslash stands directly in front of a digit. -/
def Unnumbered (s : List Char) : Prop :=
  s.IsChain fun c d => c = '\\' → isDigit d = false

instance (s : List Char) : Decidable (Unnumbered s) :=
  inferInstanceAs (Decidable (s.IsChain fun c d => c = '\\' → isDigit d = false))

theorem unnumbered_cons : Unnumbered (c :: s) ↔ (c = '\\' → NoDigitFirst s) ∧ Unnumbered s := by
  have hdigit : ∀ d, isDigit d = false ↔ digitValue? d = none := fun d => by
    rw [isDigit, Option.isSome_eq_false_iff, Option.isNone_iff_eq_none]
  rw [Unnumbered, isChain_cons]
  simp only [hdigit, NoDigitFirst, Unnumbered]
  exact and_congr_left' ⟨fun h hc d hd => h d hd hc, fun h d hd hc => h hc d hd⟩

theorem Spells.noDigitFirst (h : Spells s t) (hs : NoDigitFirst s) : NoDigitFirst t := by
  cases h with
  | nil => exact noDigitFirst_nil
  | kept c h => exact noDigitFirst_cons.mpr (noDigitFirst_cons.mp hs)
  | @escaped s t c written hc h =>
    obtain ⟨b, bs, hbytes⟩ := exists_cons_of_ne_nil (encodeChar_ne_nil c)
    rw [hbytes] at hc
    cases hc with
    | cons hb hrest =>
      obtain ⟨ds, rfl, -, -⟩ := hb
      exact noDigitFirst_cons.mpr (by decide)

theorem bytesOfPieces_written {written : List (List Char)} (h : List.Forall₂ WritesByte bs written)
    {rest : List UInt8} (ht : bytesOfPieces (pieces t) = .ok rest) :
    bytesOfPieces (pieces (written.flatten ++ t)) = .ok (bs ++ rest) := by
  induction h with
  | nil => exact ht
  | cons hb hrest ih =>
    obtain ⟨ds, rfl, hlength, hds⟩ := hb
    rw [flatten_cons, append_assoc, cons_append, pieces_escape hds (.inl hlength)]
    exact bytesOfPieces_escape.mpr ⟨UInt8.toNat_lt _, _, ih, by
      rw [(toUInt8_eq_iff (UInt8.toNat_lt _)).mpr rfl]
      rfl⟩

/-- **A spelling has the bytes of its text** if no backslash of the text begins an escape. -/
theorem bytesOfPieces_of_spells (h : Spells s t) (hs : Unnumbered s) :
    bytesOfPieces (pieces t) = .ok (encodeChars s) := by
  induction h with
  | nil => rfl
  | @kept s t c h ih =>
    obtain ⟨hc, hs⟩ := unnumbered_cons.mp hs
    -- a backslash that stays cannot take digits from what follows it
    rw [pieces_plain fun heq => h.noDigitFirst (hc heq)]
    exact bytesOfPieces_plain.mpr ⟨_, ih hs, rfl⟩
  | escaped hc h ih =>
    exact bytesOfPieces_written hc (ih (unnumbered_cons.mp hs).2)

/-! ### Escapes of the text itself -/

theorem length_le_length_encodeChars (cs : List Char) : cs.length ≤ (encodeChars cs).length := by
  induction cs with
  | nil => exact Nat.le_refl 0
  | cons c cs ih =>
    have hc := length_pos_of_ne_nil (encodeChar_ne_nil c)
    rw [encodeChars_cons, length_append, length_cons]
    omega

theorem Numeral.length_pos (h : Numeral ds n) : 0 < ds.length := by
  cases h <;> simp

theorem length_of_splits (h : Splits cs ps) (hbs : bytesOfPieces ps = .ok bs) :
    bs.length ≤ (encodeChars cs).length ∧
      (bs.length = (encodeChars cs).length → Unnumbered cs) := by
  induction h generalizing bs with
  | nil =>
    cases hbs
    exact ⟨Nat.le_refl 0, fun _ => isChain_nil⟩
  | @plain c rest ps hc h ih =>
    obtain ⟨bs', hbs', rfl⟩ := bytesOfPieces_plain.mp hbs
    obtain ⟨hle, heq⟩ := ih hbs'
    rw [encodeChars_cons, length_append, length_append]
    refine ⟨by omega, fun hlength => unnumbered_cons.mpr ⟨hc, heq ?_⟩⟩
    omega
  | @escape ds rest n ps hds hend h ih =>
    obtain ⟨-, bs', hbs', rfl⟩ := bytesOfPieces_escape.mp hbs
    have hle := (ih hbs').1
    have hds := hds.length_pos
    have hdigits := length_le_length_encodeChars ds
    have hbackslash : (encodeChar '\\').length = 1 := rfl
    rw [encodeChars_cons, encodeChars_append, length_append, length_append, length_cons]
    exact ⟨by omega, fun hlength => by omega⟩

/-- **Decoding gives back a text from all its spellings** exactly if no backslash in the text stands
directly in front of a digit. -/
theorem decodes_spelled_iff (s : List Char) :
    (∀ t, Spells s t → decodeEscapes t = .ok s) ↔ Unnumbered s := by
  constructor
  · intro h
    have hself := decodeEscapes_eq_ok_iff.mp (h s (spells_self s))
    exact (length_of_splits (splits_pieces s) hself).2 rfl
  · intro hs t ht
    exact decodeEscapes_eq_ok_iff.mpr (bytesOfPieces_of_spells ht hs)

end ApkWorkshop.Lua
