import ApkWorkshop.Listing.Literal
import ApkWorkshop.Proofs.Utf8
import ApkWorkshop.Proofs.Numeral

/-!
# Quoted Texts Are Literals

A listing shows a text constant in quotes, and the assembler reads the quotes back. Between the
quotes stand printable characters as they are, and escapes for all others; the quote that is in
use and the backslash are always escaped, so the first quote that is not behind a backslash ends
the text:

* `hexDigits?_hexPadded` — a padded hexadecimal number is read as that number;
* `quotedBody?_flatMap` — the characters between the quotes are read one by one, each from its own
  escape;
* `readLiteral_quotedChars` — a quoted text is a literal, and it stands for the text.
-/

namespace ApkWorkshop.Text

open List Nat

/-! ### Digits in any base -/

theorem exists_digits {b : Nat} (hb : 1 < b) (n : Nat) :
    ∃ ds : List Nat, Nat.toDigits b n = ds.map Nat.digitChar ∧ (∀ d ∈ ds, d < b) ∧
      ds.foldl (fun m d => b * m + d) 0 = n := by
  induction n using Nat.strong_induction_on with
  | _ n ih =>
    rw [toDigits_eq_if hb]
    by_cases h : n < b
    · exact ⟨[n], by simp [h], by simpa using h, by simp⟩
    · have hlt : n / b < n := div_lt_self (by omega) hb
      obtain ⟨ds, hds, hall, hvalue⟩ := ih (n / b) hlt
      refine ⟨ds ++ [n % b], ?_, ?_, ?_⟩
      · rw [if_neg h, hds]
        simp
      · intro d hd
        rcases mem_append.mp hd with hd | hd
        · exact hall d hd
        · rw [mem_singleton.mp hd]
          exact mod_lt n (by omega)
      · simp only [foldl_append, foldl_cons, foldl_nil, hvalue]
        exact div_add_mod n b

theorem exists_hexPadded_digits {width n : Nat} (hw : 0 < width) (h : n < 16 ^ width) :
    ∃ ds : List Nat, (hexPadded width n).toList = ds.map Nat.digitChar ∧ (∀ d ∈ ds, d < 16) ∧
      ds.length = width ∧ ds.foldl (fun m d => 16 * m + d) 0 = n := by
  obtain ⟨ds, hds, hall, hvalue⟩ := exists_digits (by decide : 1 < 16) n
  have hlen : ds.length ≤ width := by
    have := (length_toDigits_le_iff (b := 16) (by decide) hw).mpr h
    simpa [hds] using this
  refine ⟨List.replicate (width - ds.length) 0 ++ ds, ?_, ?_, ?_, ?_⟩
  · simp [hexPadded, padStart, hex, hds, show Nat.digitChar 0 = '0' from rfl]
  · intro d hd
    rcases mem_append.mp hd with hd | hd
    · rw [(mem_replicate.mp hd).2]
      decide
    · exact hall d hd
  · simp only [List.length_append, length_replicate]
    omega
  · have hzeros : ∀ k : Nat, (List.replicate k 0).foldl (fun m d => 16 * m + d) 0 = 0 := by
      intro k
      induction k with
      | zero => rfl
      | succ k ih => simpa [replicate_succ] using ih
    rw [foldl_append, hzeros, hvalue]

end ApkWorkshop.Text

namespace ApkWorkshop.Listing

open Text List

/-! ### Hexadecimal digits -/

theorem hexDigits?_map_digitChar {ds : List Nat} (h : ∀ d ∈ ds, d < 16) (n : Nat)
    (rest : List Char) :
    hexDigits? ds.length n (ds.map Nat.digitChar ++ rest) =
      some (ds.foldl (fun m d => 16 * m + d) n, rest) := by
  induction ds generalizing n with
  | nil => rfl
  | cons d ds ih =>
    have hd : hexValue? (Nat.digitChar d) = some d := by
      have hlt := h d (by simp)
      interval_cases d <;> rfl
    have hrest := ih (fun e he => h e (by simp [he])) (16 * n + d)
    simp [hexDigits?, hd, hrest]

theorem hexDigits?_hexPadded {width n : Nat} (hw : 0 < width) (h : n < 16 ^ width)
    (rest : List Char) :
    hexDigits? width 0 ((hexPadded width n).toList ++ rest) = some (n, rest) := by
  obtain ⟨ds, hds, hall, hlen, hvalue⟩ := exists_hexPadded_digits hw h
  have hread := hexDigits?_map_digitChar hall 0 rest
  rw [hlen, hvalue] at hread
  rw [hds, hread]

/-! ### Between the quotes -/

def IsQuote (c : Char) : Prop :=
  c = '\'' ∨ c = '"'

theorem isQuote_quoteFor (cs : List Char) : IsQuote (quoteFor cs) := by
  rw [quoteFor]
  split
  · exact Or.inr rfl
  · exact Or.inl rfl

theorem quotedChar_cases {q : Char} (hq : IsQuote q) (c : Char) :
    (∃ e, quotedChar q c = '\\' :: e ∧ ∀ rest, escape? (e ++ rest) = some (c.toNat, rest)) ∨
    (quotedChar q c = [c] ∧ c ≠ q ∧ c ≠ '\\') := by
  rw [quotedChar]
  by_cases h1 : c = q ∨ c = '\\'
  · left
    refine ⟨[c], by simp [h1], fun rest => ?_⟩
    rcases h1 with rfl | rfl
    · rcases hq with rfl | rfl <;> rfl
    · rfl
  rw [if_neg (by simpa using h1)]
  by_cases h2 : c = '\n'
  · exact Or.inl ⟨['n'], by simp [h2], fun rest => by rw [h2]; rfl⟩
  rw [if_neg h2]
  by_cases h3 : c = '\r'
  · exact Or.inl ⟨['r'], by simp [h3], fun rest => by rw [h3]; rfl⟩
  rw [if_neg h3]
  by_cases h4 : c = '\t'
  · exact Or.inl ⟨['t'], by simp [h4], fun rest => by rw [h4]; rfl⟩
  rw [if_neg h4]
  by_cases h5 : isPrintable c = true
  · rw [if_pos h5]
    exact Or.inr ⟨rfl, fun h => h1 (Or.inl h), fun h => h1 (Or.inr h)⟩
  rw [if_neg h5, codeEscape]
  have hlast : c.toNat < 0x110000 := by
    have := toNat_valid c
    omega
  left
  by_cases h6 : c.toNat < 0x100
  · refine ⟨'x' :: (hexPadded 2 c.toNat).toList, by rw [if_pos h6], fun rest => ?_⟩
    exact hexDigits?_hexPadded (by decide) h6 rest
  by_cases h7 : c.toNat < 0x10000
  · refine ⟨'u' :: (hexPadded 4 c.toNat).toList, by rw [if_neg h6, if_pos h7], fun rest => ?_⟩
    exact hexDigits?_hexPadded (by decide) h7 rest
  · refine ⟨'U' :: (hexPadded 8 c.toNat).toList, by rw [if_neg h6, if_neg h7], fun rest => ?_⟩
    have hread := @hexDigits?_hexPadded 8 c.toNat (by decide) (by omega) rest
    rw [cons_append, escape?, hread]
    simp [Option.filter, hlast]

/-- **Between the quotes**: written characters are read back one by one, and the quote behind them
ends the text. -/
theorem quotedBody?_flatMap {q : Char} (hq : IsQuote q) (cs after : List Char) {fuel : Nat}
    (hfuel : cs.length < fuel) :
    quotedBody? [q] fuel (cs.flatMap (quotedChar q) ++ q :: after) =
      some (cs.map Char.toNat, after) := by
  have hslash : ('\\' : Char) ≠ q := by rcases hq with rfl | rfl <;> decide
  induction cs generalizing fuel with
  | nil =>
    obtain ⟨fuel, rfl⟩ : ∃ k, fuel = k + 1 := ⟨fuel - 1, by simp at hfuel; omega⟩
    simp [quotedBody?]
  | cons c cs ih =>
    obtain ⟨fuel, rfl⟩ : ∃ k, fuel = k + 1 := ⟨fuel - 1, by simp at hfuel; omega⟩
    have hrest := @ih fuel (by simpa using hfuel)
    rw [flatMap_cons, append_assoc]
    rcases quotedChar_cases hq c with ⟨e, he, hescape⟩ | ⟨he, hcq, hcs⟩
    · rw [he, cons_append, quotedBody?]
      simp [hslash.symm, hescape, hrest]
    · rw [he, singleton_append, quotedBody?]
      simp [hcq.symm, hcs, hrest]

/-! ### Literals -/

theorem ofCodePoints_map_toNat (cs : List Char) :
    Scalar.ofCodePoints (cs.map Char.toNat) = .text cs := by
  have hnone : (cs.map Char.toNat).any isSurrogate = false := by
    rw [any_eq_false]
    intro n hn
    obtain ⟨c, -, rfl⟩ := mem_map.mp hn
    have := toNat_valid c
    simp only [isSurrogate, Bool.and_eq_true, decide_eq_true_eq]
    omega
  have hback : (cs.map Char.toNat).map Char.ofNat = cs := by
    rw [map_map]
    exact (map_congr_left fun c _ => Char.ofNat_toNat c).trans (map_id' cs)
  simp [Scalar.ofCodePoints, hnone, hback]

theorem quotesAt_flatMap {q : Char} (hq : IsQuote q) (cs : List Char) :
    quotesAt q (cs.flatMap (quotedChar q) ++ [q]) = [q] := by
  have hslash : ('\\' : Char) ≠ q := by rcases hq with rfl | rfl <;> decide
  cases cs with
  | nil => simp [quotesAt]
  | cons c cs =>
    rcases quotedChar_cases hq c with ⟨e, he, -⟩ | ⟨he, hcq, -⟩
    · simp [quotesAt, he, hslash.symm]
    · simp [quotesAt, he, hcq.symm]

theorem atom?_quotedChars (cs : List Char) :
    atom? (quotedChars cs) = some (.text cs, []) := by
  have hq := isQuote_quoteFor cs
  simp only [quotedChars]
  generalize quoteFor cs = q at hq
  have hlen : cs.length < (q :: (cs.flatMap (quotedChar q) ++ [q])).length + 1 := by
    have hone : ∀ c ∈ cs, 1 ≤ (quotedChar q c).length := by
      intro c _
      rcases quotedChar_cases hq c with ⟨e, he, -⟩ | ⟨he, -⟩ <;> simp [he]
    have hsum : cs.length ≤ (cs.flatMap (quotedChar q)).length := by
      rw [length_flatMap]
      calc cs.length = (cs.map fun _ => 1).sum := by simp
        _ ≤ (cs.map fun c => (quotedChar q c).length).sum :=
            sum_le_sum hone
    simp only [length_cons, length_append]
    omega
  have hbody := quotedBody?_flatMap hq cs [] hlen
  have hcond : (decide (q = '\'') || decide (q = '"')) = true := by
    rcases hq with rfl | rfl <;> rfl
  simp only [cons_append, atom?, hcond, if_true, quotesAt_flatMap hq, length_singleton,
    drop_succ_cons, drop_zero, hbody, Option.map_some, ofCodePoints_map_toNat]

/-- **A quoted text is a literal** that stands for the text. -/
theorem readLiteral_quotedChars (cs : List Char) :
    readLiteral (quotedChars cs) = .ok (.single (.text cs)) := by
  have hitem : item? ((quotedChars cs).length + 1) (quotedChars cs) = some (.text cs, []) := by
    have hatom := atom?_quotedChars cs
    have hq := isQuote_quoteFor cs
    rw [item?]
    simp only [quotedChars] at hatom ⊢
    generalize quoteFor cs = q at hatom hq
    rcases hq with rfl | rfl <;>
    · simp only [cons_append] at hatom ⊢
      simp [hatom, moreTexts?, skipSpaces]
  simp [readLiteral, parseLiteral?, hitem, Literal.hasName, Scalar.isName]

end ApkWorkshop.Listing
