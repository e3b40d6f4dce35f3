import ApkWorkshop.Text.Numeral
import Mathlib.Tactic

/-!
# Numerals Read Back

A whole number is written in ASCII digits, most significant first, with a minus sign in front of a
negative one. The reader accepts more than that (digits of every script, underscores, blanks, a
plus sign), so this module shows what it does on the texts that the writer makes:

* `digitsValue_toDigits` — the digits of a number stand for that number, for the one fold that all
  readers of numerals share;
* `readInteger?_decimalInt` — a written whole number is read as itself.

Trimming and splitting look at single characters, so the lemmas about written numerals begin with
what their characters are: ASCII digits, and therefore digits of the reader, and never blank.
-/

namespace ApkWorkshop.Text

open List Nat

variable {c : Char} {cs : List Char} {z : Int}

/-! ### ASCII digits -/

theorem toNat_of_isDigit (h : c.isDigit = true) : 48 ≤ c.toNat ∧ c.toNat ≤ 57 := by
  simp only [Char.isDigit, ge_iff_le, Bool.and_eq_true, decide_eq_true_eq] at h
  obtain ⟨hlo, hhi⟩ := h
  have h48 : (48 : UInt32).toNat ≤ c.val.toNat := UInt32.le_iff_toNat_le.mp hlo
  have h57 : c.val.toNat ≤ (57 : UInt32).toNat := UInt32.le_iff_toNat_le.mp hhi
  exact ⟨h48, h57⟩

theorem digitValue?_of_isDigit (h : c.isDigit = true) : digitValue? c = some (c.toNat - 48) := by
  obtain ⟨hlo, hhi⟩ := toNat_of_isDigit h
  have h128 : c.toNat < 128 := by omega
  simp [digitValue?, h128, hlo, hhi]

theorem isDigit_of_isDigit (h : c.isDigit = true) : isDigit c = true := by
  rw [isDigit, digitValue?_of_isDigit h, Option.isSome_some]

theorem isBlank_of_isDigit (h : c.isDigit = true) : isBlank c = false := by
  obtain ⟨hlo, hhi⟩ := toNat_of_isDigit h
  simp only [isBlank, Bool.or_eq_false_iff, Bool.and_eq_false_iff, decide_eq_false_iff_not,
    beq_eq_false_iff_ne, ne_eq]
  omega

theorem ne_of_isDigit {d : Char} (h : c.isDigit = true) (hd : d.isDigit = false) : c ≠ d := by
  rintro rfl
  rw [h] at hd
  exact absurd hd (by simp)

theorem isDigit_of_mem_toDigits {n : Nat} (h : c ∈ toDigits 10 n) : c.isDigit = true :=
  Nat.isDigit_of_mem_toDigits (by decide) (by decide) h

theorem span_append {α : Type} {p : α → Bool} {xs rest : List α} (hxs : ∀ x ∈ xs, p x = true)
    (hrest : ∀ x ∈ rest.head?, p x = false) :
    (xs ++ rest).takeWhile p = xs ∧ (xs ++ rest).dropWhile p = rest := by
  rw [takeWhile_append_of_pos hxs, dropWhile_append_of_pos hxs]
  cases rest with
  | nil => simp
  | cons c rest => simp [hrest c (by simp)]

/-! ### The value of digits -/

/-- The number that ASCII digits spell, the most significant first. -/
def digitsValue (cs : List Char) : Nat :=
  cs.foldl (fun n c => 10 * n + (c.toNat - 48)) 0

theorem digitsValue_concat (cs : List Char) (c : Char) :
    digitsValue (cs ++ [c]) = 10 * digitsValue cs + (c.toNat - 48) := by
  simp [digitsValue, foldl_append]

theorem toNat_digitChar {d : Nat} (h : d < 10) : (digitChar d).toNat - 48 = d := by
  interval_cases d <;> rfl

@[simp] theorem digitsValue_toDigits (n : Nat) : digitsValue (toDigits 10 n) = n := by
  induction n using Nat.strong_induction_on with
  | _ n ih =>
    rw [toDigits_eq_if (by decide)]
    by_cases h : n < 10
    · rw [if_pos h]
      simpa [digitsValue] using toNat_digitChar h
    · rw [if_neg h, digitsValue_concat, ih (n / 10) (by omega),
        toNat_digitChar (mod_lt n (by decide))]
      omega

theorem groupedDigits?_of_isDigit {pending : Bool} {cs : List Char} (h : ∀ c ∈ cs, c.isDigit = true)
    (hne : pending = true ∨ cs ≠ []) :
    groupedDigits? pending cs = some (cs.map fun c => c.toNat - 48) := by
  induction cs generalizing pending with
  | nil =>
    obtain hp | hne := hne
    · simp [groupedDigits?, hp]
    · exact absurd rfl hne
  | cons c cs ih =>
    have hc : c.isDigit = true := h c (by simp)
    have hrest := @ih true (fun d hd => h d (by simp [hd])) (Or.inl rfl)
    have hne : c ≠ '_' := ne_of_isDigit hc (by decide)
    rw [groupedDigits?.eq_3 pending c cs hne, digitValue?_of_isDigit hc]
    simp [hrest]

theorem readNatural?_toDigits (n : Nat) : readNatural? (toDigits 10 n) = some n := by
  have hds := @groupedDigits?_of_isDigit false _
    (fun c (hc : c ∈ toDigits 10 n) => isDigit_of_mem_toDigits hc)
    (Or.inr toDigits_ne_nil)
  have hvalue : ofDigits ((toDigits 10 n).map fun c => c.toNat - 48) = n := by
    rw [ofDigits, foldl_map]
    exact digitsValue_toDigits n
  rw [readNatural?, hds, Option.map_some, hvalue]

/-! ### Trimming -/

theorem trimStart_eq_self (h : ∀ c ∈ cs.head?, isBlank c = false) : trimStart cs = cs := by
  cases cs with
  | nil => rfl
  | cons c cs => simp [trimStart, h c (by simp)]

theorem trimEnd_eq_self (h : ∀ c ∈ cs.getLast?, isBlank c = false) : trimEnd cs = cs := by
  have hrev : ∀ c ∈ cs.reverse.head?, isBlank c = false := by simpa using h
  have := trimStart_eq_self hrev
  rw [trimStart] at this
  rw [trimEnd, this, reverse_reverse]

theorem trim_eq_self (h : ∀ c ∈ cs, isBlank c = false) : trim cs = cs := by
  have hstart : trimStart cs = cs :=
    trimStart_eq_self fun c hc => h c (mem_of_mem_head? hc)
  rw [trim, hstart]
  exact trimEnd_eq_self fun c hc => h c (mem_of_mem_getLast? hc)

/-! ### Written numbers -/

@[simp] theorem toList_decimal (n : Nat) : (decimal n).toList = toDigits 10 n := by
  simp [decimal]

@[simp] theorem decimalInt_natCast (n : Nat) : decimalInt (n : Int) = decimal n := rfl

theorem toList_decimalInt (z : Int) :
    (decimalInt z).toList =
      if z < 0 then '-' :: toDigits 10 z.natAbs else toDigits 10 z.natAbs := by
  cases z with
  | ofNat n => simp [decimalInt]
  | negSucc n => simp [decimalInt, Int.negSucc_lt_zero]

theorem mem_decimalInt (h : c ∈ (decimalInt z).toList) : c = '-' ∨ c.isDigit = true := by
  rw [toList_decimalInt] at h
  split at h
  · rcases mem_cons.mp h with rfl | h
    · exact Or.inl rfl
    · exact Or.inr (isDigit_of_mem_toDigits h)
  · exact Or.inr (isDigit_of_mem_toDigits h)

theorem decimalInt_ne_nil (z : Int) : (decimalInt z).toList ≠ [] := by
  rw [toList_decimalInt]
  split
  · simp
  · exact toDigits_ne_nil

theorem isBlank_of_mem_decimalInt (h : c ∈ (decimalInt z).toList) : isBlank c = false := by
  rcases mem_decimalInt h with rfl | hc
  · decide
  · exact isBlank_of_isDigit hc

theorem toList_joinWith_cons {separator s : String} {ss : List String} (h : ss ≠ []) :
    (joinWith separator (s :: ss)).toList =
      s.toList ++ (separator.toList ++ (joinWith separator ss).toList) := by
  cases ss with
  | nil => exact absurd rfl h
  | cons t rest => simp [joinWith]

/-- **Round trip of whole numbers**: a written whole number is read as itself. -/
theorem readInteger?_decimalInt (z : Int) : readInteger? (decimalInt z).toList = some z := by
  have htrim : trim (decimalInt z).toList = (decimalInt z).toList :=
    trim_eq_self fun c hc => isBlank_of_mem_decimalInt hc
  have hread := readNatural?_toDigits z.natAbs
  rw [readInteger?, htrim, toList_decimalInt]
  by_cases hz : z < 0
  · rw [if_pos hz]
    simp [hread, abs_of_neg hz]
  · rw [if_neg hz]
    have hdigit : ∀ c ∈ toDigits 10 z.natAbs, c.isDigit = true :=
      fun c hc => isDigit_of_mem_toDigits hc
    split
    · rename_i rest heq
      exact absurd (hdigit '-' (by simp [heq])) (by decide)
    · rename_i rest heq
      exact absurd (hdigit '+' (by simp [heq])) (by decide)
    · simp [hread, abs_of_nonneg (not_lt.mp hz)]

end ApkWorkshop.Text
