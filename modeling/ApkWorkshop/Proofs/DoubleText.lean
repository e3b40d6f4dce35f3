import ApkWorkshop.Proofs.DoubleRounding
import ApkWorkshop.Proofs.Numeral

/-!
# The Text of a Double

The text of a finite double is a sign, digits, perhaps a point with digits behind it, and perhaps an
exponent. All readers of numbers take such a text apart in the same way, so what is shown here is a
statement about the parts.
-/

namespace ApkWorkshop.Double

open Text List Option Nat

variable {negative : Bool} {m u n : Nat} {x : Double} {ds : List Char} {e : Int}

/-! ### Bits and units -/

theorem magnitudeBits_le (units : Nat) : magnitudeBits units ≤ 2047 * hiddenBit := by
  have hh : hiddenBit = 2 ^ 52 := by decide +kernel
  rw [magnitudeBits]
  split
  · omega
  simp only [Nat.pow_eq]
  split
  · exact le_refl _
  -- the significand has 53 bits, so the fraction stays below the hidden bit
  have hlt : units < 2 ^ (53 + (units.log2 - 52)) :=
    Nat.lt_log2_self.trans_le (Nat.pow_le_pow_right (by decide) (by omega))
  have hdiv : units / 2 ^ (units.log2 - 52) < 2 ^ 53 := by
    rw [div_lt_iff_lt_mul (by positivity), ← pow_add]
    exact hlt
  rw [hh] at *
  omega

theorem ofMagnitude_injective (hm : m ≤ 2047 * hiddenBit) (hn : n ≤ 2047 * hiddenBit)
    (h : ofMagnitude negative m = ofMagnitude negative n) : m = n := by
  have hbits := congrArg (fun x : Double => x.bits.toNat) h
  simp only [ofMagnitude, toUInt64, UInt64.toNat_ofNat'] at hbits
  simp only [hiddenBit, signBit] at *
  split at hbits <;> omega

theorem value_ofMagnitude_ne (hm : m ≤ 2047 * hiddenBit) :
    (ofMagnitude negative m).value ≠ .notANumber := by
  have hbits : (ofMagnitude negative m).bits.toNat = (if negative then 2 ^ 63 else 0) + m := by
    simp only [ofMagnitude, toUInt64, UInt64.toNat_ofNat', signBit]
    simp only [hiddenBit] at hm
    split <;> omega
  have hfraction : (ofMagnitude negative m).bits.toNat / hiddenBit % 2048 = 2047 →
      (ofMagnitude negative m).bits.toNat % hiddenBit = 0 := by
    rw [hbits]
    rw [show hiddenBit = 2 ^ 52 from rfl] at *
    split <;> omega
  rw [value]
  split
  · rename_i hexp
    rw [if_pos (hfraction hexp)]
    simp
  · split <;> simp

theorem eq_infinity_of_value (h : x.value = .infinite negative) : x = infinity negative := by
  have hlt : x.bits.toNat < 2 ^ 64 := x.bits.toNat_lt
  obtain ⟨bits⟩ := x
  rw [value] at h
  rw [show hiddenBit = 2 ^ 52 from rfl] at h
  simp only [infinity, ofMagnitude, Double.mk.injEq]
  apply UInt64.toNat_inj.mp
  split at h
  · rename_i hexp
    split at h
    · rename_i hfraction
      obtain rfl : decide (signBit ≤ bits.toNat) = negative := by simpa using h
      simp only [toUInt64, UInt64.toNat_ofNat', decide_eq_true_eq]
      rw [show hiddenBit = 2 ^ 52 from rfl, show signBit = 2 ^ 63 from rfl]
      simp only at hexp hfraction hlt
      split <;> omega
    · cases h
  · split at h <;> cases h

theorem neg_ofMagnitude (hm : m ≤ 2047 * hiddenBit) :
    (ofMagnitude false m).neg = ofMagnitude true m := by
  have hlt : m < 2 ^ 63 := by simp only [hiddenBit] at hm; omega
  rw [neg]
  split
  · rename_i h
    exact absurd h (value_ofMagnitude_ne hm)
  · simp only [ofMagnitude, Double.mk.injEq, if_true]
    apply UInt64.toNat_inj.mp
    have hxor : m ^^^ 2 ^ 63 = 2 ^ 63 + m := by
      apply eq_of_testBit_eq
      intro i
      rw [testBit_xor, testBit_two_pow]
      rcases lt_trichotomy i 63 with hi | rfl | hi
      · rw [testBit_two_pow_add_gt hi]
        simp [show ¬ 63 = i by omega]
      · rw [testBit_two_pow_add_eq]
        simp
      · rw [Nat.testBit_lt_two_pow (hlt.trans (Nat.pow_lt_pow_right (by decide) hi)),
          Nat.testBit_lt_two_pow]
        · simp [show ¬ 63 = i by omega]
        · calc 2 ^ 63 + m < 2 ^ 64 := by omega
            _ ≤ 2 ^ i := Nat.pow_le_pow_right (by decide) hi
    simp only [Bool.false_eq_true, if_false, zero_add, UInt64.toNat_xor]
    have h1 : m.toUInt64.toNat = m := by
      simp [toUInt64]; omega
    have h2 : (signBit + m).toUInt64.toNat = 2 ^ 63 + m := by
      simp [toUInt64, signBit]; omega
    rw [h1, h2, ← hxor]
    rfl

theorem fields_of_value (h : x.value = .finite negative u) :
    ∃ e f, e < 2047 ∧ f < 2 ^ 52 ∧
      x.bits.toNat = (if negative then signBit else 0) + (e * 2 ^ 52 + f) ∧
      u = if e = 0 then f else (2 ^ 52 + f) * 2 ^ (e - 1) := by
  have hlt : x.bits.toNat < 2 ^ 64 := x.bits.toNat_lt
  rw [value] at h
  rw [show hiddenBit = 2 ^ 52 from rfl] at h
  generalize x.bits.toNat = n at h hlt
  have hsign : n = (if signBit ≤ n then signBit else 0) +
      (n / 2 ^ 52 % 2048 * 2 ^ 52 + n % 2 ^ 52) := by
    rw [show signBit = 2 ^ 63 from rfl]
    split <;> omega
  refine ⟨n / 2 ^ 52 % 2048, n % 2 ^ 52, ?_, mod_lt _ (by decide), ?_⟩
  · by_contra hbig
    rw [if_pos (by omega)] at h
    split at h <;> cases h
  by_cases hinf : n / 2 ^ 52 % 2048 = 2047
  · rw [if_pos hinf] at h
    split at h <;> cases h
  rw [if_neg hinf] at h
  split at h <;> rename_i hexp <;> cases h
  · exact ⟨by simpa using hsign, by rw [if_pos hexp]⟩
  · exact ⟨by simpa using hsign, by rw [if_neg hexp]; rfl⟩

theorem isDouble_of_value (h : x.value = .finite negative u) : IsDouble u := by
  obtain ⟨e, f, he, hf, -, rfl⟩ := fields_of_value h
  split
  · exact ⟨f, 0, by omega, by omega, Or.inl rfl, by simp⟩
  · exact ⟨2 ^ 52 + f, e - 1, by omega, by omega, Or.inr (by omega), rfl⟩

theorem magnitudeBits_of_significand {k : Nat} (hm : m < 2 ^ 53) (hlead : 2 ^ 52 ≤ m)
    (hk : k ≤ 2045) : magnitudeBits (m * 2 ^ k) = (k + 1) * hiddenBit + (m - hiddenBit) := by
  have hh : hiddenBit = 2 ^ 52 := by decide +kernel
  have hpow : 0 < 2 ^ k := by positivity
  have hle : m ≤ m * 2 ^ k := Nat.le_mul_of_pos_right m hpow
  have hlog : (m * 2 ^ k).log2 = 52 + k := by
    rw [log2_eq_iff (by omega), pow_add, show 52 + k + 1 = 53 + k by omega, pow_add 2 53]
    exact ⟨mul_le_mul_right _ hlead, mul_lt_mul_of_pos_right hm hpow⟩
  rw [magnitudeBits, if_neg (by omega), hlog]
  simp only [Nat.pow_eq, Nat.add_sub_cancel_left]
  rw [if_neg (by omega), Nat.mul_div_cancel _ hpow]

/-- **Bits from units**: sign and units of a finite double give back its bits. -/
theorem ofMagnitude_magnitudeBits (h : x.value = .finite negative u) :
    ofMagnitude negative (magnitudeBits u) = x := by
  obtain ⟨e, f, he, hf, hbits, rfl⟩ := fields_of_value h
  have hfields : magnitudeBits (if e = 0 then f else (2 ^ 52 + f) * 2 ^ (e - 1)) =
      e * 2 ^ 52 + f := by
    have hh : hiddenBit = 2 ^ 52 := rfl
    split
    · rename_i h0
      rw [magnitudeBits, if_pos (by omega), h0]
      simp
    · rw [magnitudeBits_of_significand (by omega) (by omega) (by omega), hh]
      omega
  rw [hfields, ofMagnitude, ← hbits]
  simp [toUInt64]

/-! ### Decimals -/

theorem exists_ofDecimal_eq (n : Nat) (e : Int) :
    ∃ m ≤ 2047 * hiddenBit, ∀ negative, ofDecimal negative n e = ofMagnitude negative m := by
  simp only [ofDecimal]
  split
  · exact ⟨0, zero_le _, fun _ => rfl⟩
  split
  · exact ⟨_, le_refl _, fun _ => rfl⟩
  split
  · exact ⟨0, zero_le _, fun _ => rfl⟩
  split
  · exact ⟨_, magnitudeBits_le _, fun _ => rfl⟩
  · exact ⟨_, magnitudeBits_le _, fun _ => rfl⟩

theorem neg_ofDecimal (n : Nat) (e : Int) : (ofDecimal false n e).neg = ofDecimal true n e := by
  obtain ⟨m, hm, h⟩ := exists_ofDecimal_eq n e
  rw [h, h, neg_ofMagnitude hm]

theorem length_toDigits_mul_pow (hn : 0 < n) (z : Nat) :
    (toDigits 10 (n * 10 ^ z)).length = (toDigits 10 n).length + z := by
  induction z with
  | zero => simp
  | succ z ih =>
    have hpos : 0 < n * 10 ^ z := by positivity
    have hdiv : n * 10 ^ (z + 1) / 10 = n * 10 ^ z := by
      rw [Nat.pow_succ, ← Nat.mul_assoc, Nat.mul_div_cancel _ (by decide)]
    rw [toDigits_eq_if (by decide), if_neg, hdiv, length_append, ih]
    · simp [add_assoc]
    · rw [Nat.pow_succ, ← Nat.mul_assoc]
      omega

/-- **Moving zeros**: a decimal stays the same double when zeros at the end of its digits are taken
into the exponent. -/
theorem ofDecimal_mul_pow (negative : Bool) (n z : Nat) (e : Int) :
    ofDecimal negative (n * 10 ^ z) e = ofDecimal negative n (e + z) := by
  rcases Nat.eq_zero_or_pos n with rfl | hn
  · simp [ofDecimal]
  have hpos : 0 < n * 10 ^ z := by positivity
  have hlen : e + ((toDigits 10 (n * 10 ^ z)).length : Nat) = e + z + (toDigits 10 n).length := by
    rw [length_toDigits_mul_pow hn]
    push_cast
    ring
  by_cases hhigh : 400 < e + z + (toDigits 10 n).length
  · simp only [ofDecimal, hlen, if_neg hn.ne', if_neg hpos.ne', if_pos hhigh]
  by_cases hlow : e + z + (toDigits 10 n).length < -400
  · simp only [ofDecimal, hlen, if_neg hn.ne', if_neg hpos.ne', if_neg hhigh, if_pos hlow]
  rw [ofDecimal_eq_ofUnits hpos (by omega) (by omega),
    ofDecimal_eq_ofUnits hn (by omega) (by omega)]
  have hadd := powerOfTen_add e z
  generalize one = o
  refine congrArg (fun r => ofMagnitude negative (magnitudeBits r)) ?_
  -- both fractions are the same after multiplying by the denominator of the other
  calc roundUnits (n * 10 ^ z * (powerOfTen e).1 * o) (powerOfTen e).2
      = roundUnits (n * 10 ^ z * (powerOfTen e).1 * o * (powerOfTen (e + z)).2)
          ((powerOfTen e).2 * (powerOfTen (e + z)).2) :=
        (roundUnits_mul_right (powerOfTen_pos _).2 _ _).symm
    _ = roundUnits (n * (powerOfTen (e + z)).1 * o * (powerOfTen e).2)
          ((powerOfTen (e + z)).2 * (powerOfTen e).2) := by
        congr 1
        · calc n * 10 ^ z * (powerOfTen e).1 * o * (powerOfTen (e + z)).2
              = n * (10 ^ z * (powerOfTen e).1 * (powerOfTen (e + z)).2) * o := by ring
            _ = n * ((powerOfTen (e + z)).1 * (powerOfTen e).2) * o := by rw [hadd]
            _ = n * (powerOfTen (e + z)).1 * o * (powerOfTen e).2 := by ring
        · exact mul_comm _ _
    _ = roundUnits (n * (powerOfTen (e + z)).1 * o) (powerOfTen (e + z)).2 :=
        roundUnits_mul_right (powerOfTen_pos _).2 _ _

theorem ofDecimal_shortest_of_value (h : x.value = .finite negative u) (hpos : 0 < u) :
    ofDecimal negative (shortest u).digits (shortest u).exponent = x := by
  have hu := isDouble_of_value h
  obtain ⟨m, hm, hsign⟩ := exists_ofDecimal_eq (shortest u).digits (shortest u).exponent
  have hread := ofDecimal_shortest hu hpos
  rw [hsign, ofUnits, roundUnits_self hu hpos] at hread
  rw [hsign, ofMagnitude_injective hm (magnitudeBits_le u) hread, ofMagnitude_magnitudeBits h]

theorem shortest_digits_pos (hu : IsDouble u) (hpos : 0 < u) : 0 < (shortest u).digits := by
  by_contra hzero
  have hread := ofDecimal_shortest hu hpos
  rw [show (shortest u).digits = 0 by omega, ofUnits, roundUnits_self hu hpos] at hread
  have hbits : 0 = magnitudeBits u :=
    @ofMagnitude_injective false _ _ (zero_le _) (magnitudeBits_le u)
      (by simpa [ofDecimal] using hread)
  rw [magnitudeBits, show hiddenBit = 2 ^ 52 from rfl] at hbits
  split at hbits
  · omega
  simp only at hbits
  split at hbits <;> omega

/-! ### The digits that are kept -/

theorem digitsValue_append (xs ys : List Char) :
    digitsValue (xs ++ ys) = digitsValue xs * 10 ^ ys.length + digitsValue ys := by
  induction ys using reverseRecOn with
  | nil => simp [digitsValue]
  | append_singleton ys y ih =>
    rw [← append_assoc, digitsValue_concat, digitsValue_concat, ih, length_append,
      length_singleton]
    ring

@[simp] theorem digitsValue_replicate_zero (z : Nat) : digitsValue (replicate z '0') = 0 := by
  induction z with
  | zero => rfl
  | succ z ih => rw [replicate_succ', digitsValue_concat, ih]; rfl

theorem head?_toDigits_ne (hn : 0 < n) : (toDigits 10 n).head? ≠ some '0' := by
  induction n using Nat.strong_induction_on with
  | _ n ih =>
    rw [toDigits_eq_if (by decide)]
    by_cases h : n < 10
    · rw [if_pos h]
      interval_cases n <;> decide
    · rw [if_neg h, head?_append_of_ne_nil _ toDigits_ne_nil]
      exact ih (n / 10) (by omega) (by omega)

theorem exists_scientific {d : Decimal} (hpos : 0 < d.digits) :
    ∃ ds, ∃ z : Nat, d.scientific = (ds, d.exponent + z + ds.length - 1) ∧ ds ≠ [] ∧
      (∀ c ∈ ds, c.isDigit = true) ∧ ds.head? ≠ some '0' ∧ digitsValue ds * 10 ^ z = d.digits := by
  have hdigit : ∀ c ∈ toDigits 10 d.digits, c.isDigit = true :=
    fun c hc => isDigit_of_mem_toDigits hc
  have hvalue := digitsValue_toDigits d.digits
  have hhead := head?_toDigits_ne hpos
  have hne : toDigits 10 d.digits ≠ [] := toDigits_ne_nil
  rw [Decimal.scientific]
  generalize toDigits 10 d.digits = all at *
  -- split off the run of zeros at the end
  have hzeros : (all.reverse.takeWhile (· == '0')).reverse =
      replicate (all.reverse.takeWhile (· == '0')).length '0' := by
    rw [eq_replicate_iff]
    refine ⟨by simp, fun c hc => ?_⟩
    exact beq_iff_eq.mp (all_eq_true.mp all_takeWhile c (mem_reverse.mp hc))
  have hsplit : all = (all.reverse.dropWhile (· == '0')).reverse ++
      replicate (all.reverse.takeWhile (· == '0')).length '0' := by
    rw [← hzeros, ← reverse_append, takeWhile_append_dropWhile, reverse_reverse]
  generalize (all.reverse.dropWhile (· == '0')).reverse = ds at *
  generalize (all.reverse.takeWhile (· == '0')).length = z at *
  have hds : ds ≠ [] := by
    rintro rfl
    cases z with
    | zero => exact hne hsplit
    | succ z => exact hhead (by rw [hsplit]; rfl)
  refine ⟨ds, z, ?_, hds, fun c hc => hdigit c (by rw [hsplit]; simp [hc]), ?_, ?_⟩
  · rw [hsplit]
    simp only [length_append, length_replicate, Prod.mk.injEq, true_and]
    push_cast
    ring
  · rwa [hsplit, head?_append_of_ne_nil _ hds] at hhead
  · rw [hsplit, digitsValue_append] at hvalue
    simpa using hvalue

/-! ### The parts of a written number -/

/-- The parts of a written number without sign: the digits before the point, those behind it, and
the exponent. There is a point only if digits stand behind it, and a number with neither point nor
exponent is not written. -/
structure Parts where
  whole : List Char
  fraction : List Char
  exponent : Option Int
  whole_ne_nil : whole ≠ []
  isDigit_whole : ∀ c ∈ whole, c.isDigit = true
  /-- Only zero begins with a zero. -/
  whole_lead : whole = ['0'] ∨ whole.head? ≠ some '0'
  isDigit_fraction : ∀ c ∈ fraction, c.isDigit = true
  pointed_or_scaled : fraction ≠ [] ∨ exponent.isSome

/-- A written exponent: a letter, a sign and at least two digits. -/
def exponentChars : Option Int → List Char
  | none => []
  | some e => 'e' :: (if e < 0 then '-' else '+') :: (padStart 2 '0' (decimal e.natAbs)).toList

theorem exponent_digits (n : Nat) :
    (padStart 2 '0' (decimal n)).toList ≠ [] ∧
      (∀ c ∈ (padStart 2 '0' (decimal n)).toList, c.isDigit = true) ∧
      digitsValue (padStart 2 '0' (decimal n)).toList = n := by
  simp only [padStart, String.toList_append, String.toList_ofList, toList_decimal]
  refine ⟨by simp [toDigits_ne_nil], fun c hc => ?_, ?_⟩
  · rcases mem_append.mp hc with hc | hc
    · rw [eq_of_mem_replicate hc]; rfl
    · exact isDigit_of_mem_toDigits hc
  · rw [digitsValue_append, digitsValue_replicate_zero, digitsValue_toDigits]
    omega

def Parts.chars (p : Parts) : List Char :=
  p.whole ++ ((if p.fraction = [] then [] else '.' :: p.fraction) ++ exponentChars p.exponent)

theorem mem_chars {p : Parts} {c : Char} (hc : c ∈ p.chars) :
    c.isDigit = true ∨ c ∈ ['.', 'e', '+', '-'] := by
  rcases mem_append.mp hc with hc | hc
  · exact Or.inl (p.isDigit_whole c hc)
  rcases mem_append.mp hc with hc | hc
  · split at hc
    · simp at hc
    · rcases mem_cons.mp hc with rfl | hc
      · simp
      · exact Or.inl (p.isDigit_fraction c hc)
  cases he : p.exponent with
  | none => simp [he, exponentChars] at hc
  | some e =>
    simp only [he, exponentChars, mem_cons] at hc
    rcases hc with rfl | hc | hc
    · simp
    · right
      split at hc <;> simp [hc]
    · exact Or.inl ((exponent_digits e.natAbs).2.1 c hc)

def EndsNumber (rest : List Char) : Prop :=
  ∀ c ∈ rest.head?, c.isDigit = false ∧ c ≠ '.' ∧ c ≠ 'e' ∧ c ≠ 'E'

theorem head?_exponentChars_append {e : Option Int} {rest : List Char} (h : EndsNumber rest) :
    ∀ c ∈ (exponentChars e ++ rest).head?, c.isDigit = false ∧ c ≠ '.' := by
  cases e with
  | none => exact fun c hc => ⟨(h c hc).1, (h c hc).2.1⟩
  | some e =>
    intro c hc
    obtain rfl : 'e' = c := by simpa [exponentChars] using hc
    decide

def Parts.number (p : Parts) (negative : Bool) : Double :=
  ofDecimal negative (digitsValue (p.whole ++ p.fraction)) (p.exponent.getD 0 - p.fraction.length)

theorem exists_parts_positional_of_neg (hne : ds ≠ []) (hdigit : ∀ c ∈ ds, c.isDigit = true)
    (he : e < 0) :
    ∃ p : Parts, positional ds e = p.chars ∧
      ∀ negative, p.number negative = ofDecimal negative (digitsValue ds) (e + 1 - ds.length) := by
  refine ⟨⟨['0'], replicate ((-e).toNat - 1) '0' ++ ds, none, by simp, by simp,
    Or.inl rfl, ?_, Or.inl (by simp [hne])⟩, ?_, fun negative => ?_⟩
  · intro c hc
    rcases mem_append.mp hc with hc | hc
    · rw [eq_of_mem_replicate hc]; rfl
    · exact hdigit c hc
  · simp [positional, he, Parts.chars, exponentChars, hne]
  · have hvalue : digitsValue (['0'] ++ (replicate ((-e).toNat - 1) '0' ++ ds)) =
        digitsValue ds := by
      rw [digitsValue_append, digitsValue_append, digitsValue_replicate_zero]
      simp [digitsValue]
    simp only [Parts.number, hvalue, getD_none, length_append, length_replicate]
    congr 1
    omega

theorem exists_parts_positional_of_nonneg (hne : ds ≠ []) (hdigit : ∀ c ∈ ds, c.isDigit = true)
    (hlead : ds.head? ≠ some '0') (he : 0 ≤ e) :
    ∃ p : Parts, positional ds e = p.chars ∧
      ∀ negative, p.number negative = ofDecimal negative (digitsValue ds) (e + 1 - ds.length) := by
  obtain ⟨w, rfl⟩ : ∃ w : Nat, e = w := ⟨e.toNat, by omega⟩
  rw [positional, if_neg (by omega)]
  have htake : ds.take (w + 1) ≠ [] := by simp [hne]
  have hhead : (ds.take (w + 1)).head? ≠ some '0' := by
    rwa [head?_take, if_neg (by omega)]
  rcases lt_or_ge (w + 1) ds.length with hlt | hge
  · have hright : ds.drop (w + 1) ≠ [] := by simp [hlt]
    have hzeros : w + 1 - ds.length = 0 := by omega
    refine ⟨⟨ds.take (w + 1), ds.drop (w + 1), none, htake,
      fun c hc => hdigit c (mem_of_mem_take hc), Or.inr hhead,
      fun c hc => hdigit c (mem_of_mem_drop hc), Or.inl hright⟩, ?_, fun negative => ?_⟩
    · simp [Parts.chars, exponentChars, hzeros, hright]
    · simp only [Parts.number, take_append_drop, getD_none, length_drop]
      congr 1
      omega
  · have hall : ds.take (w + 1) = ds := take_of_length_le hge
    have hright : ds.drop (w + 1) = [] := drop_eq_nil_of_le hge
    refine ⟨⟨ds ++ replicate (w + 1 - ds.length) '0', ['0'], none, by simp [hne], ?_,
      Or.inr (by rwa [head?_append_of_ne_nil _ hne]), by simp, Or.inl (by simp)⟩, ?_,
      fun negative => ?_⟩
    · intro c hc
      rcases mem_append.mp hc with hc | hc
      · exact hdigit c hc
      · rw [eq_of_mem_replicate hc]; rfl
    · simp [Parts.chars, exponentChars, hall, hright]
    · have hvalue : digitsValue (ds ++ replicate (w + 1 - ds.length) '0' ++ ['0']) =
          digitsValue ds * 10 ^ (w + 1 - ds.length + 1) := by
        rw [append_assoc, digitsValue_append, ← replicate_succ',
          digitsValue_replicate_zero, length_replicate, add_zero]
      simp only [Parts.number, hvalue, ofDecimal_mul_pow, getD_none, length_singleton]
      congr 1
      omega

theorem exists_parts_exponential (e : Int) (hne : ds ≠ []) (hdigit : ∀ c ∈ ds, c.isDigit = true)
    (hlead : ds.head? ≠ some '0') :
    ∃ p : Parts, exponential ds e = p.chars ∧
      ∀ negative, p.number negative = ofDecimal negative (digitsValue ds) (e + 1 - ds.length) := by
  cases ds with
  | nil => exact absurd rfl hne
  | cons d rest =>
    refine ⟨⟨[d], rest, some e, by simp, fun c hc => hdigit c (by simp_all), Or.inr hlead,
      fun c hc => hdigit c (by simp [hc]), Or.inr rfl⟩, ?_, fun negative => ?_⟩
    · cases rest with
      | nil => simp [exponential, Parts.chars, exponentChars]
      | cons d' rest => simp [exponential, Parts.chars, exponentChars]
    · simp only [Parts.number, getD_some, length_cons, singleton_append]
      congr 1
      omega

def signChars (negative : Bool) : List Char :=
  if negative then ['-'] else []

/-- **The text of a finite double** is its sign and parts that stand for it. -/
theorem exists_parts (h : x.value = .finite negative u) :
    ∃ p : Parts, x.text.toList = signChars negative ++ p.chars ∧ p.number negative = x := by
  have hsign : (if negative then "-" else "").toList = signChars negative := by
    cases negative <;> rfl
  rw [text, h]
  simp only
  rcases Nat.eq_zero_or_pos u with rfl | hpos
  · refine ⟨⟨['0'], ['0'], none, by simp, by simp, Or.inl rfl, by simp, Or.inl (by simp)⟩, ?_, ?_⟩
    · rw [if_pos rfl, String.toList_append, hsign]
      rfl
    · rw [← ofMagnitude_magnitudeBits h]
      rfl
  obtain ⟨ds, z, hsci, hne, hdigit, hlead, hvalue⟩ :=
    exists_scientific (shortest_digits_pos (isDouble_of_value h) hpos)
  have hread := ofDecimal_shortest_of_value h hpos
  rw [← hvalue, ofDecimal_mul_pow] at hread
  have hnumber : ∀ p : Parts, (∀ neg, p.number neg = ofDecimal neg (digitsValue ds)
      ((shortest u).exponent + z + ds.length - 1 + 1 - ds.length)) → p.number negative = x := by
    intro p hp
    rw [hp, ← hread]
    exact congrArg (ofDecimal negative (digitsValue ds)) (by ring)
  rw [if_neg hpos.ne', hsci]
  simp only [String.toList_append, String.toList_ofList, hsign]
  generalize (shortest u).exponent + z + ds.length - 1 = e at hnumber
  split
  · rcases Int.lt_or_le e 0 with he | he
    · obtain ⟨p, hp, hnum⟩ := exists_parts_positional_of_neg hne hdigit he
      exact ⟨p, by rw [hp], hnumber p hnum⟩
    · obtain ⟨p, hp, hnum⟩ := exists_parts_positional_of_nonneg hne hdigit hlead he
      exact ⟨p, by rw [hp], hnumber p hnum⟩
  · obtain ⟨p, hp, hnum⟩ := exists_parts_exponential e hne hdigit hlead
    exact ⟨p, by rw [hp], hnumber p hnum⟩

end ApkWorkshop.Double
