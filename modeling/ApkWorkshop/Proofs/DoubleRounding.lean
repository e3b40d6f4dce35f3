import ApkWorkshop.Number.Shortest
import Mathlib.Tactic

/-!
# Decimals That Round to a Double

A finite double is a significand of at most 53 bits times a power of two, and its neighbours are
one significand away. A fraction that lies nearer to the double than half that distance is rounded
to it, and a decimal with seventeen significant digits always lies that near.

The factor is `2 * 10 ^ 16` because half a step of the grid of seventeen digits is at most that
part of the value, while half the distance between doubles is more than one part in `2 ^ 54`.
-/

namespace ApkWorkshop.Double

open Nat

variable {a b c n u count : Nat} {e lead : Int}

/-! ### Rounded quotients -/

theorem roundDiv_of_near {m : Nat} (hlo : 2 * (m * b) < 2 * a + b) (hhi : 2 * a < 2 * (m * b) + b) :
    roundDiv a b = m := by
  have hb : 0 < b := by omega
  have hdiv : b * (a / b) + a % b = a := div_add_mod a b
  have hmod : a % b < b := mod_lt a hb
  generalize a / b = q at hdiv
  generalize hr : a % b = r at hdiv hmod
  have hqm : q = m ∨ q + 1 = m := by
    rcases lt_trichotomy q m with h | h | h
    · right
      by_contra hne
      have hle : b * (q + 2) ≤ b * m := Nat.mul_le_mul_left b (by omega)
      have : b * (q + 2) = b * q + 2 * b := by ring
      have : m * b = b * m := mul_comm m b
      omega
    · exact Or.inl h
    · have hle : b * (m + 1) ≤ b * q := Nat.mul_le_mul_left b h
      have : b * (m + 1) = b * m + b := by ring
      have : m * b = b * m := mul_comm m b
      omega
  have hq : a / b = q := by
    rw [← hdiv]
    rw [mul_add_div hb, div_eq_of_lt hmod, add_zero]
  rw [roundDiv, hq]
  rcases hqm with rfl | rfl
  · have : q * b = b * q := mul_comm q b
    rw [if_pos (by omega)]
  · have : (q + 1) * b = b * q + b := by ring
    rw [if_neg (by omega), if_pos (by omega)]

theorem roundDiv_mul_right (hc : 0 < c) (a b : Nat) : roundDiv (a * c) (b * c) = roundDiv a b := by
  have hmod : a * c % (b * c) = a % b * c := by
    rw [mul_mod_mul_right]
  have h1 : 2 * (a % b * c) < b * c ↔ 2 * (a % b) < b := by
    rw [← mul_assoc]
    exact Nat.mul_lt_mul_right hc
  have h2 : b * c < 2 * (a % b * c) ↔ b < 2 * (a % b) := by
    rw [← mul_assoc]
    exact Nat.mul_lt_mul_right hc
  simp only [roundDiv, Nat.mul_div_mul_right a b hc, hmod, h1, h2]

theorem roundUnits_mul_right (hc : 0 < c) (a b : Nat) :
    roundUnits (a * c) (b * c) = roundUnits a b := by
  have hswap : ∀ s : Nat, b * c * Nat.pow 2 s = b * Nat.pow 2 s * c := fun s => by ring
  simp only [roundUnits, Nat.mul_div_mul_right a b hc, hswap, roundDiv_mul_right hc]

/-! ### Significands -/

/-- A number of units that a finite double can have: a significand of at most 53 bits, with its
leading bit unless the power is the smallest, times a power of two. -/
def IsDouble (units : Nat) : Prop :=
  ∃ m k : Nat, m < 2 ^ 53 ∧ k ≤ 2045 ∧ (k = 0 ∨ 2 ^ 52 ≤ m) ∧ units = m * 2 ^ k

theorem IsDouble.lt {units : Nat} (h : IsDouble units) : units < 2 ^ 2098 := by
  obtain ⟨m, k, hm, hk, -, rfl⟩ := h
  calc m * 2 ^ k < 2 ^ 53 * 2 ^ k := mul_lt_mul_of_pos_right hm (by positivity)
    _ ≤ 2 ^ 53 * 2 ^ 2045 := Nat.mul_le_mul_left _ (Nat.pow_le_pow_right (by decide) hk)
    _ = 2 ^ 2098 := by rw [show 2098 = 53 + 2045 from rfl, pow_add]

theorem log2_div_eq (hb : 0 < b) (hlo : 2 ^ n * b ≤ a) (hhi : a < 2 ^ (n + 1) * b) :
    (a / b).log2 = n := by
  have h1 : 2 ^ n ≤ a / b := (le_div_iff_mul_le hb).mpr hlo
  have h2 : a / b < 2 ^ (n + 1) := (div_lt_iff_lt_mul hb).mpr hhi
  have hpos : a / b ≠ 0 := by
    omega
  exact (log2_eq_iff hpos).mpr ⟨h1, h2⟩

/-- **Rounding to a double**: a fraction that differs from the double by at most one part in
`2 * 10 ^ 16` is rounded to it. -/
theorem roundUnits_of_near (hu : IsDouble u) (hb : 0 < b)
    (hlo : 20000000000000000 * (u * b) ≤ 20000000000000000 * a + u * b)
    (hhi : 20000000000000000 * a ≤ 20000000000000000 * (u * b) + u * b) (hpos : 0 < u) :
    roundUnits a b = u := by
  obtain ⟨m, k, hm, -, hk, rfl⟩ := hu
  -- everything below is linear in `b * 2 ^ k`, the distance of neighbouring doubles
  set w := b * 2 ^ k with hw
  have hwpos : 0 < w := by positivity
  have hub : m * 2 ^ k * b = m * w := by rw [hw]; ring
  rw [hub] at hlo hhi
  have hmw : m * w ≤ 9007199254740991 * w := Nat.mul_le_mul_right w (by omega)
  have hnear : 2 * (m * w) < 2 * a + w ∧ 2 * a < 2 * (m * w) + w := by omega
  have hgoal : ∀ s, s = k → roundDiv a (b * 2 ^ s) * 2 ^ s = m * 2 ^ k := by
    rintro s rfl
    rw [← hw, roundDiv_of_near hnear.1 hnear.2]
  simp only [roundUnits, pow_eq]
  rcases Nat.eq_zero_or_pos k with hk0 | hkpos
  · -- the smallest power: the quotient has at most 53 bits, whatever the significand
    subst hk0
    have hlt : a / b < 2 ^ 53 := by
      rw [div_lt_iff_lt_mul hb]
      have : w = b := by rw [hw]; ring
      omega
    have hlog : (a / b).log2 < 53 := by
      rcases Nat.eq_zero_or_pos (a / b) with h0 | h0
      · rw [h0]; decide
      · exact (log2_lt (by omega)).mpr hlt
    exact hgoal _ (by omega)
  · have hm52 : 2 ^ 52 ≤ m := by rcases hk with h | h <;> omega
    have hpow : ∀ j : Nat, 2 ^ (j + k) * b = 2 ^ j * w := fun j => by rw [hw, pow_add]; ring
    have hbelow : 2 ^ 51 * w ≤ a := by
      have : 4503599627370496 * w ≤ m * w := Nat.mul_le_mul_right w (by omega)
      omega
    have habove : a < 2 ^ 53 * w := by omega
    by_cases hbin : 2 ^ 52 * w ≤ a
    · have hlog : (a / b).log2 = 52 + k :=
        log2_div_eq hb (by rw [hpow]; exact hbin)
          (by rw [show 52 + k + 1 = 53 + k by omega, hpow]; exact habove)
      rw [hlog]
      exact hgoal _ (by omega)
    · -- just below a power of two, where the doubles lie twice as dense
      have hm_eq : m = 2 ^ 52 := by
        by_contra hne
        have : 4503599627370497 * w ≤ m * w := Nat.mul_le_mul_right w (by omega)
        omega
      have hlog : (a / b).log2 = 51 + k :=
        log2_div_eq hb (by rw [hpow]; exact hbelow)
          (by rw [show 51 + k + 1 = 52 + k by omega, hpow]; omega)
      obtain ⟨j, rfl⟩ : ∃ j, k = j + 1 := ⟨k - 1, by omega⟩
      have hw2 : w = 2 * (b * 2 ^ j) := by rw [hw, pow_succ]; ring
      rw [hlog, show 51 + (j + 1) + 1 - 53 = j by omega]
      have hround : roundDiv a (b * 2 ^ j) = 2 ^ 53 := by
        apply roundDiv_of_near
        · rw [hm_eq, hw2] at hlo
          omega
        · rw [hw2] at hbin
          omega
      rw [hround, hm_eq, pow_succ]
      ring

/-! ### Powers of ten -/

theorem powerOfTen_pos (e : Int) : 0 < (powerOfTen e).1 ∧ 0 < (powerOfTen e).2 := by
  rw [powerOfTen]
  split <;> simp only [pow_eq] <;> constructor <;> positivity

theorem powerOfTen_add (e : Int) (n : Nat) :
    (powerOfTen (e + n)).1 * (powerOfTen e).2 =
      10 ^ n * (powerOfTen e).1 * (powerOfTen (e + n)).2 := by
  simp only [powerOfTen, pow_eq]
  by_cases h : 0 ≤ e
  · have hsum : (e + n).toNat = n + e.toNat := by omega
    simp [h, (by omega : 0 ≤ e + n), hsum, pow_add]
  by_cases h' : 0 ≤ e + n
  · have hsum : n = (e + n).toNat + (-e).toNat := by omega
    rw [if_neg h, if_pos h']
    simp only [Nat.mul_one]
    conv_rhs => rw [hsum]
    rw [pow_add]
  · have hsum : (-e).toNat = n + (-(e + n)).toNat := by omega
    rw [if_neg h, if_neg h']
    simp only [one_mul, Nat.mul_one]
    rw [hsum, pow_add]

theorem ofDecimal_eq_ofUnits {negative : Bool} (hn : 0 < n)
    (hlo : -400 ≤ e + (toDigits 10 n).length) (hhi : e + (toDigits 10 n).length ≤ 400) :
    ofDecimal negative n e = ofUnits negative (n * (powerOfTen e).1 * one) (powerOfTen e).2 := by
  rw [ofDecimal, if_neg (by omega), if_neg (by omega), if_neg (by omega), powerOfTen]
  split <;> simp

theorem two_pow_le_ten_pow (n : Nat) : 2 ^ (3 * n) ≤ 10 ^ n := by
  rw [pow_mul]
  exact Nat.pow_le_pow_left (by decide) n

theorem ten_pow_le_of_length {k : Nat} (h : k < (toDigits 10 n).length) (hn : 0 < n) :
    10 ^ k ≤ n := by
  rcases Nat.eq_zero_or_pos k with rfl | hk
  · simpa using succ_le_of_lt hn
  · by_contra hlt
    have := (length_toDigits_le_iff (n := n) (b := 10) (by decide) hk).mpr (by omega)
    omega

theorem length_of_near (hpos : 0 < u) (hu : u < 2 ^ 2098) (hn : 0 < n)
    (hle : n * (powerOfTen e).1 * one ≤ 2 * (u * (powerOfTen e).2))
    (hge : u * (powerOfTen e).2 ≤ 2 * (n * (powerOfTen e).1 * one)) :
    -400 ≤ e + (toDigits 10 n).length ∧ e + (toDigits 10 n).length ≤ 400 := by
  have hone : one = 2 ^ 1074 := by decide +kernel
  generalize hd : (toDigits 10 n).length = d
  have hdpos : 0 < d := hd ▸ length_toDigits_pos
  have hdigits : n < 10 ^ d :=
    (length_toDigits_le_iff (by decide) hdpos).mp (by omega)
  constructor
  · by_contra hlow
    -- the decimal would be below `10 ^ -401`
    have hneg : ¬ 0 ≤ e := by omega
    rw [powerOfTen, if_neg hneg] at hge
    simp only [pow_eq, Nat.mul_one] at hge
    obtain ⟨j, hj⟩ : ∃ j, (-e).toNat = d + (401 + j) := ⟨(-e).toNat - d - 401, by omega⟩
    have hbig : 2 ^ 1203 ≤ 10 ^ (401 + j) :=
      (two_pow_le_ten_pow 401).trans (Nat.pow_le_pow_right (by decide) (by omega))
    have h1 : n * 2 ^ 1203 ≤ u * 10 ^ (-e).toNat := by
      calc n * 2 ^ 1203 ≤ 10 ^ d * 10 ^ (401 + j) := Nat.mul_le_mul hdigits.le hbig
        _ = 10 ^ (-e).toNat := by rw [hj, pow_add 10 d]
        _ ≤ u * 10 ^ (-e).toNat := Nat.le_mul_of_pos_left _ hpos
    have h2 : n * 2 ^ 1203 ≤ n * 2 ^ 1075 := by
      calc n * 2 ^ 1203 ≤ 2 * (n * one) := h1.trans hge
        _ = n * 2 ^ 1075 := by rw [hone, pow_succ 2 1074]; ring
    have h3 : 2 ^ 1203 ≤ 2 ^ 1075 := le_of_mul_le_mul_left h2 hn
    exact absurd ((Nat.pow_le_pow_iff_right (by decide)).mp h3) (by decide)
  · by_contra hhigh
    -- the decimal would reach `10 ^ 400`
    have hbig : 10 ^ 400 * (powerOfTen e).2 ≤ n * (powerOfTen e).1 := by
      rw [powerOfTen]
      split
      · rename_i he
        obtain ⟨j, hj⟩ : ∃ j, d - 1 + e.toNat = 400 + j := ⟨d - 1 + e.toNat - 400, by omega⟩
        calc 10 ^ 400 * 1 ≤ 10 ^ (400 + j) :=
              (Nat.mul_one _).le.trans (Nat.pow_le_pow_right (by decide) (by omega))
          _ = 10 ^ (d - 1) * 10 ^ e.toNat := by rw [← hj, pow_add]
          _ ≤ n * 10 ^ e.toNat :=
              Nat.mul_le_mul_right _ (ten_pow_le_of_length (by omega) hn)
      · rename_i he
        calc 10 ^ 400 * 10 ^ (-e).toNat = 10 ^ (400 + (-e).toNat) := by rw [pow_add]
          _ ≤ n := ten_pow_le_of_length (by omega) hn
          _ = n * 1 := (Nat.mul_one n).symm
    have hb := (powerOfTen_pos e).2
    generalize (powerOfTen e).2 = b at hle hbig hb
    generalize n * (powerOfTen e).1 = v at hle hbig
    have h1 : 2 ^ 2274 * b ≤ 2 ^ 2099 * b := by
      calc 2 ^ 2274 * b = 2 ^ 1200 * b * 2 ^ 1074 := by
            rw [show 2274 = 1200 + 1074 by rfl]; ring
        _ ≤ 10 ^ 400 * b * 2 ^ 1074 :=
            Nat.mul_le_mul_right _ (Nat.mul_le_mul_right b (two_pow_le_ten_pow 400))
        _ ≤ v * one := by rw [hone]; exact Nat.mul_le_mul_right _ hbig
        _ ≤ 2 * (u * b) := hle
        _ ≤ 2 * (2 ^ 2098 * b) := Nat.mul_le_mul_left 2 (Nat.mul_le_mul_right b hu.le)
        _ = 2 ^ 2099 * b := by rw [pow_succ 2 2098]; ring
    have h2 : 2 ^ 2274 ≤ 2 ^ 2099 := le_of_mul_le_mul_right h1 hb
    exact absurd ((Nat.pow_le_pow_iff_right (by decide)).mp h2) (by decide)

/-! ### The search for the shortest decimal -/

theorem estimate_reaches : ∀ l < 2098,
    let e := Int.fdiv (((l : Nat) - unitScale : Int) * 30103) 100000 - 1
    (powerOfTen e).1 * one ≤ Nat.pow 2 l * (powerOfTen e).2 := by
  decide +kernel

/-- **The leading exponent**: its power of ten is not greater than the value. -/
theorem le_of_leadingExponent (hpos : 0 < u) (hu : u < 2 ^ 2098) :
    (powerOfTen (leadingExponent u)).1 * one ≤ u * (powerOfTen (leadingExponent u)).2 := by
  have hlog : u.log2 < 2098 := (log2_lt (by omega)).mpr hu
  have hself : Nat.pow 2 u.log2 ≤ u := log2_self_le (by omega)
  rw [leadingExponent]
  split
  · rename_i h
    exact of_decide_eq_true h
  split
  · rename_i h
    exact of_decide_eq_true h
  · exact (estimate_reaches u.log2 hlog).trans (Nat.mul_le_mul_right _ hself)

theorem ofDecimal_of_onGrid? {d : Decimal} (h : onGrid? u lead count = some d) :
    ofDecimal false d.digits d.exponent = ofUnits false u 1 := by
  rw [onGrid?] at h
  simp only at h
  split at h
  · rename_i hboth
    rw [Bool.and_eq_true, beq_iff_eq, beq_iff_eq] at hboth
    split_ifs at h <;> cases h
    exacts [hboth.1, hboth.2, hboth.1, hboth.2]
  split at h
  · rename_i hlow
    cases h
    exact beq_iff_eq.mp hlow
  split at h
  · rename_i hhigh
    cases h
    exact beq_iff_eq.mp hhigh
  · cases h

theorem roundUnits_self (hu : IsDouble u) (hpos : 0 < u) : roundUnits u 1 = u :=
  roundUnits_of_near hu (by decide) (by omega) (by omega) hpos

theorem ofDecimal_of_near {g : Nat} (hu : IsDouble u) (hpos : 0 < u)
    (hg : (powerOfTen e).1 * one = g) (hgrid : 10 ^ 16 * g ≤ u * (powerOfTen e).2)
    (hlo : 2 * (u * (powerOfTen e).2) ≤ 2 * (n * g) + g)
    (hhi : 2 * (n * g) ≤ 2 * (u * (powerOfTen e).2) + g) :
    ofDecimal false n e = ofUnits false u 1 := by
  have hb := (powerOfTen_pos e).2
  have hub : 0 < u * (powerOfTen e).2 := mul_pos hpos hb
  have hassoc : n * (powerOfTen e).1 * one = n * g := by rw [mul_assoc, hg]
  have hn : 0 < n := by
    rcases Nat.eq_zero_or_pos n with rfl | hn
    · omega
    · exact hn
  obtain ⟨hlen, hlen'⟩ := length_of_near (e := e) hpos hu.lt hn
    (by rw [hassoc]; omega) (by rw [hassoc]; omega)
  rw [ofDecimal_eq_ofUnits hn hlen hlen', ofUnits, ofUnits, roundUnits_self hu hpos,
    roundUnits_of_near hu hb (by omega) (by omega) hpos]

theorem steps_of_seventeen (hu : IsDouble u) (hpos : 0 < u)
    (he : e + (16 : Nat) = leadingExponent u) :
    10 ^ 16 * ((powerOfTen e).1 * one) ≤ u * (powerOfTen e).2 := by
  have hlead := le_of_leadingExponent hpos hu.lt
  have hshift := powerOfTen_add e 16
  rw [← he] at hlead
  refine le_of_mul_le_mul_right ?_ (powerOfTen_pos (e + (16 : Nat))).2
  generalize one = o at hlead ⊢
  calc 10 ^ 16 * ((powerOfTen e).1 * o) * (powerOfTen (e + (16 : Nat))).2
      = 10 ^ 16 * (powerOfTen e).1 * (powerOfTen (e + (16 : Nat))).2 * o := by ring
    _ = (powerOfTen (e + (16 : Nat))).1 * (powerOfTen e).2 * o := by rw [hshift]
    _ = (powerOfTen (e + (16 : Nat))).1 * o * (powerOfTen e).2 := by ring
    _ ≤ u * (powerOfTen (e + (16 : Nat))).2 * (powerOfTen e).2 := Nat.mul_le_mul_right _ hlead
    _ = u * (powerOfTen e).2 * (powerOfTen (e + (16 : Nat))).2 := by ring

theorem exists_onGrid? (hu : IsDouble u) (hpos : 0 < u)
    (hgrid : 10 ^ 16 * ((powerOfTen (lead - count + 1)).1 * one) ≤
      u * (powerOfTen (lead - count + 1)).2) : ∃ d, onGrid? u lead count = some d := by
  rw [onGrid?]
  simp only
  generalize lead - count + 1 = e at hgrid
  have hone : 0 < one := by decide +kernel
  have hgpos : 0 < (powerOfTen e).1 * one := mul_pos (powerOfTen_pos e).1 hone
  generalize hg : (powerOfTen e).1 * one = g at hgrid hgpos
  have hdiv := div_add_mod (u * (powerOfTen e).2) g
  have hmod : u * (powerOfTen e).2 % g < g := mod_lt _ hgpos
  generalize u * (powerOfTen e).2 / g = q at hdiv
  generalize u * (powerOfTen e).2 % g = r at hdiv hmod
  have hcomm : q * g = g * q := mul_comm q g
  have hsucc : (q + 1) * g = g * q + g := by ring
  -- the nearer of the two neighbours is at most half a step away
  have hone_reads : ofDecimal false q e = ofUnits false u 1 ∨
      ofDecimal false (q + 1) e = ofUnits false u 1 := by
    rcases lt_or_ge (2 * r) g with hhalf | hhalf
    · exact Or.inl (ofDecimal_of_near hu hpos hg hgrid (by omega) (by omega))
    · exact Or.inr (ofDecimal_of_near hu hpos hg hgrid (by omega) (by omega))
  split
  · split
    · exact ⟨_, rfl⟩
    split
    · exact ⟨_, rfl⟩
    split <;> exact ⟨_, rfl⟩
  split
  · exact ⟨_, rfl⟩
  split
  · exact ⟨_, rfl⟩
  · rename_i hlow hhigh
    rcases hone_reads with h | h
    · exact absurd (beq_iff_eq.mpr h) hlow
    · exact absurd (beq_iff_eq.mpr h) hhigh

/-- **The shortest decimal reads back** as the double it was searched for. -/
theorem ofDecimal_shortest (hu : IsDouble u) (hpos : 0 < u) :
    ofDecimal false (shortest u).digits (shortest u).exponent = ofUnits false u 1 := by
  have hexp : leadingExponent u - (17 : Nat) + 1 + (16 : Nat) = leadingExponent u := by
    push_cast; ring
  obtain ⟨d, hd⟩ := exists_onGrid? hu hpos (steps_of_seventeen hu hpos hexp)
  have hsome : ((List.range 17).findSome? fun i => onGrid? u (leadingExponent u) (i + 1)).isSome := by
    rw [List.findSome?_isSome_iff]
    exact ⟨16, by simp, by rw [hd]; rfl⟩
  obtain ⟨d', hd'⟩ := Option.isSome_iff_exists.mp hsome
  obtain ⟨i, -, hi⟩ := List.exists_of_findSome?_eq_some hd'
  rw [shortest]
  simp only [hd', Option.getD_some]
  exact ofDecimal_of_onGrid? hi

end ApkWorkshop.Double
