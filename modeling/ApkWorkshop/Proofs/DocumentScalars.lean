import ApkWorkshop.Document.Reader
import ApkWorkshop.Document.Writer
import ApkWorkshop.Proofs.DoubleText
import ApkWorkshop.Proofs.QuotedLiteral

/-!
# Texts and Numbers of Documents

The reader of documents takes back what the writer wrote, for the values that hold no others. Each
lemma speaks about written characters in front of an arbitrary rest, so that the lists and objects
around them can use it.
-/

namespace ApkWorkshop.Document

open Text List Nat Option
open Value (unitEscape writtenChar writtenText writtenReal)

variable {n : Nat} {rest : List Char}

/-! ### Escapes -/

theorem hexDigit?_digitChar {d : Nat} (h : d < 16) : hexDigit? (digitChar d) = some d := by
  interval_cases d <;> decide

theorem unit?_hexPadded (h : n < 0x10000) (rest : List Char) :
    unit? ((hexPadded 4 n).toList ++ rest) = some n := by
  obtain ⟨ds, hds, hall, hlen, hvalue⟩ := @exists_hexPadded_digits 4 n (by decide) h
  obtain ⟨a, b, c, d, rfl⟩ : ∃ a b c d, ds = [a, b, c, d] := by
    match ds, hlen with
    | [a, b, c, d], _ => exact ⟨a, b, c, d, rfl⟩
  simp only [mem_cons, not_mem_nil, or_false, forall_eq_or_imp, forall_eq] at hall
  obtain ⟨ha, hb, hc, hd⟩ := hall
  simp only [foldl_cons, foldl_nil] at hvalue
  rw [hds]
  simp only [map_cons, map_nil, cons_append, nil_append, unit?,
    hexDigit?_digitChar ha, hexDigit?_digitChar hb, hexDigit?_digitChar hc, hexDigit?_digitChar hd]
  simp only [pure, bind, bind_some, some.injEq]
  omega

theorem length_hexPadded (h : n < 0x10000) : (hexPadded 4 n).toList.length = 4 := by
  obtain ⟨ds, hds, -, hlen, -⟩ := @exists_hexPadded_digits 4 n (by decide) h
  rw [hds, length_map, hlen]

theorem unicodeEscape_hexPadded {c : Char} (hc : c.toNat < 0x10000) (hrest : rest ≠ []) :
    unicodeEscape ((hexPadded 4 c.toNat).toList ++ rest) = .ok (c, rest) := by
  have hlen := length_hexPadded hc
  have hpos := length_pos_of_ne_nil hrest
  have hvalid := toNat_valid c
  have hchar : unitChar c.toNat = c := by
    rw [unitChar, if_neg (by omega), Char.ofNat_toNat]
  have hhigh : ¬ (0xD800 ≤ c.toNat ∧ c.toNat < 0xDC00) := by omega
  rw [unicodeEscape, if_neg (by rw [length_append]; omega), unit?_hexPadded hc]
  simp only [drop_left' hlen, hchar]
  split
  · rw [if_neg fun h => hhigh ⟨h.1, h.2.1⟩]
  · rfl

theorem unicodeEscape_units {high low : Nat} (hhigh : 0xD800 ≤ high ∧ high < 0xDC00)
    (hlow : 0xDC00 ≤ low ∧ low < 0xE000) (hrest : rest ≠ []) :
    unicodeEscape ((hexPadded 4 high).toList ++ '\\' :: 'u' :: ((hexPadded 4 low).toList ++ rest)) =
      .ok (Char.ofNat (0x10000 + (high - 0xD800) * 0x400 + (low - 0xDC00)), rest) := by
  have hpos := length_pos_of_ne_nil hrest
  have hh := length_hexPadded (n := high) (by omega)
  have hl := length_hexPadded (n := low) (by omega)
  have hlong : ¬ ((hexPadded 4 high).toList ++
      '\\' :: 'u' :: ((hexPadded 4 low).toList ++ rest)).length ≤ 4 := by
    simp only [length_append, hh, length_cons]
    omega
  have hmore : 0xD800 ≤ high ∧ high < 0xDC00 ∧ 4 < ((hexPadded 4 low).toList ++ rest).length :=
    ⟨hhigh.1, hhigh.2, by rw [length_append]; omega⟩
  rw [unicodeEscape, if_neg hlong, unit?_hexPadded (by omega)]
  simp only [drop_left' hh, if_pos hmore, unit?_hexPadded (n := low) (by omega), if_pos hlow,
    drop_left' hl]

theorem ofNat_units (h : 0x10000 ≤ n) :
    0x10000 + (0xD800 + (n - 0x10000) / 0x400 - 0xD800) * 0x400 +
      (0xDC00 + (n - 0x10000) % 0x400 - 0xDC00) = n := by
  omega

/-! ### Texts -/

theorem writtenChar_cases (c : Char) :
    (∃ d, writtenChar c = ['\\', d] ∧ ∀ start rest, escape start (d :: rest) = .ok (c, rest)) ∨
      (writtenChar c = [c] ∧ c ≠ '"' ∧ c ≠ '\\' ∧ 32 ≤ c.toNat ∧ c.toNat < 127) ∨
      (c.toNat < 0x10000 ∧ writtenChar c = unitEscape c.toNat) ∨
      (0x10000 ≤ c.toNat ∧ writtenChar c = unitEscape (0xD800 + (c.toNat - 0x10000) / 0x400) ++
        unitEscape (0xDC00 + (c.toNat - 0x10000) % 0x400)) := by
  unfold writtenChar
  by_cases h1 : c = '"'
  · subst c; exact .inl ⟨'"', rfl, fun _ _ => rfl⟩
  by_cases h2 : c = '\\'
  · subst c; exact .inl ⟨'\\', rfl, fun _ _ => rfl⟩
  by_cases h3 : c = '\n'
  · subst c; exact .inl ⟨'n', rfl, fun _ _ => rfl⟩
  by_cases h4 : c = '\r'
  · subst c; exact .inl ⟨'r', rfl, fun _ _ => rfl⟩
  by_cases h5 : c = '\t'
  · subst c; exact .inl ⟨'t', rfl, fun _ _ => rfl⟩
  rw [if_neg h1, if_neg h2, if_neg h3, if_neg h4, if_neg h5]
  by_cases h6 : c.toNat = 8
  · rw [if_pos h6]
    exact .inl ⟨'b', rfl, fun _ _ => by rw [← Char.ofNat_toNat c, h6]; rfl⟩
  by_cases h7 : c.toNat = 12
  · rw [if_neg h6, if_pos h7]
    exact .inl ⟨'f', rfl, fun _ _ => by rw [← Char.ofNat_toNat c, h7]; rfl⟩
  rw [if_neg h6, if_neg h7]
  by_cases h8 : 32 ≤ c.toNat ∧ c.toNat < 127
  · rw [if_pos h8]
    exact .inr (.inl ⟨rfl, h1, h2, h8⟩)
  rw [if_neg h8]
  by_cases h9 : c.toNat < 0x10000
  · rw [if_pos h9]
    exact .inr (.inr (.inl ⟨h9, rfl⟩))
  · rw [if_neg h9]
    exact .inr (.inr (.inr ⟨not_lt.mp h9, rfl⟩))

/-- **One written character** is one step of the reader, whatever follows. -/
theorem textBody_writtenChar (c : Char) (start fuel : Nat) {rest xs after : List Char}
    (hrest : rest ≠ []) (h : textBody start fuel rest = .ok (xs, after)) :
    textBody start (fuel + 1) (writtenChar c ++ rest) = .ok (c :: xs, after) := by
  -- an escape is a backslash and something that `escape` reads as the character
  have hescape : ∀ {tail : List Char}, escape start tail = .ok (c, rest) →
      textBody start (fuel + 1) ('\\' :: tail) = .ok (c :: xs, after) := by
    intro tail htail
    simp only [textBody, htail, h, bind, Except.bind]
    rfl
  rcases writtenChar_cases c with ⟨d, hd, hread⟩ | ⟨hself, hquote, hback, hprint, -⟩ |
    ⟨hplane, hunit⟩ | ⟨hplane, hpair⟩
  · rw [hd]
    exact hescape (hread start rest)
  · rw [hself, singleton_append, textBody, if_neg hquote, if_neg hback,
      if_neg (not_lt.mpr hprint), h]
    rfl
  · rw [hunit, unitEscape, cons_append, cons_append]
    refine hescape ?_
    rw [escape]
    exact unicodeEscape_hexPadded hplane hrest
  · have hvalid := toNat_valid c
    rw [hpair, unitEscape, unitEscape, append_assoc, cons_append, cons_append,
      cons_append, cons_append]
    refine hescape ?_
    rw [escape, unicodeEscape_units (by omega) (by omega) hrest, ofNat_units hplane,
      Char.ofNat_toNat]

theorem textBody_flatMap (cs after : List Char) (start : Nat) {fuel : Nat}
    (hfuel : cs.length < fuel) :
    textBody start fuel (cs.flatMap writtenChar ++ '"' :: after) = .ok (cs, after) := by
  induction cs generalizing fuel with
  | nil =>
    obtain ⟨fuel, rfl⟩ : ∃ k, fuel = k + 1 := ⟨fuel - 1, by omega⟩
    simp [textBody]
  | cons c cs ih =>
    rw [length_cons] at hfuel
    obtain ⟨fuel, rfl⟩ : ∃ k, fuel = k + 1 := ⟨fuel - 1, by omega⟩
    rw [flatMap_cons, append_assoc]
    exact textBody_writtenChar c start fuel (by simp) (ih (by omega))

theorem length_writtenChar_pos (c : Char) : 0 < (writtenChar c).length := by
  rcases writtenChar_cases c with ⟨d, h, -⟩ | ⟨h, -⟩ | ⟨-, h⟩ | ⟨-, h⟩ <;> rw [h]
  · exact zero_lt_succ _
  · exact zero_lt_succ _
  · rw [unitEscape]
    exact zero_lt_succ _
  · rw [unitEscape, cons_append]
    exact zero_lt_succ _

theorem textBehindQuote_written (s : String) (after : List Char) :
    textBehindQuote (s.toList.flatMap writtenChar ++ '"' :: after) = .ok (s, after) := by
  have hlen : s.toList.length ≤ (s.toList.flatMap writtenChar).length := by
    induction s.toList with
    | nil => simp
    | cons c cs ih =>
      have hc := length_writtenChar_pos c
      rw [flatMap_cons, length_append, length_cons]
      omega
  rw [textBehindQuote, textBody_flatMap _ _ _ (by
    simp only [length_append, length_cons]
    omega)]
  simp [bind, Except.bind, pure, Except.pure]

/-! ### Numbers -/

open Double (EndsNumber Parts exponentChars signChars)

variable {ds rest : List Char} {c : Char}

theorem digitsHere_append (hds : ∀ c ∈ ds, c.isDigit = true)
    (hrest : ∀ c ∈ rest.head?, c.isDigit = false) : digitsHere (ds ++ rest) = (ds, rest) := by
  obtain ⟨htake, hdrop⟩ := span_append hds hrest
  rw [digitsHere, htake, hdrop]

theorem fractionHere_of_ne (h : ∀ c ∈ rest.head?, c ≠ '.') : fractionHere rest = ([], rest) := by
  unfold fractionHere
  split
  · exact absurd rfl (h '.' (by simp))
  · rfl

theorem exponentHere_of_endsNumber (h : EndsNumber rest) : exponentHere rest = (none, rest) := by
  unfold exponentHere
  split
  · rfl
  · rename_i c rest
    obtain ⟨-, -, he, hE⟩ := h c (by simp)
    rw [if_neg (by simp [he, hE])]

theorem exponentHere_exponentChars (e : Option Int) (h : EndsNumber rest) :
    exponentHere (exponentChars e ++ rest) = (e, rest) := by
  cases e with
  | none => exact exponentHere_of_endsNumber h
  | some e =>
    obtain ⟨hne, hdigit, hvalue⟩ := Double.exponent_digits e.natAbs
    have hspan := digitsHere_append hdigit fun c hc => (h c hc).1
    have hnumber : numberOf (padStart 2 '0' (decimal e.natAbs)).toList = e.natAbs := hvalue
    rw [exponentChars]
    generalize (padStart 2 '0' (decimal e.natAbs)).toList = ds at *
    have hempty : ds.isEmpty = false := by rwa [isEmpty_eq_false_iff]
    rcases Int.lt_or_le e 0 with he | he
    · simp only [exponentHere, if_pos he, cons_append, true_or, if_true, hspan, hempty,
        hnumber, Bool.false_eq_true, if_false, Prod.mk.injEq, and_true, some.injEq]
      omega
    · simp only [exponentHere, if_neg (not_lt.mpr he), cons_append, true_or, if_true, hspan,
        hempty, hnumber, Bool.false_eq_true, if_false, Prod.mk.injEq, and_true,
        some.injEq]
      omega

theorem leading_eq (h : ds = ['0'] ∨ ds.head? ≠ some '0') :
    (if ds.head? = some '0' then ['0'] else ds) = ds := by
  rcases h with rfl | h
  · rfl
  · rw [if_neg h]

theorem toDigits_lead (n : Nat) :
    toDigits 10 n = ['0'] ∨ (toDigits 10 n).head? ≠ some '0' := by
  rcases Nat.eq_zero_or_pos n with rfl | hpos
  · exact Or.inl (by decide)
  · exact Or.inr (Double.head?_toDigits_ne hpos)

/-- **The digits of a whole number** are read as that number. -/
theorem numberHere_toDigits (negative : Bool) (cs : List Char) (n : Nat) (h : EndsNumber rest) :
    numberHere negative cs (toDigits 10 n ++ rest) =
      .ok (.whole (if negative then -(n : Int) else n), rest) := by
  have hspan := digitsHere_append
    (fun c (hc : c ∈ toDigits 10 n) => isDigit_of_mem_toDigits hc) fun c hc => (h c hc).1
  have hvalue : numberOf (toDigits 10 n) = n := digitsValue_toDigits n
  have hempty : (toDigits 10 n).isEmpty = false := by
    rw [isEmpty_eq_false_iff]; exact toDigits_ne_nil
  simp only [numberHere, hspan, leading_eq (toDigits_lead n), hempty, Bool.false_eq_true, if_false,
    drop_left, fractionHere_of_ne fun c hc => (h c hc).2.1, exponentHere_of_endsNumber h,
    isEmpty_nil, isNone_none, Bool.and_self, if_true, hvalue]

/-- **The parts of a double** are read as the double they stand for. -/
theorem numberHere_chars (negative : Bool) (cs : List Char) (p : Parts) (h : EndsNumber rest) :
    numberHere negative cs (p.chars ++ rest) = .ok (.real (p.number negative), rest) := by
  have hexp := exponentHere_exponentChars p.exponent h
  have hhead := Double.head?_exponentChars_append (e := p.exponent) h
  have hempty : p.whole.isEmpty = false := by
    rw [isEmpty_eq_false_iff]; exact p.whole_ne_nil
  have hnumber : numberOf = digitsValue := rfl
  by_cases hf : p.fraction = []
  · have hscaled : p.exponent.isNone = false := by
      rcases p.pointed_or_scaled with h | h
      · exact absurd hf h
      · rw [isNone_eq_false_iff]; exact h
    have hspan := digitsHere_append p.isDigit_whole fun c hc => (hhead c hc).1
    simp only [Parts.chars, hf, if_true, nil_append, append_assoc, numberHere, hspan,
      leading_eq p.whole_lead, hempty, Bool.false_eq_true, if_false, drop_left,
      fractionHere_of_ne fun c hc => (hhead c hc).2, hexp, hscaled, Bool.and_false, hnumber,
      Parts.number]
  · have hspan : digitsHere (p.whole ++ '.' :: (p.fraction ++ (exponentChars p.exponent ++ rest)))
        = (p.whole, '.' :: (p.fraction ++ (exponentChars p.exponent ++ rest))) :=
      digitsHere_append p.isDigit_whole fun c hc => by
        obtain rfl : '.' = c := by simpa using hc
        decide
    have hspan' := digitsHere_append p.isDigit_fraction fun c hc => (hhead c hc).1
    have hempty' : p.fraction.isEmpty = false := by rwa [isEmpty_eq_false_iff]
    simp only [Parts.chars, hf, if_false, append_assoc, cons_append, numberHere, hspan,
      leading_eq p.whole_lead, hempty, Bool.false_eq_true, drop_left, fractionHere, hspan',
      hempty', hexp, Bool.false_and, hnumber, Parts.number]

/-! ### Scalars -/

theorem wordHere?_eq_none {word : String} {a : Char} {as : List Char}
    (hword : word.toList = a :: as) (hne : a ≠ c) (v : Value) (cs : List Char) :
    wordHere? word v (c :: cs) = none := by
  rw [wordHere?, hword, List.isPrefixOf, beq_false_of_ne hne, Bool.false_and, if_neg (by decide)]

theorem scalarHere_of_isDigit (hc : c.isDigit = true) (cs : List Char) :
    scalarHere (c :: cs) = numberHere false (c :: cs) (c :: cs) := by
  have hnone : ∀ (word : String) {a : Char} {as : List Char} (v : Value), word.toList = a :: as →
      a.isDigit = false → wordHere? word v (c :: cs) = none :=
    fun word _ _ v hword ha => wordHere?_eq_none hword (ne_of_isDigit hc ha).symm v cs
  have hminus : c ≠ '-' := ne_of_isDigit hc (by decide)
  simp only [scalarHere, List.findSome?, hnone "null" _ rfl (by decide),
    hnone "true" _ rfl (by decide), hnone "false" _ rfl (by decide), hnone "NaN" _ rfl (by decide),
    hnone "Infinity" _ rfl (by decide), hnone "-Infinity" _ rfl (by decide)]
  split
  · rename_i heq
    exact absurd (List.cons.inj heq).1 hminus
  · rfl

theorem scalarHere_minus (hc : c.isDigit = true) (cs : List Char) :
    scalarHere ('-' :: c :: cs) = numberHere true ('-' :: c :: cs) (c :: cs) := by
  have hI : ('I' == c) = false := beq_false_of_ne (ne_of_isDigit hc (by decide)).symm
  have hinfinity : ∀ v, wordHere? "-Infinity" v ('-' :: c :: cs) = none := by
    intro v
    rw [wordHere?, show "-Infinity".toList = '-' :: 'I' :: "nfinity".toList from rfl,
      List.isPrefixOf, List.isPrefixOf, hI, Bool.false_and, if_neg (by decide)]
  simp only [scalarHere, List.findSome?, hinfinity]
  rfl

theorem scalarHere_signChars (negative : Bool) (hne : ds ≠ [])
    (hdigit : ∀ c ∈ ds.head?, c.isDigit = true) :
    scalarHere (signChars negative ++ ds) = numberHere negative (signChars negative ++ ds) ds := by
  obtain ⟨c, cs, rfl⟩ := exists_cons_of_ne_nil hne
  have hc := hdigit c (by simp)
  cases negative with
  | false => exact scalarHere_of_isDigit hc cs
  | true => exact scalarHere_minus hc cs

theorem scalarHere_whole (n : Int) (h : EndsNumber rest) :
    scalarHere ((decimalInt n).toList ++ rest) = .ok (.whole n, rest) := by
  have htext : (decimalInt n).toList = signChars (n < 0) ++ toDigits 10 n.natAbs := by
    rw [toList_decimalInt]
    by_cases hneg : n < 0 <;> simp [signChars, hneg]
  have hne : toDigits 10 n.natAbs ≠ [] := toDigits_ne_nil
  rw [htext, append_assoc, scalarHere_signChars _ (by simp [hne]), numberHere_toDigits _ _ _ h]
  · by_cases hneg : n < 0
    · simp only [hneg, decide_true, if_true]
      rw [show -(n.natAbs : Int) = n by omega]
    · simp only [hneg, decide_false, Bool.false_eq_true, if_false]
      rw [show (n.natAbs : Int) = n by omega]
  · intro c hc
    rw [head?_append_of_ne_nil _ hne] at hc
    exact isDigit_of_mem_toDigits (mem_of_mem_head? hc)

/-- **A written double** is read as that double; of the values that are not numbers only one is
ever read. -/
theorem scalarHere_real {x : Double} (hnan : x.value = .notANumber → x = .nan)
    (h : EndsNumber rest) : scalarHere ((writtenReal x).toList ++ rest) = .ok (.real x, rest) := by
  rw [writtenReal]
  cases hx : x.value with
  | notANumber =>
    rw [hnan hx]
    rfl
  | infinite negative =>
    rw [Double.eq_infinity_of_value hx]
    cases negative <;> rfl
  | finite negative u =>
    obtain ⟨p, htext, hnumber⟩ := Double.exists_parts hx
    have hne : p.chars ≠ [] := by simp [Parts.chars, p.whole_ne_nil]
    simp only [htext, append_assoc]
    rw [scalarHere_signChars _ (by simp [hne]), numberHere_chars _ _ p h, hnumber]
    intro c hc
    rw [Parts.chars, append_assoc, head?_append_of_ne_nil _ p.whole_ne_nil] at hc
    exact p.isDigit_whole c (mem_of_mem_head? hc)

end ApkWorkshop.Document
