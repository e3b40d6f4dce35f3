import ApkWorkshop.Listing.Literal
import ApkWorkshop.Proofs.DoubleText

/-!
# Numbers as Literals

What the reader of literals makes of written numbers.
-/

namespace ApkWorkshop.Listing

open Text List Option Nat
open Double

variable {ds rest : List Char} {c : Char} {fuel : Nat}

theorem leadingDigits_append (hds : ∀ c ∈ ds, c.isDigit = true)
    (hrest : ∀ c ∈ rest.head?, c.isDigit = false) : leadingDigits (ds ++ rest) = (ds, rest) := by
  obtain ⟨htake, hdrop⟩ := span_append hds hrest
  rw [leadingDigits, htake, hdrop]

theorem exponentPart_of_endsNumber (h : EndsNumber rest) :
    exponentPart rest = (0, false, rest) := by
  unfold exponentPart
  split
  · exact absurd rfl (h 'e' (by simp)).2.2.1
  · exact absurd rfl (h 'E' (by simp)).2.2.2
  · rfl

theorem exponentPart_exponentChars {e : Option Int} (h : EndsNumber rest) :
    exponentPart (exponentChars e ++ rest) = (e.getD 0, e.isSome, rest) := by
  cases e with
  | none => exact exponentPart_of_endsNumber h
  | some e =>
    obtain ⟨hne, hdigit, hvalue⟩ := exponent_digits e.natAbs
    have hspan := leadingDigits_append hdigit fun c hc => (h c hc).1
    have hnumber : digitsNumber (padStart 2 '0' (decimal e.natAbs)).toList = e.natAbs := hvalue
    rw [exponentChars]
    generalize (padStart 2 '0' (decimal e.natAbs)).toList = ds at *
    have hempty : ds.isEmpty = false := by rwa [isEmpty_eq_false_iff]
    rcases Int.lt_or_le e 0 with he | he
    · simp only [exponentPart, if_pos he, cons_append, hspan, hempty, hnumber, Bool.false_eq_true,
        if_false, if_true, getD_some, isSome_some, Prod.mk.injEq, and_true]
      omega
    · simp only [exponentPart, if_neg (not_lt.mpr he), cons_append, hspan, hempty, hnumber,
        Bool.false_eq_true, if_false, getD_some, isSome_some, Prod.mk.injEq, and_true]
      omega

/-- **The parts of a number** are read as the double they stand for. -/
theorem number?_chars (p : Parts) (h : EndsNumber rest) :
    number? (p.chars ++ rest) = some (.real (p.number false), rest) := by
  have hexp := exponentPart_exponentChars (e := p.exponent) h
  have hhead := head?_exponentChars_append (e := p.exponent) h
  have hwhole : p.whole.isEmpty = false := by
    rw [isEmpty_eq_false_iff]; exact p.whole_ne_nil
  have hnumber : digitsNumber = digitsValue := rfl
  by_cases hf : p.fraction = []
  · have hscaled : p.exponent.isSome = true := by
      rcases p.pointed_or_scaled with h | h
      · exact absurd hf h
      · exact h
    have hspan := leadingDigits_append p.isDigit_whole fun c hc => (hhead c hc).1
    have hpoint : ∀ r, exponentChars p.exponent ++ rest ≠ '.' :: r := by
      intro r hr
      exact (hhead '.' (by simp [hr])).2 rfl
    simp only [Parts.chars, hf, if_true, nil_append, append_assoc, number?, hspan]
    simp [hwhole, hexp, hscaled, Parts.number, hf, hnumber]
  · have hspan : leadingDigits (p.whole ++ '.' :: (p.fraction ++ (exponentChars p.exponent ++ rest)))
        = (p.whole, '.' :: (p.fraction ++ (exponentChars p.exponent ++ rest))) :=
      leadingDigits_append p.isDigit_whole fun c hc => by
        obtain rfl : '.' = c := by simpa using hc
        decide
    have hspan' := leadingDigits_append p.isDigit_fraction fun c hc => (hhead c hc).1
    simp [Parts.chars, hf, number?, hspan, hspan', hwhole, hexp, Parts.number, hnumber]

theorem number?_toDigits (n : Nat) (h : EndsNumber rest) :
    number? (toDigits 10 n ++ rest) = some (.whole n, rest) := by
  have hspan := leadingDigits_append (fun c (hc : c ∈ toDigits 10 n) => isDigit_of_mem_toDigits hc)
    (fun c hc => (h c hc).1)
  have hvalue : digitsNumber (toDigits 10 n) = n := digitsValue_toDigits n
  have hlead : ((toDigits 10 n).head? != some '0' || (toDigits 10 n).all (· == '0')) = true := by
    rcases Nat.eq_zero_or_pos n with rfl | hpos
    · decide
    · simp [head?_toDigits_ne hpos]
  rw [number?, hspan]
  simp only
  split
  · rename_i r
    exact absurd rfl (h '.' (by simp)).2.1
  · simp [toDigits_ne_nil, exponentPart_of_endsNumber h, hlead, hvalue]

/-! ### Values -/

theorem skipSpaces_of_isDigit (hc : c.isDigit = true) (cs : List Char) :
    skipSpaces (c :: cs) = c :: cs := by
  have hspace : c ≠ ' ' := ne_of_isDigit hc (by decide)
  have htab : c ≠ '\t' := ne_of_isDigit hc (by decide)
  have hcomment : c ≠ '#' := ne_of_isDigit hc (by decide)
  rw [skipSpaces, dropWhile_cons_of_neg (by simp [hspace, htab])]
  split
  · rename_i heq
    exact absurd (List.cons.inj heq).1 hcomment
  · rfl

theorem item?_of_number? {cs : List Char} {s : Scalar} (hfuel : 0 < fuel) (hc : c.isDigit = true)
    (hnumber : number? (c :: cs) = some (s, rest)) (hrest : ∀ d ∈ rest.head?, isWordChar d = false)
    (hs : (∃ n, s = .whole n) ∨ ∃ x, s = .real x) :
    item? fuel (c :: cs) = some (s, skipSpaces rest) := by
  obtain ⟨fuel, rfl⟩ : ∃ k, fuel = k + 1 := ⟨fuel - 1, by omega⟩
  have hsingle : c ≠ '\'' := ne_of_isDigit hc (by decide)
  have hdouble : c ≠ '"' := ne_of_isDigit hc (by decide)
  have hminus : c ≠ '-' := ne_of_isDigit hc (by decide)
  have hplus : c ≠ '+' := ne_of_isDigit hc (by decide)
  have hany : rest.head?.any isWordChar = false := by
    cases rest with
    | nil => rfl
    | cons d rest => simpa using hrest d (by simp)
  have hatom : atom? (c :: cs) = some (s, rest) := by
    simp [atom?, hsingle, hdouble, hc, hnumber, Option.filter, hany]
  rw [item?, skipSpaces_of_isDigit hc]
  split
  · rename_i heq
    exact absurd (List.cons.inj heq).1 hminus
  · rename_i heq
    exact absurd (List.cons.inj heq).1 hplus
  · rcases hs with ⟨n, rfl⟩ | ⟨x, rfl⟩ <;> simp [hatom]

theorem exists_cons_of_isDigit (hne : ds ≠ []) (hds : ∀ c ∈ ds, c.isDigit = true)
    (rest : List Char) : ∃ c cs, ds ++ rest = c :: cs ∧ c.isDigit = true := by
  cases ds with
  | nil => exact absurd rfl hne
  | cons c ds => exact ⟨c, ds ++ rest, rfl, hds c (by simp)⟩

theorem item?_toDigits {fuel : Nat} (hfuel : 0 < fuel) (n : Nat) {rest : List Char}
    (hends : EndsNumber rest) (hrest : ∀ d ∈ rest.head?, isWordChar d = false) :
    item? fuel (toDigits 10 n ++ rest) = some (.whole n, skipSpaces rest) := by
  have hnumber := number?_toDigits n hends
  obtain ⟨c, cs, hcs, hc⟩ := exists_cons_of_isDigit (@Nat.toDigits_ne_nil n 10)
    (fun c hc => isDigit_of_mem_toDigits hc) rest
  rw [hcs] at hnumber ⊢
  exact item?_of_number? hfuel hc hnumber hrest (Or.inl ⟨_, rfl⟩)

/-- **A finite double is a literal**: its text stands for it. -/
theorem readLiteral_double {x : Double} {negative : Bool} {u : Nat}
    (h : x.value = .finite negative u) : readLiteral x.text.toList = .ok (.single (.real x)) := by
  obtain ⟨p, htext, hx⟩ := exists_parts h
  have hends : EndsNumber [] := by simp [EndsNumber]
  have hnumber := number?_chars p hends
  obtain ⟨c, cs, hcs, hc⟩ := exists_cons_of_isDigit p.whole_ne_nil p.isDigit_whole
    ((if p.fraction = [] then [] else '.' :: p.fraction) ++ exponentChars p.exponent)
  have hchars : p.chars = c :: cs := hcs
  have hitem : ∀ fuel, 0 < fuel → item? fuel p.chars = some (.real (p.number false), []) := by
    intro fuel hfuel
    rw [append_nil, hchars] at hnumber
    rw [hchars]
    exact item?_of_number? hfuel hc hnumber (by simp) (Or.inr ⟨_, rfl⟩)
  cases negative with
  | false =>
    have hread : item? (x.text.toList.length + 1) x.text.toList = some (.real x, []) := by
      rw [htext]
      exact hx ▸ hitem _ (by omega)
    simp [readLiteral, parseLiteral?, hread, Literal.hasName, Scalar.isName]
  | true =>
    have hneg : (p.number false).neg = x := by rw [← hx]; exact neg_ofDecimal _ _
    have hread : item? (x.text.toList.length + 1) x.text.toList = some (.real x, []) := by
      rw [htext]
      change item? _ ('-' :: p.chars) = _
      rw [item?, show skipSpaces ('-' :: p.chars) = '-' :: p.chars by simp [skipSpaces]]
      simp [hitem, Scalar.negated, hneg, signChars]
    simp [readLiteral, parseLiteral?, hread, Literal.hasName, Scalar.isName]

theorem readLiteral_decimal (n : Nat) :
    readLiteral (decimal n).toList = .ok (.single (.whole n)) := by
  have hitem : ∀ fuel, 0 < fuel → item? fuel (toDigits 10 n) = some (.whole n, []) := by
    intro fuel hfuel
    have := @item?_toDigits _ hfuel n [] (by simp [EndsNumber]) (by simp)
    rwa [append_nil] at this
  simp [readLiteral, parseLiteral?, hitem, Literal.hasName, Scalar.isName]

/-! ### Lists -/

theorem comma_ends (rest : List Char) :
    EndsNumber (',' :: rest) ∧ (∀ d ∈ (',' :: rest).head?, isWordChar d = false) ∧
      skipSpaces (',' :: rest) = ',' :: rest := by
  refine ⟨fun c hc => ?_, fun c hc => ?_, by simp [skipSpaces]⟩
  all_goals
    obtain rfl : ',' = c := by simpa using hc
    decide

theorem item?_joinWith {fuel : Nat} (hfuel : 0 < fuel) (n : Nat) (ns : List Nat) :
    item? fuel (joinWith ", " ((n :: ns).map decimal)).toList =
      some (.whole n, if ns = [] then [] else
        ',' :: ' ' :: (joinWith ", " (ns.map decimal)).toList) := by
  cases ns with
  | nil =>
    have := @item?_toDigits fuel hfuel n [] (by simp [EndsNumber]) (by simp)
    simpa [joinWith, skipSpaces] using this
  | cons m ns =>
    obtain ⟨hends, hword, hskip⟩ :=
      comma_ends (' ' :: (joinWith ", " ((m :: ns).map decimal)).toList)
    have := item?_toDigits hfuel n hends hword
    rw [map_cons, toList_joinWith_cons (by simp), toList_decimal]
    exact this

theorem moreItems?_joinWith {ns : List Nat} (hne : ns ≠ []) (hfuel : ns.length ≤ fuel) :
    moreItems? fuel (' ' :: (joinWith ", " (ns.map decimal)).toList) =
      some (ns.map fun n : Nat => .whole n) := by
  induction ns generalizing fuel with
  | nil => exact absurd rfl hne
  | cons n ns ih =>
    obtain ⟨fuel, rfl⟩ : ∃ k, fuel = k + 1 := ⟨fuel - 1, by simp at hfuel; omega⟩
    have hitem : ∀ fuel, 0 < fuel → _ := fun fuel hfuel => @item?_joinWith fuel hfuel n ns
    -- the numbers begin with a digit, so only the one space is skipped
    obtain ⟨c, cs, hcs, hc⟩ : ∃ c cs,
        (joinWith ", " ((n :: ns).map decimal)).toList = c :: cs ∧ c.isDigit = true := by
      cases ns with
      | nil =>
        have := exists_cons_of_isDigit (@Nat.toDigits_ne_nil n 10)
          (fun c hc => isDigit_of_mem_toDigits hc) []
        simpa [joinWith] using this
      | cons m ns =>
        rw [map_cons, toList_joinWith_cons (by simp), toList_decimal]
        exact exists_cons_of_isDigit toDigits_ne_nil (fun c hc => isDigit_of_mem_toDigits hc) _
    have hskip : skipSpaces (' ' :: c :: cs) = c :: cs := by
      have h := skipSpaces_of_isDigit hc cs
      rwa [skipSpaces] at h ⊢
    rw [hcs, moreItems?, hskip]
    simp only
    rw [← hcs, hitem _ (by omega)]
    cases ns with
    | nil => simp
    | cons m ns =>
      have hmore := @ih fuel (by simp) (by simpa using hfuel)
      simp only [bind_some, if_neg (cons_ne_nil m ns)]
      rw [hmore]
      rfl

theorem length_le_joinWith (ss : List String) :
    ss.length ≤ (joinWith ", " ss).toList.length + 1 := by
  induction ss with
  | nil => simp
  | cons s ss ih =>
    rcases eq_or_ne ss [] with rfl | hne
    · simp
    · rw [toList_joinWith_cons hne]
      have hcomma : ", ".toList.length = 2 := rfl
      simp only [length_cons, length_append]
      omega

/-- **Whole numbers with commas** between them are a list. -/
theorem readLiteral_wholes (n : Nat) {ns : List Nat} (hne : ns ≠ []) :
    readLiteral (joinWith ", " ((n :: ns).map decimal)).toList =
      .ok (.list ((n :: ns).map fun k : Nat => .whole k)) := by
  have hitem : ∀ fuel, 0 < fuel → _ :=
    fun fuel hfuel => @item?_joinWith fuel hfuel n ns
  have hlen : ns.length ≤ (' ' :: (joinWith ", " (ns.map decimal)).toList).length + 1 := by
    have := length_le_joinWith (ns.map decimal)
    simp only [length_map] at this
    simp only [length_cons]
    omega
  have hmore := moreItems?_joinWith hne hlen
  have hparse : parseLiteral? (joinWith ", " ((n :: ns).map decimal)).toList =
      some (.list ((n :: ns).map fun k : Nat => .whole k)) := by
    rw [parseLiteral?, hitem _ (by omega)]
    simp only [bind_some, if_neg hne, hmore, map_some, map_cons]
  have hname : (Literal.list ((n :: ns).map fun k : Nat => .whole k)).hasName = false := by
    simp [Literal.hasName, Scalar.isName]
  rw [readLiteral, hparse]
  simp only [hname, Bool.false_eq_true, if_false]

end ApkWorkshop.Listing
