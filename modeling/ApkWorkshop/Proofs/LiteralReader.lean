import ApkWorkshop.Proofs.EscapedText
import ApkWorkshop.Proofs.Numeral

/-!
# What a String Literal Denotes

The text between two double quotes is the body of a string literal if a reader gets through it
(`Reader.read`): raw bytes, escapes with a name, escapes with one to three digits, and ends of lines
behind a backslash. `denoted?` gives the bytes that a body denotes, and nothing for any other text.

What a character does to the reader is said once for each place where the reader can stand
(`run_text`, `run_escape`, `run_line`), and `denoted?_number` takes an escape with digits whole.
`Reader.length_le_room` bounds what a text can denote by a count that needs no reader. It changes by
at most one if a backslash is put in front (`room_bounds`), although the reader may then take every
later byte for something else.
-/

namespace ApkWorkshop.Lua

open Text List Nat Option

/-! ### What a literal denotes -/

/-- The escapes with a name: the character behind the backslash, and the byte they stand for. -/
def names : List (Char × UInt8) := [
  ('a', 7), ('b', 8), ('f', 12), ('n', 10), ('r', 13), ('t', 9), ('v', 11),
  ('\\', 92), ('"', 34), ('\'', 39)]

/-- The byte that a backslash and a character stand for, if the character is a name. -/
def named? (c : Char) : Option UInt8 :=
  (names.find? (·.1 = c)).map (·.2)

theorem mem_names_of_named? {c : Char} {x : UInt8} (h : named? c = some x) : (c, x) ∈ names := by
  obtain ⟨⟨d, y⟩, hfind, rfl⟩ := map_eq_some_iff.mp h
  obtain rfl : d = c := by simpa using find?_some hfind
  exact mem_of_find?_eq_some hfind

def digit? (b : UInt8) : Option Nat :=
  if 48 ≤ b.toNat ∧ b.toNat ≤ 57 then some (b.toNat - 48) else none

def EndsLine (b : UInt8) : Prop := b = 10 ∨ b = 13

instance (b : UInt8) : Decidable (EndsLine b) :=
  inferInstanceAs (Decidable (b = 10 ∨ b = 13))

/-- Where the reader of a body stands: in its text, behind a backslash, behind a byte that ended a
line in an escape, or behind the digits of an escape, with their number and value. -/
inductive Reader
  | text
  | escape
  | line (e : UInt8)
  | number (digits value : Nat)

namespace Reader

/-- Read a byte of the text: the bytes that are denoted so far, and where the reader stands then. -/
def readText (b : UInt8) : Option (List UInt8 × Reader) :=
  if b = 92 then some ([], .escape)
  else if b = 34 ∨ EndsLine b then none
  else some ([b], .text)

def readEscape (b : UInt8) : Option (List UInt8 × Reader) :=
  match named? (Char.ofNat b.toNat), digit? b with
  | some x, _ => some ([x], .text)
  | none, some d => some ([], .number 1 d)
  | none, none => if EndsLine b then some ([10], .line b) else none

/-- Read the byte behind an end of a line. Two different bytes that end a line end it together. -/
def readLine (e b : UInt8) : Option (List UInt8 × Reader) :=
  if EndsLine b ∧ b ≠ e then some ([], .text) else readText b

/-- Read the byte behind digits. An escape takes as many digits as it finds, at most three. -/
def readNumber (digits n : Nat) (b : UInt8) : Option (List UInt8 × Reader) :=
  match digit? b with
  | none => (readText b).map fun (made, next) => (n.toUInt8 :: made, next)
  | some d =>
    if digits < 2 then some ([], .number (digits + 1) (10 * n + d))
    else if 10 * n + d < 256 then some ([(10 * n + d).toUInt8], .text)
    else none

def read : Reader → UInt8 → Option (List UInt8 × Reader)
  | .text => readText
  | .escape => readEscape
  | .line e => readLine e
  | .number digits n => readNumber digits n

def finish : Reader → Option (List UInt8)
  | .text | .line _ => some []
  | .escape => none
  | .number _ n => some [n.toUInt8]

def denoted? : Reader → List UInt8 → Option (List UInt8)
  | s, [] => s.finish
  | s, b :: rest =>
    match s.read b with
    | some (made, next) => (denoted? next rest).map (made ++ ·)
    | none => none

/-- Read bytes: what they denote, and where the reader stands then. -/
def run : Reader → List UInt8 → Option (List UInt8 × Reader)
  | s, [] => some ([], s)
  | s, b :: rest =>
    match s.read b with
    | some (made, next) => (run next rest).map fun (others, last) => (made ++ others, last)
    | none => none

end Reader

/-- The bytes that the text between two double quotes denotes, if it is the body of a string. -/
def denoted? (body : List UInt8) : Option (List UInt8) :=
  Reader.text.denoted? body

def Raw (b : UInt8) : Prop := b ≠ 92 ∧ b ≠ 34 ∧ ¬ EndsLine b

instance (b : UInt8) : Decidable (Raw b) :=
  inferInstanceAs (Decidable (b ≠ 92 ∧ b ≠ 34 ∧ ¬ EndsLine b))

section

variable {b e : UInt8} {bs rest made : List UInt8} {s next : Reader}

theorem Reader.denoted?_cons (h : s.read b = some (made, next)) (rest : List UInt8) :
    s.denoted? (b :: rest) = (next.denoted? rest).map (made ++ ·) := by
  rw [Reader.denoted?, h]

theorem Reader.denoted?_silent (h : s.read b = some ([], next)) (rest : List UInt8) :
    s.denoted? (b :: rest) = next.denoted? rest := by
  rw [denoted?_cons h]
  simp

theorem Reader.denoted?_append (s : Reader) (bs rest : List UInt8) :
    s.denoted? (bs ++ rest) = (s.run bs).bind fun p => (p.2.denoted? rest).map (p.1 ++ ·) := by
  induction bs generalizing s with
  | nil => simp [run]
  | cons b bs ih =>
    rw [cons_append, Reader.denoted?, run]
    cases s.read b with
    | none => rfl
    | some result =>
      obtain ⟨made, next⟩ := result
      dsimp only
      rw [ih next]
      cases next.run bs <;> simp [Function.comp_def]

theorem Reader.exists_run (h : s.denoted? (bs ++ rest) = some made) :
    ∃ first next others, s.run bs = some (first, next) ∧ next.denoted? rest = some others ∧
      made = first ++ others := by
  rw [denoted?_append] at h
  obtain ⟨⟨first, next⟩, hrun, hmap⟩ := bind_eq_some_iff.mp h
  obtain ⟨others, hothers, rfl⟩ := map_eq_some_iff.mp hmap
  exact ⟨first, next, others, hrun, hothers, rfl⟩

theorem Reader.run_singleton (s : Reader) (b : UInt8) : s.run [b] = s.read b := by
  rw [run]
  cases s.read b <;> simp [run]

theorem Reader.read_line (h : ¬ (EndsLine b ∧ b ≠ e)) :
    (Reader.line e).read b = Reader.text.read b :=
  if_neg h

theorem read_raw (hb : Raw b) : Reader.text.read b = some ([b], .text) := by
  rw [Reader.read, Reader.readText, if_neg hb.1, if_neg (not_or.mpr hb.2)]

theorem run_raw (h : ∀ b ∈ bs, Raw b) : Reader.text.run bs = some (bs, .text) := by
  induction bs with
  | nil => rfl
  | cons b bs ih =>
    rw [Reader.run, read_raw (h b mem_cons_self)]
    dsimp only
    rw [ih fun c hc => h c (mem_cons_of_mem b hc)]
    rfl

theorem ne_backslash (hb : b = 34 ∨ EndsLine b) : b ≠ 92 := by
  rintro rfl
  revert hb
  decide

theorem read_refused (hb : b = 34 ∨ EndsLine b) : Reader.text.read b = none := by
  rw [Reader.read, Reader.readText, if_neg (ne_backslash hb), if_pos hb]

theorem Reader.denoted?_number (digits n : Nat) (h : ∀ d ∈ rest.head?, digit? d = none) :
    (Reader.number digits n).denoted? rest = (Lua.denoted? rest).map (n.toUInt8 :: ·) := by
  cases rest with
  | nil => rfl
  | cons b rest =>
    have hnext : (Reader.number digits n).read b =
        (Reader.text.read b).map fun (made, next) => (n.toUInt8 :: made, next) := by
      change Reader.readNumber digits n b = _
      rw [Reader.readNumber, h b rfl]
      rfl
    rw [Lua.denoted?, Reader.denoted?, hnext, Reader.denoted?]
    cases Reader.text.read b with
    | none => rfl
    | some result => simp [Function.comp_def]

end

/-! ### Characters and their bytes -/

section

variable {c : Char} {b : UInt8}

theorem encodeChar_of_lt (h : c.toNat < 128) : encodeChar c = [c.toNat.toUInt8] := by
  rw [encodeChar, if_pos h]

theorem ofNat_toUInt8 (h : c.toNat < 128) : Char.ofNat c.toNat.toUInt8.toNat = c := by
  rw [toNat_toUInt8 (by omega), Char.ofNat_toNat]

theorem le_of_mem_encodeChar (h : 128 ≤ c.toNat) (hb : b ∈ encodeChar c) : 128 ≤ b.toNat := by
  have hvalid := toNat_valid c
  rw [encodeChar] at hb
  split_ifs at hb <;> simp only [mem_cons, not_mem_nil, or_false] at hb
  · omega
  · rcases hb with rfl | rfl <;> rw [toNat_toUInt8] <;> omega
  · rcases hb with rfl | rfl | rfl <;> rw [toNat_toUInt8] <;> omega
  · rcases hb with rfl | rfl | rfl | rfl <;> rw [toNat_toUInt8] <;> omega

theorem raw_of_toNat (h : 48 ≤ b.toNat ∧ b.toNat ≤ 57 ∨ 128 ≤ b.toNat) : Raw b := by
  refine ⟨?_, ?_, ?_⟩
  · rintro rfl
    revert h
    decide
  · rintro rfl
    revert h
    decide
  · rintro (rfl | rfl) <;> revert h <;> decide

theorem digit?_of_isDigit (h : c.isDigit = true) {v : Nat} (hv : digitValue? c = some v) :
    encodeChar c = [c.toNat.toUInt8] ∧ digit? c.toNat.toUInt8 = some v := by
  obtain ⟨hlo, hhi⟩ := toNat_of_isDigit h
  rw [digitValue?_of_isDigit h] at hv
  refine ⟨encodeChar_of_lt (by omega), ?_⟩
  rw [digit?, toNat_toUInt8 (by omega), if_pos ⟨hlo, hhi⟩, hv]

theorem digit?_of_mem_encodeChar (h : c.isDigit = false) (hb : b ∈ encodeChar c) :
    digit? b = none := by
  rw [digit?, if_neg]
  rintro ⟨hlo, hhi⟩
  rcases lt_or_ge c.toNat 128 with hlt | hge
  · rw [encodeChar_of_lt hlt, mem_singleton] at hb
    rw [hb, toNat_toUInt8 (by omega)] at hlo hhi
    have hdigit : c.isDigit = true := by
      simp only [Char.isDigit, ge_iff_le, Bool.and_eq_true, decide_eq_true_eq]
      exact ⟨UInt32.le_iff_toNat_le.mpr hlo, UInt32.le_iff_toNat_le.mpr hhi⟩
    rw [hdigit] at h
    cases h
  · have := le_of_mem_encodeChar hge hb
    omega

theorem isDigit_eq_false (h : digitValue? c = none) : c.isDigit = false := by
  by_contra hdigit
  rw [digitValue?_of_isDigit (by simpa using hdigit)] at h
  cases h

theorem digit?_of_head? {cs : List Char} (h : ∀ d ∈ cs.head?, d.isDigit = false) :
    ∀ b ∈ (encodeChars cs).head?, digit? b = none := by
  intro b hb
  cases cs with
  | nil => cases hb
  | cons c cs =>
    rw [encodeChars_cons, head?_append_of_ne_nil _ (encodeChar_ne_nil c)] at hb
    exact digit?_of_mem_encodeChar (h c rfl) (mem_of_mem_head? hb)

theorem NoDigitFirst.digit? {cs : List Char} (h : NoDigitFirst cs) :
    ∀ b ∈ (encodeChars cs).head?, digit? b = none :=
  digit?_of_head? fun d hd => isDigit_eq_false (h d hd)

theorem raw_of_digitValue? {v : Nat} (h : digitValue? c = some v) (hb : b ∈ encodeChar c) :
    Raw b := by
  rcases lt_or_ge c.toNat 128 with hlt | hge
  · rw [encodeChar_of_lt hlt, mem_singleton] at hb
    rw [digitValue?, if_pos hlt] at h
    split_ifs at h with hdigit
    rw [Bool.and_eq_true, decide_eq_true_eq, decide_eq_true_eq] at hdigit
    rw [hb]
    refine raw_of_toNat (.inl ?_)
    rwa [toNat_toUInt8 (by omega)]
  · exact raw_of_toNat (.inr (le_of_mem_encodeChar hge hb))

theorem of_named? {x : UInt8} (h : named? c = some x) : c.toNat < 128 ∧ digitValue? c = none :=
  have hnames : ∀ name ∈ names, name.1.toNat < 128 ∧ digitValue? name.1 = none := by decide
  hnames (c, x) (mem_names_of_named? h)

/-- **A character of the text** begins an escape, or it denotes itself. -/
theorem run_text {made : List UInt8} {next : Reader}
    (h : Reader.text.run (encodeChar c) = some (made, next)) :
    c = '\\' ∧ made = [] ∧ next = .escape ∨
      made = encodeChar c ∧ next = .text ∧ ∀ b ∈ encodeChar c, Raw b := by
  rcases lt_or_ge c.toNat 128 with hlt | hge
  · have hback := ofNat_toUInt8 hlt
    rw [encodeChar_of_lt hlt] at h ⊢
    rw [Reader.run_singleton, Reader.read, Reader.readText] at h
    split_ifs at h with hbackslash hrefused
    · cases h
      rw [hbackslash] at hback
      exact .inl ⟨hback.symm, rfl, rfl⟩
    · cases h
      exact .inr ⟨rfl, rfl, forall_mem_singleton.mpr ⟨hbackslash, not_or.mp hrefused⟩⟩
  · have hraw : ∀ b ∈ encodeChar c, Raw b := fun b hb =>
      raw_of_toNat (.inr (le_of_mem_encodeChar hge hb))
    rw [run_raw hraw] at h
    cases h
    exact .inr ⟨rfl, rfl, hraw⟩

/-- **A character behind a backslash**, if it is no ASCII digit, is a name or ends a line. -/
theorem run_escape {made : List UInt8} {next : Reader} (hdigit : c.isDigit = false)
    (h : Reader.escape.run (encodeChar c) = some (made, next)) :
    ∃ e, encodeChar c = [e] ∧ ((∃ y, named? c = some y ∧ made = [y] ∧ next = .text) ∨
      EndsLine e ∧ made = [10] ∧ next = .line e) := by
  obtain ⟨e, es, hbytes⟩ := exists_cons_of_ne_nil (encodeChar_ne_nil c)
  have hmem : e ∈ encodeChar c := hbytes ▸ mem_cons_self
  have hvalue := digit?_of_mem_encodeChar hdigit hmem
  rcases lt_or_ge c.toNat 128 with hlt | hge
  · rw [encodeChar_of_lt hlt, mem_singleton] at hmem
    rw [encodeChar_of_lt hlt, ← hmem] at h ⊢
    rw [Reader.run_singleton, Reader.read, Reader.readEscape, hvalue, hmem, ofNat_toUInt8 hlt,
      ← hmem] at h
    refine ⟨e, rfl, ?_⟩
    cases hname : named? c with
    | some y =>
      rw [hname] at h
      cases h
      exact .inl ⟨y, rfl, rfl, rfl⟩
    | none =>
      rw [hname] at h
      split_ifs at h with hline
      cases h
      exact .inr ⟨hline, rfl, rfl⟩
  · -- the bytes of other characters are no names
    have hbyte := le_of_mem_encodeChar hge hmem
    have hchar : (Char.ofNat e.toNat).toNat = e.toNat :=
      toNat_ofNat_of_valid (.inl (e.toNat_lt.trans (by decide)))
    have hunnamed : named? (Char.ofNat e.toNat) = none := by
      refine eq_none_iff_forall_ne_some.mpr fun x hx => ?_
      have := (of_named? hx).1
      omega
    have hread : Reader.escape.read e = none := by
      rw [Reader.read, Reader.readEscape, hvalue, hunnamed]
      exact if_neg (raw_of_toNat (.inr hbyte)).2.2
    rw [hbytes, Reader.run, hread] at h
    cases h

/-- **A character behind the end of a line** belongs to it, or to the text. -/
theorem run_line {e : UInt8} {made : List UInt8} {next : Reader}
    (h : (Reader.line e).run (encodeChar c) = some (made, next)) :
    (∃ f, encodeChar c = [f] ∧ EndsLine f ∧ made = [] ∧ next = .text) ∨
      Reader.text.run (encodeChar c) = some (made, next) := by
  obtain ⟨f, fs, hbytes⟩ := exists_cons_of_ne_nil (encodeChar_ne_nil c)
  by_cases hpair : EndsLine f ∧ f ≠ e
  · have hlt : c.toNat < 128 := by
      by_contra hge
      exact (raw_of_toNat (.inr (le_of_mem_encodeChar (not_lt.mp hge)
        (hbytes ▸ mem_cons_self)))).2.2 hpair.1
    rw [encodeChar_of_lt hlt] at hbytes h ⊢
    cases hbytes
    rw [Reader.run_singleton, Reader.read, Reader.readLine, if_pos hpair] at h
    cases h
    exact .inl ⟨_, rfl, hpair.1, rfl, rfl⟩
  · right
    rw [hbytes, Reader.run, Reader.read_line hpair] at h
    rw [hbytes, Reader.run, h]

theorem denoted?_escape_digit {v : Nat} (hc : c.isDigit = true) (hv : digitValue? c = some v)
    (rest : List UInt8) :
    Reader.escape.denoted? (encodeChar c ++ rest) = (Reader.number 1 v).denoted? rest := by
  obtain ⟨hbyte, hdigit⟩ := digit?_of_isDigit hc hv
  have hname : named? c = none := by
    by_contra hsome
    obtain ⟨x, hx⟩ := ne_none_iff_exists'.mp hsome
    rw [(of_named? hx).2] at hv
    cases hv
  have hlt : c.toNat < 128 := by
    have := toNat_of_isDigit hc
    omega
  have hread : Reader.escape.read c.toNat.toUInt8 = some ([], .number 1 v) := by
    rw [Reader.read, Reader.readEscape, ofNat_toUInt8 hlt, hname, hdigit]
  rw [hbyte, singleton_append, Reader.denoted?_cons hread]
  simp

theorem denoted?_second_digit {v n : Nat} (hc : c.isDigit = true) (hv : digitValue? c = some v)
    (rest : List UInt8) : (Reader.number 1 n).denoted? (encodeChar c ++ rest) =
      (Reader.number 2 (10 * n + v)).denoted? rest := by
  obtain ⟨hbyte, hdigit⟩ := digit?_of_isDigit hc hv
  have hread : (Reader.number 1 n).read c.toNat.toUInt8 = some ([], .number 2 (10 * n + v)) := by
    rw [Reader.read, Reader.readNumber, hdigit]
    rfl
  rw [hbyte, singleton_append, Reader.denoted?_cons hread]
  simp

theorem denoted?_third_digit {v n : Nat} (hc : c.isDigit = true) (hv : digitValue? c = some v)
    (hn : 10 * n + v < 256) (rest : List UInt8) :
    (Reader.number 2 n).denoted? (encodeChar c ++ rest) =
      (denoted? rest).map ((10 * n + v).toUInt8 :: ·) := by
  obtain ⟨hbyte, hdigit⟩ := digit?_of_isDigit hc hv
  have hread : (Reader.number 2 n).read c.toNat.toUInt8 = some ([(10 * n + v).toUInt8], .text) := by
    rw [Reader.read, Reader.readNumber, hdigit]
    exact if_pos hn
  rw [hbyte, singleton_append, Reader.denoted?_cons hread]
  rfl

end

/-- **An escape with digits**, as the reader of a body takes it. -/
theorem denoted?_number {ds : List Char} {n : Nat} (hds : Numeral ds n)
    (hascii : ∀ d ∈ ds, d.isDigit = true) (hn : n < 256) {rest : List UInt8}
    (hend : ds.length = 3 ∨ ∀ b ∈ rest.head?, digit? b = none) :
    Reader.escape.denoted? (encodeChars ds ++ rest) = (denoted? rest).map (n.toUInt8 :: ·) := by
  cases hds with
  | one h₁ =>
    have hrest := hend.resolve_left (by simp)
    simp only [forall_mem_cons] at hascii
    simp only [encodeChars_cons, encodeChars_nil, append_assoc, nil_append]
    rw [denoted?_escape_digit hascii.1 h₁, Reader.denoted?_number 1 _ hrest]
  | two h₁ h₂ =>
    have hrest := hend.resolve_left (by simp)
    simp only [forall_mem_cons] at hascii
    simp only [encodeChars_cons, encodeChars_nil, append_assoc, nil_append]
    rw [denoted?_escape_digit hascii.1 h₁, denoted?_second_digit hascii.2.1 h₂,
      Reader.denoted?_number 2 _ hrest]
  | @three d₁ d₂ d₃ a b c h₁ h₂ h₃ =>
    simp only [forall_mem_cons] at hascii
    have hvalue : 10 * (10 * a + b) + c = 100 * a + 10 * b + c := by ring
    simp only [encodeChars_cons, encodeChars_nil, append_assoc, nil_append]
    rw [denoted?_escape_digit hascii.1 h₁, denoted?_second_digit hascii.2.1 h₂,
      denoted?_third_digit hascii.2.2.1 h₃ (hvalue ▸ hn), hvalue]

/-! ### An upper bound -/

/-- How many bytes a text can denote at most, also if it is read from behind a backslash in front of
it. What no body may hold as it is counts for nothing. -/
def room : Bool → List UInt8 → Nat
  | _, [] => 0
  | true, _ :: rest => 1 + room false rest
  | false, b :: rest =>
    if b = 92 then room true rest
    else if b = 34 ∨ EndsLine b then room false rest
    else 1 + room false rest

section

variable {b : UInt8} {bs rest : List UInt8}

theorem room_backslash (rest : List UInt8) : room false (92 :: rest) = room true rest := by
  rw [room, if_pos rfl]

theorem room_refused (h : b = 34 ∨ EndsLine b) (rest : List UInt8) :
    room false (b :: rest) = room false rest := by
  rw [room, if_neg (ne_backslash h), if_pos h]

theorem room_raw (h : Raw b) (rest : List UInt8) :
    room false (b :: rest) = 1 + room false rest := by
  rw [room, if_neg h.1, if_neg (not_or.mpr h.2)]

theorem room_bounds (rest : List UInt8) :
    room false rest ≤ room true rest ∧ room true rest ≤ room false rest + 1 := by
  induction rest with
  | nil => exact ⟨le_refl 0, zero_le 1⟩
  | cons b rest ih =>
    rw [room, room]
    split_ifs <;> omega

theorem room_cons_bounds (b : UInt8) (rest : List UInt8) :
    room false rest ≤ room false (b :: rest) ∧ room false (b :: rest) ≤ 1 + room false rest := by
  have hbounds := room_bounds rest
  rw [room]
  split_ifs <;> omega

theorem room_append_raw (h : ∀ b ∈ bs, Raw b) (rest : List UInt8) :
    room false (bs ++ rest) = bs.length + room false rest := by
  induction bs with
  | nil => simp
  | cons b bs ih =>
    rw [cons_append, room_raw (h b mem_cons_self),
      ih fun c hc => h c (mem_cons_of_mem b hc), length_cons]
    omega

theorem room_true_append_raw (h : ∀ b ∈ bs, Raw b) (hne : bs ≠ []) (rest : List UInt8) :
    room true (bs ++ rest) = bs.length + room false rest := by
  obtain ⟨b, bs, rfl⟩ := exists_cons_of_ne_nil hne
  rw [cons_append, room, room_append_raw fun c hc => h c (mem_cons_of_mem b hc), length_cons]
  omega

end

namespace Reader

/-- How many bytes can be denoted from where the reader stands. -/
def room : Reader → List UInt8 → Nat
  | .text, rest | .line _, rest => Lua.room false rest
  | .escape, rest => Lua.room true rest
  | .number _ _, rest => 1 + Lua.room false rest

theorem room_readText {b : UInt8} {made : List UInt8} {next : Reader}
    (h : readText b = some (made, next)) (rest : List UInt8) :
    made.length + next.room rest ≤ Lua.room false (b :: rest) := by
  rw [readText] at h
  split_ifs at h with hb hrefused
  · cases h
    rw [hb, room_backslash]
    simp [room]
  · cases h
    rw [room_raw ⟨hb, not_or.mp hrefused⟩]
    exact le_refl _

theorem room_read {s next : Reader} {b : UInt8} {made : List UInt8}
    (h : s.read b = some (made, next)) (rest : List UInt8) :
    made.length + next.room rest ≤ s.room (b :: rest) := by
  cases s with
  | text => exact room_readText h rest
  | escape =>
    rw [read, readEscape] at h
    split at h
    · cases h
      exact le_refl _
    · cases h
      simp [room, Lua.room]
    · split_ifs at h
      cases h
      exact le_refl _
  | line e =>
    rw [read, readLine] at h
    split_ifs at h with hline
    · cases h
      simp only [room, room_refused (.inr hline.1)]
      simp
    · exact room_readText h rest
  | number digits n =>
    have hnumber : (Reader.number digits n).room (b :: rest) = 1 + Lua.room false (b :: rest) := rfl
    have hcons := room_cons_bounds b rest
    rw [read, readNumber] at h
    split at h
    · obtain ⟨⟨first, after⟩, htext, hnext⟩ := map_eq_some_iff.mp h
      cases hnext
      have hroom := room_readText htext rest
      rw [length_cons]
      omega
    · split_ifs at h <;> cases h <;>
        simp only [length_nil, length_singleton, room] <;> omega

theorem length_le_room {s : Reader} {body bs : List UInt8} (h : s.denoted? body = some bs) :
    bs.length ≤ s.room body := by
  induction body generalizing s bs with
  | nil =>
    cases s <;> simp only [denoted?, finish] at h <;> cases h <;> simp [room, Lua.room]
  | cons b rest ih =>
    rw [denoted?] at h
    split at h
    · rename_i made next hread
      obtain ⟨others, hothers, rfl⟩ := map_eq_some_iff.mp h
      have hrest := ih hothers
      have hstep := room_read hread rest
      rw [length_append]
      omega
    · cases h

end Reader

end ApkWorkshop.Lua
