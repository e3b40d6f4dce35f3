import ApkWorkshop.Proofs.DocumentValues

/-!
# Documents Are Read as They Were Written

A storable value that is written as a document, with line breaks or without, is read as the same
value.
-/

namespace ApkWorkshop.Document

open Text List
open Value (Layout written writtenItems writtenMembers writtenText writtenChar)
open Double (EndsNumber)

variable {blanks : List Char} {c : Char} {layout : Layout} {v : Value} {vs : List Value}
  {ms : List (String × Value)}

/-! ### Blanks -/

/-- Is a character one of the blanks that documents may hold between their parts? -/
def isSpace (c : Char) : Bool :=
  c == ' ' || c == '\t' || c == '\n' || c == '\r'

theorem skipBlanks_append (h : ∀ c ∈ blanks, isSpace c = true) (rest : List Char) :
    skipBlanks (blanks ++ rest) = skipBlanks rest := by
  show dropWhile isSpace (blanks ++ rest) = dropWhile isSpace rest
  rw [dropWhile_append_of_pos h]

theorem skipBlanks_cons (h : isSpace c = false) (cs : List Char) :
    skipBlanks (c :: cs) = c :: cs := by
  rw [skipBlanks, dropWhile_cons_of_neg]
  rwa [← Bool.not_eq_true] at h

/-- A layout that puts nothing but blanks between the parts of a document. -/
structure Spaced (layout : Layout) : Prop where
  comma : layout.comma = ","
  colon : ∃ blanks, layout.colon.toList = ':' :: blanks ∧ ∀ c ∈ blanks, isSpace c = true
  newline : ∀ level, ∀ c ∈ (layout.newline level).toList, isSpace c = true

theorem spaced_indented (width : Nat) : Spaced (.indented width) where
  comma := rfl
  colon := ⟨[' '], by simp [Layout.indented], by simp [isSpace]⟩
  newline level c hc := by
    simp only [Layout.indented, String.toList_append, String.toList_ofList] at hc
    rcases mem_append.mp hc with hc | hc
    · obtain rfl : c = '\n' := by simpa using hc
      decide
    · rw [eq_of_mem_replicate hc]
      decide

/-! ### The characters of written values -/

theorem toList_writtenText (s : String) :
    (writtenText s).toList = '"' :: (s.toList.flatMap writtenChar ++ ['"']) := by
  rw [writtenText, String.toList_ofList]
  rfl

theorem toList_written_list (layout : Layout) (level : Nat) (v : Value) (vs : List Value) :
    ((Value.list (v :: vs)).written layout level).toList =
      '[' :: ((layout.newline (level + 1)).toList ++ ((v.written layout (level + 1)).toList ++
        ((writtenItems layout (level + 1) vs).toList ++
          ((layout.newline level).toList ++ [']'])))) := by
  simp [written]

theorem toList_written_object (layout : Layout) (level : Nat) (name : String) (v : Value)
    (members : List (String × Value)) :
    ((Value.object ((name, v) :: members)).written layout level).toList =
      '{' :: ((layout.newline (level + 1)).toList ++ ((writtenText name).toList ++
        (layout.colon.toList ++ ((v.written layout (level + 1)).toList ++
          ((writtenMembers layout (level + 1) members).toList ++
            ((layout.newline level).toList ++ ['}'])))))) := by
  simp [written]

theorem toList_writtenItems (hl : Spaced layout) (level : Nat) (v : Value) (vs : List Value) :
    (writtenItems layout level (v :: vs)).toList =
      ',' :: ((layout.newline level).toList ++ ((v.written layout level).toList ++
        (writtenItems layout level vs).toList)) := by
  simp [writtenItems, hl.comma]

theorem toList_writtenMembers (hl : Spaced layout) (level : Nat) (name : String) (v : Value)
    (members : List (String × Value)) :
    (writtenMembers layout level ((name, v) :: members)).toList =
      ',' :: ((layout.newline level).toList ++ ((writtenText name).toList ++
        (layout.colon.toList ++ ((v.written layout level).toList ++
          (writtenMembers layout level members).toList)))) := by
  simp [writtenMembers, hl.comma]

/-! ### The first character -/

theorem head_signChars {negative : Bool} {ds : List Char} (hne : ds ≠ [])
    (hdigit : ∀ c ∈ ds, c.isDigit = true) (rest : List Char) :
    ∃ c cs, Double.signChars negative ++ (ds ++ rest) = c :: cs ∧ (c.isDigit = true ∨ c = '-') := by
  obtain ⟨d, ds, rfl⟩ := exists_cons_of_ne_nil hne
  cases negative with
  | false => exact ⟨d, ds ++ rest, rfl, Or.inl (hdigit d (by simp))⟩
  | true => exact ⟨'-', d :: ds ++ rest, rfl, Or.inr rfl⟩

def BeginsScalar (c : Char) : Prop :=
  c.isDigit = true ∨ c ∈ ['n', 't', 'f', 'N', 'I', '-']

def Begins : Value → Char → Prop
  | .text _, c => c = '"'
  | .list _, c => c = '['
  | .object _, c => c = '{'
  | _, c => BeginsScalar c

theorem head_written (layout : Layout) (level : Nat) (v : Value) :
    ∃ c cs, (v.written layout level).toList = c :: cs ∧ Begins v c := by
  have hnumber : ∀ {text : String}, (∃ c cs, text.toList = c :: cs ∧ (c.isDigit = true ∨ c = '-')) →
      ∃ c cs, text.toList = c :: cs ∧ BeginsScalar c := by
    rintro text ⟨c, cs, htext, hc⟩
    exact ⟨c, cs, htext, hc.imp_right (by rintro rfl; simp)⟩
  cases v with
  | null => exact ⟨'n', ['u', 'l', 'l'], by simp [written], by simp [Begins, BeginsScalar]⟩
  | truth b =>
    cases b with
    | false => exact ⟨'f', ['a', 'l', 's', 'e'], by simp [written], by simp [Begins, BeginsScalar]⟩
    | true => exact ⟨'t', ['r', 'u', 'e'], by simp [written], by simp [Begins, BeginsScalar]⟩
  | whole n =>
    apply hnumber
    rw [written, toList_decimalInt]
    split
    · exact ⟨'-', _, rfl, Or.inr rfl⟩
    · obtain ⟨d, ds, hds⟩ := exists_cons_of_ne_nil
        (Nat.toDigits_ne_nil : Nat.toDigits 10 n.natAbs ≠ [])
      exact ⟨d, ds, hds, Or.inl (isDigit_of_mem_toDigits (by rw [hds]; simp))⟩
  | real x =>
    rw [written, Value.writtenReal]
    cases hx : x.value with
    | notANumber => exact ⟨'N', ['a', 'N'], by simp, by simp [Begins, BeginsScalar]⟩
    | infinite negative =>
      cases negative with
      | false =>
        exact ⟨'I', ['n', 'f', 'i', 'n', 'i', 't', 'y'], by simp, by simp [Begins, BeginsScalar]⟩
      | true =>
        exact ⟨'-', ['I', 'n', 'f', 'i', 'n', 'i', 't', 'y'], by simp,
          by simp [Begins, BeginsScalar]⟩
    | finite negative u =>
      apply hnumber
      obtain ⟨p, htext, -⟩ := Double.exists_parts hx
      simp only [htext]
      exact head_signChars p.whole_ne_nil p.isDigit_whole _
  | text s => exact ⟨'"', _, by rw [written, toList_writtenText], rfl⟩
  | list items =>
    cases items with
    | nil => exact ⟨'[', [']'], by simp [written], rfl⟩
    | cons w ws =>
      exact ⟨'[', _, toList_written_list layout level w ws, rfl⟩
  | object members =>
    cases members with
    | nil => exact ⟨'{', ['}'], by simp [written], rfl⟩
    | cons p members =>
      exact ⟨'{', _, toList_written_object layout level p.1 p.2 members, rfl⟩

theorem head_written_ne (layout : Layout) (level : Nat) (v : Value) :
    ∃ c cs, (v.written layout level).toList = c :: cs ∧ isSpace c = false ∧ c ≠ ']' ∧ c ≠ '}' ∧
      c ≠ '\uFEFF' := by
  obtain ⟨c, cs, hcs, hbegins⟩ := head_written layout level v
  refine ⟨c, cs, hcs, ?_⟩
  have hc : c.isDigit = true ∨ c ∈ ['n', 't', 'f', 'N', 'I', '-', '"', '[', '{'] := by
    cases v with
    | text s | list items | object members => exact Or.inr (by simp [show c = _ from hbegins])
    | null | truth b | whole n | real x =>
      exact Or.imp_right (fun h => mem_append_left ['"', '[', '{'] h) hbegins
  rcases hc with hc | hc
  · have hne : ∀ d : Char, d.isDigit = false → c ≠ d := fun d hd => ne_of_isDigit hc hd
    refine ⟨?_, hne _ (by decide), hne _ (by decide), hne _ (by decide)⟩
    simp [isSpace, hne ' ' (by decide), hne '\t' (by decide), hne '\n' (by decide),
      hne '\r' (by decide)]
  · simp only [mem_cons, not_mem_nil, or_false] at hc
    rcases hc with rfl | rfl | rfl | rfl | rfl | rfl | rfl | rfl | rfl <;> decide

/-! ### Reading what was written -/

/-- Is a value read from its written form, at every level and whatever ends it? The length of what
was written bounds the steps. -/
def Reads (layout : Layout) (v : Value) : Prop :=
  ∀ (level fuel : Nat) (rest : List Char), EndsNumber rest →
    (v.written layout level).toList.length ≤ fuel →
    value fuel ((v.written layout level).toList ++ rest) = .ok (v, rest)

theorem endsNumber_cons (h : c.isDigit = false ∧ c ≠ '.' ∧ c ≠ 'e' ∧ c ≠ 'E') (cs : List Char) :
    EndsNumber (c :: cs) := by
  intro d hd
  obtain rfl : c = d := by simpa using hd
  exact h

theorem endsNumber_append (h : ∀ c ∈ blanks, isSpace c = true) {rest : List Char}
    (hrest : EndsNumber rest) : EndsNumber (blanks ++ rest) := by
  cases blanks with
  | nil => exact hrest
  | cons c blanks =>
    refine endsNumber_cons ?_ _
    have hc := h c (by simp)
    simp only [isSpace, Bool.or_eq_true, beq_iff_eq, or_assoc] at hc
    rcases hc with rfl | rfl | rfl | rfl <;> decide

theorem skipBlanks_written (h : ∀ c ∈ blanks, isSpace c = true) (layout : Layout) (level : Nat)
    (v : Value) (rest : List Char) :
    skipBlanks (blanks ++ ((v.written layout level).toList ++ rest)) =
      (v.written layout level).toList ++ rest := by
  obtain ⟨c, cs, hcs, hc, -⟩ := head_written_ne layout level v
  rw [skipBlanks_append h, hcs, cons_append, skipBlanks_cons hc]

/-- **The items of a list** are read up to its end, if each of them is read. -/
theorem items_written (hl : Spaced layout) (h : ∀ w ∈ v :: vs, Reads layout w) (level fuel : Nat)
    (hblanks : ∀ c ∈ blanks, isSpace c = true) (rest : List Char)
    (hfuel : (v.written layout level).toList.length +
      (writtenItems layout level vs).toList.length < fuel) :
    items fuel ((v.written layout level).toList ++ ((writtenItems layout level vs).toList ++
      (blanks ++ ']' :: rest))) = .ok (v :: vs, rest) := by
  induction vs generalizing v fuel with
  | nil =>
    obtain ⟨fuel, rfl⟩ : ∃ k, fuel = k + 1 := ⟨fuel - 1, by omega⟩
    have hv := h v (by simp) level fuel (blanks ++ ']' :: rest)
      (endsNumber_append hblanks (endsNumber_cons (by decide) _)) (by omega)
    have hend : skipBlanks (blanks ++ ']' :: rest) = ']' :: rest := by
      rw [skipBlanks_append hblanks, skipBlanks_cons (by decide)]
    simp only [writtenItems, String.toList_empty, nil_append, items, hv, bind, Except.bind, hend]
    rfl
  | cons w ws ih =>
    obtain ⟨fuel, rfl⟩ : ∃ k, fuel = k + 1 := ⟨fuel - 1, by omega⟩
    rw [toList_writtenItems hl] at *
    simp only [length_append, length_cons] at hfuel
    have hv := fun tail => h v (by simp) level fuel (',' :: tail)
      (endsNumber_cons (by decide) _) (by omega)
    have hws := ih (fun u hu => h u (mem_cons_of_mem v hu)) fuel (by omega)
    simp only [append_assoc, cons_append, items, hv, bind, Except.bind,
      skipBlanks_cons (c := ',') rfl, skipBlanks_written (hl.newline level),
      hws]
    rfl

theorem skipBlanks_writtenText (h : ∀ c ∈ blanks, isSpace c = true) (name : String)
    (rest : List Char) :
    skipBlanks (blanks ++ ((writtenText name).toList ++ rest)) =
      (writtenText name).toList ++ rest := by
  rw [skipBlanks_append h, toList_writtenText, cons_append, skipBlanks_cons (by decide)]

/-- **The members of an object** are read up to its end, if each of their values is read. -/
theorem members_written (hl : Spaced layout) {name : String}
    (h : ∀ p ∈ (name, v) :: ms, Reads layout p.2) (level fuel : Nat)
    (hblanks : ∀ c ∈ blanks, isSpace c = true) (rest : List Char)
    (hfuel : (v.written layout level).toList.length +
      (writtenMembers layout level ms).toList.length < fuel) :
    members fuel ((writtenText name).toList ++ (layout.colon.toList ++
      ((v.written layout level).toList ++ ((writtenMembers layout level ms).toList ++
        (blanks ++ '}' :: rest))))) = .ok ((name, v) :: ms, rest) := by
  obtain ⟨spaces, hcolon, hspaces⟩ := hl.colon
  induction ms generalizing name v fuel with
  | nil =>
    obtain ⟨fuel, rfl⟩ : ∃ k, fuel = k + 1 := ⟨fuel - 1, by omega⟩
    have hread : Reads layout v := h (name, v) (by simp)
    have hv := hread level fuel (blanks ++ '}' :: rest)
      (endsNumber_append hblanks (endsNumber_cons (by decide) _)) (by omega)
    have hend : skipBlanks (blanks ++ '}' :: rest) = '}' :: rest := by
      rw [skipBlanks_append hblanks, skipBlanks_cons (by decide)]
    simp only [writtenMembers, String.toList_empty, nil_append, toList_writtenText, hcolon,
      cons_append, append_assoc, members, textBehindQuote_written, bind, Except.bind,
      skipBlanks_cons (c := ':') rfl, skipBlanks_written hspaces, hv, hend]
    rfl
  | cons p ms ih =>
    obtain ⟨fuel, rfl⟩ : ∃ k, fuel = k + 1 := ⟨fuel - 1, by omega⟩
    rw [toList_writtenMembers hl] at *
    simp only [length_append, length_cons] at hfuel
    have hread : Reads layout v := h (name, v) (by simp)
    have hv := fun tail => hread level fuel (',' :: tail) (endsNumber_cons (by decide) _) (by omega)
    have hms := ih (fun q hq => h q (mem_cons_of_mem (name, v) hq)) fuel (by omega)
    rw [toList_writtenText name, hcolon]
    simp only [cons_append, append_assoc, nil_append, members, textBehindQuote_written, bind,
      Except.bind, skipBlanks_cons (c := ':') rfl, skipBlanks_written hspaces,
      hv, skipBlanks_cons (c := ',') rfl,
      skipBlanks_writtenText (hl.newline level)]
    rw [hcolon, cons_append] at hms
    rw [hms]
    rfl

theorem value_eq_scalarHere (h : BeginsScalar c) (fuel : Nat) (cs : List Char) :
    value (fuel + 1) (c :: cs) = scalarHere (c :: cs) := by
  have hne : c ≠ '"' ∧ c ≠ '[' ∧ c ≠ '{' := by
    rcases h with h | h
    · exact ⟨ne_of_isDigit h (by decide), ne_of_isDigit h (by decide), ne_of_isDigit h (by decide)⟩
    · simp only [mem_cons, not_mem_nil, or_false] at h
      rcases h with rfl | rfl | rfl | rfl | rfl | rfl <;> decide
  rw [value]
  · exact fun rest heq => hne.1 (cons.inj heq).1
  · exact fun rest heq => hne.2.1 (cons.inj heq).1
  · exact fun rest heq => hne.2.2 (cons.inj heq).1

theorem reads_of_scalarHere (hbegins : ∀ c, Begins v c → BeginsScalar c)
    (h : ∀ level rest, EndsNumber rest →
      scalarHere ((v.written layout level).toList ++ rest) = .ok (v, rest)) : Reads layout v := by
  intro level fuel rest hrest hfuel
  have hread := h level rest hrest
  obtain ⟨c, cs, hcs, hc⟩ := head_written layout level v
  rw [hcs] at hfuel hread ⊢
  rw [length_cons] at hfuel
  obtain ⟨fuel, rfl⟩ : ∃ k, fuel = k + 1 := ⟨fuel - 1, by omega⟩
  rw [cons_append] at hread ⊢
  rw [value_eq_scalarHere (hbegins c hc), hread]

theorem reads_list (hl : Spaced layout) (h : ∀ v ∈ vs, Reads layout v) :
    Reads layout (.list vs) := by
  intro level fuel rest hrest hfuel
  cases vs with
  | nil =>
    obtain ⟨fuel, rfl⟩ : ∃ k, fuel = k + 1 := ⟨fuel - 1, by simp [written] at hfuel; omega⟩
    simp [written, value, skipBlanks]
  | cons v vs =>
    rw [toList_written_list] at *
    simp only [length_cons, length_append] at hfuel
    obtain ⟨fuel, rfl⟩ : ∃ k, fuel = k + 1 := ⟨fuel - 1, by omega⟩
    have hitems := items_written hl h (level + 1) fuel (hl.newline level) rest (by omega)
    obtain ⟨c, cs, hcs, -, hend, -⟩ := head_written_ne layout (level + 1) v
    simp only [cons_append, append_assoc, nil_append, value,
      skipBlanks_written (hl.newline (level + 1)), bind, Except.bind]
    split
    · rename_i heq
      rw [hcs] at heq
      exact absurd (cons.inj heq).1 hend
    · rw [hitems]
      rfl

/-- **An object** is read if the values of its members are and their names differ. -/
theorem reads_object (hl : Spaced layout) (hnames : (ms.map (·.1)).Nodup)
    (h : ∀ p ∈ ms, Reads layout p.2) : Reads layout (.object ms) := by
  intro level fuel rest hrest hfuel
  cases ms with
  | nil =>
    obtain ⟨fuel, rfl⟩ : ∃ k, fuel = k + 1 := ⟨fuel - 1, by simp [written] at hfuel; omega⟩
    simp [written, value, skipBlanks]
  | cons p ms =>
    rw [toList_written_object] at *
    simp only [length_cons, length_append] at hfuel
    obtain ⟨fuel, rfl⟩ : ∃ k, fuel = k + 1 := ⟨fuel - 1, by omega⟩
    have hmembers := members_written hl h (level + 1) fuel (hl.newline level) rest (by omega)
    simp only [cons_append, append_assoc, nil_append, value,
      skipBlanks_writtenText (hl.newline (level + 1)), bind, Except.bind]
    split
    · rename_i heq
      rw [toList_writtenText] at heq
      exact absurd (cons.inj heq).1 (by decide)
    · rw [hmembers]
      simp only [collectMembers_of_nodup hnames]
      rfl

/-- **Every storable value** is read from its written form. -/
theorem reads_of_storable (hl : Spaced layout) (h : v.Storable) : Reads layout v := by
  induction h with
  | null =>
    refine reads_of_scalarHere (fun c hc => hc) fun level rest _ => ?_
    rw [written]
    rfl
  | truth b =>
    refine reads_of_scalarHere (fun c hc => hc) fun level rest _ => ?_
    rw [written]
    cases b <;> rfl
  | whole n =>
    refine reads_of_scalarHere (fun c hc => hc) fun level rest hrest => ?_
    rw [written]
    exact scalarHere_whole n hrest
  | real hnan =>
    refine reads_of_scalarHere (fun c hc => hc) fun level rest hrest => ?_
    rw [written]
    exact scalarHere_real hnan hrest
  | text s =>
    intro level fuel rest hrest hfuel
    rw [written, toList_writtenText] at *
    obtain ⟨fuel, rfl⟩ : ∃ k, fuel = k + 1 := ⟨fuel - 1, by
      rw [length_cons] at hfuel
      omega⟩
    simp only [cons_append, append_assoc, nil_append, value,
      textBehindQuote_written, bind, Except.bind]
    rfl
  | list _ ih => exact reads_list hl ih
  | object hnames _ ih => exact reads_object hl hnames ih

/-- **Reading undoes writing**: a document is read as the value that was written. -/
theorem readChars_written (hl : Spaced layout) (h : v.Storable) :
    readChars (v.written layout 0).toList = .ok v := by
  obtain ⟨c, cs, hcs, hspace, -, -, hmark⟩ := head_written_ne layout 0 v
  have hread := reads_of_storable hl h 0 ((v.written layout 0).toList.length + 1) []
    (by simp [EndsNumber]) (Nat.le_succ _)
  rw [append_nil] at hread
  have hskip : skipBlanks (v.written layout 0).toList = (v.written layout 0).toList := by
    rw [hcs, skipBlanks_cons hspace]
  have hhead : (v.written layout 0).toList.head? ≠ some '\uFEFF' := by
    rw [hcs]
    simpa using hmark
  rw [readChars, if_neg hhead, hskip, hread]
  rfl

/-! ### Line ends -/

theorem return_not_mem_writtenChar (c : Char) : '\r' ∉ writtenChar c := by
  have hunit : ∀ {n : Nat}, n < 0x10000 → '\r' ∉ Value.unitEscape n := by
    intro n hn hmem
    obtain ⟨ds, hds, hall, -⟩ := @exists_hexPadded_digits 4 n (by decide) hn
    rw [Value.unitEscape, hds] at hmem
    simp only [mem_cons, Char.reduceEq, false_or, mem_map] at hmem
    obtain ⟨d, hd, hchar⟩ := hmem
    have hlt := hall d hd
    interval_cases d <;> exact absurd hchar (by decide)
  have hvalid := toNat_valid c
  rcases writtenChar_cases c with ⟨d, h, hread⟩ | ⟨h, -, -, hprint, -⟩ | ⟨hplane, h⟩ | ⟨hplane, h⟩ <;>
    rw [h]
  · intro hmem
    obtain rfl : '\r' = d := by simpa using hmem
    exact absurd (hread 0 []) (by simp [escape])
  · intro hmem
    obtain rfl : '\r' = c := by simpa using hmem
    exact absurd hprint (by decide)
  · exact hunit hplane
  · rw [mem_append, not_or]
    exact ⟨hunit (by omega), hunit (by omega)⟩

@[simp] theorem return_not_mem_writtenText (s : String) : '\r' ∉ (writtenText s).toList := by
  rw [toList_writtenText]
  simp only [mem_cons, Char.reduceEq, false_or, mem_append, mem_flatMap,
    not_mem_nil, or_false, not_exists, not_and]
  exact fun c _ => return_not_mem_writtenChar c

@[simp] theorem return_not_mem_writtenReal (x : Double) : '\r' ∉ (Value.writtenReal x).toList := by
  rw [Value.writtenReal]
  cases hx : x.value with
  | notANumber => simp
  | infinite negative => cases negative <;> simp
  | finite negative u =>
    obtain ⟨p, htext, -⟩ := Double.exists_parts hx
    simp only [htext]
    intro hmem
    rcases mem_append.mp hmem with hmem | hmem
    · cases negative <;> simp [Double.signChars] at hmem
    · rcases Double.mem_chars hmem with hdigit | hother
      · exact absurd hdigit (by decide)
      · simp at hother

@[simp] theorem return_not_mem_newline (width level : Nat) :
    '\r' ∉ ((Layout.indented width).newline level).toList := by
  simp only [Layout.indented, String.toList_append, String.toList_ofList, mem_append, not_or]
  exact ⟨by simp, fun h => absurd (eq_of_mem_replicate h) (by decide)⟩

@[simp] theorem return_not_mem_colon (width : Nat) : '\r' ∉ (Layout.indented width).colon.toList := by
  simp [Layout.indented]

theorem return_not_mem_writtenItems (width level : Nat)
    (h : ∀ v ∈ vs, ∀ level, '\r' ∉ (v.written (.indented width) level).toList) :
    '\r' ∉ (writtenItems (.indented width) level vs).toList := by
  induction vs with
  | nil => simp [writtenItems]
  | cons v vs ih =>
    have hrest := ih fun w hw => h w (mem_cons_of_mem v hw)
    simp [toList_writtenItems (spaced_indented width), h v, hrest]

theorem return_not_mem_writtenMembers (width level : Nat)
    (h : ∀ p ∈ ms, ∀ level, '\r' ∉ (p.2.written (.indented width) level).toList) :
    '\r' ∉ (writtenMembers (.indented width) level ms).toList := by
  induction ms with
  | nil => simp [writtenMembers]
  | cons p ms ih =>
    have hrest := ih fun q hq => h q (mem_cons_of_mem p hq)
    simp [toList_writtenMembers (spaced_indented width), h p, hrest]

theorem return_not_mem_written (width : Nat) (h : v.Storable) (level : Nat) :
    '\r' ∉ (v.written (.indented width) level).toList := by
  induction h generalizing level with
  | null => simp [written]
  | truth b => cases b <;> simp [written]
  | whole n =>
    intro hmem
    rcases mem_decimalInt hmem with hminus | hdigit
    · exact absurd hminus (by decide)
    · exact absurd hdigit (by decide)
  | real hnan => simp [written]
  | text s => simp [written]
  | @list vs _ ih =>
    cases vs with
    | nil => simp [written]
    | cons v vs =>
      have hitems := return_not_mem_writtenItems width (level + 1)
        fun w hw => ih w (mem_cons_of_mem v hw)
      simp [toList_written_list, ih v, hitems]
  | @object ms _ _ ih =>
    cases ms with
    | nil => simp [written]
    | cons p ms =>
      obtain ⟨name, v⟩ := p
      have hmembers := return_not_mem_writtenMembers width (level + 1)
        fun q hq => ih q (mem_cons_of_mem (name, v) hq)
      simp [toList_written_object, ih (name, v), hmembers]

/-- **A stored document**, with its line ends unified as files are read, is the value. -/
theorem readChars_document (width : Nat) (h : v.Storable) :
    readChars (unifyNewlines (v.document width).toList) = .ok v := by
  rw [Value.document, unifyNewlines_of_not_mem (return_not_mem_written width h 0)]
  exact readChars_written (spaced_indented width) h

end ApkWorkshop.Document
