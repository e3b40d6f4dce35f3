import ApkWorkshop.Proofs.LiteralReader

/-!
# What Decoding Does to String Literals

Decoding a text knows only backslashes with digits, so it may change what the body of a string
literal means. A body and its result are read side by side, piece by piece (`Splits`). Both readers
stand at the same place until an escape with digits comes, which the one takes as a whole and the
other as a byte.

The headline is `decoded_body_denotes_same_iff`.
-/

namespace ApkWorkshop.Lua

open Text List Nat Option Reader

variable {ds : List Char} {n : Nat}

/-! ### Digits -/

theorem Numeral.digits (h : Numeral ds n) : ∀ d ∈ ds, ∃ v, digitValue? d = some v := by
  cases h <;> simp_all

theorem run_digits (h : ∀ d ∈ ds, ∃ v, digitValue? d = some v) :
    text.run (encodeChars ds) = some (encodeChars ds, .text) := by
  refine run_raw fun b hb => ?_
  obtain ⟨d, hd, hbyte⟩ := mem_flatMap.mp hb
  obtain ⟨v, hv⟩ := h d hd
  exact raw_of_digitValue? hv hbyte

theorem Numeral.ascii_or (h : Numeral ds n) (hfirst : ∀ d ∈ ds.head?, d.isDigit = true) :
    (∀ d ∈ ds, d.isDigit = true) ∨ ∃ first m others, ds = first ++ others ∧ others ≠ [] ∧
      Numeral first m ∧ m < 256 ∧ (∀ d ∈ first, d.isDigit = true) ∧
      ∀ d ∈ others.head?, d.isDigit = false := by
  have hvalue : ∀ {d : Char} {v : Nat}, d.isDigit = true → digitValue? d = some v → v < 10 := by
    intro d v hd hv
    rw [digitValue?_of_isDigit hd, Option.some.injEq] at hv
    have := toNat_of_isDigit hd
    omega
  cases h with
  | one h₁ => exact .inl (by simpa using hfirst)
  | @two d₁ d₂ a b h₁ h₂ =>
    have hd₁ := hfirst d₁ rfl
    cases hd₂ : d₂.isDigit with
    | true => exact .inl (by simp [hd₁, hd₂])
    | false =>
      have ha := hvalue hd₁ h₁
      exact .inr ⟨[d₁], a, [d₂], rfl, by simp, .one h₁, by omega, by simp [hd₁], by simp [hd₂]⟩
  | @three d₁ d₂ d₃ a b c h₁ h₂ h₃ =>
    have hd₁ := hfirst d₁ rfl
    have ha := hvalue hd₁ h₁
    cases hd₂ : d₂.isDigit with
    | false =>
      exact .inr ⟨[d₁], a, [d₂, d₃], rfl, by simp, .one h₁, by omega, by simp [hd₁], by simp [hd₂]⟩
    | true =>
      cases hd₃ : d₃.isDigit with
      | true => exact .inl (by simp [hd₁, hd₂, hd₃])
      | false =>
        have hb := hvalue hd₂ h₂
        exact .inr ⟨[d₁, d₂], 10 * a + b, [d₃], rfl, by simp, .two h₁ h₂, by omega,
          by simp [hd₁, hd₂], by simp [hd₃]⟩

/-! ### Two readers -/

/-- The reader stands in front of a text with no escape half read. If it stands behind a backslash,
no digit follows. -/
def Settled : Reader → List Char → Prop
  | .text, _ | .line _, _ => True
  | .escape, cs => NoDigitFirst cs
  | .number _ _, _ => False

section

variable {s next : Reader} {c : Char} {cs ds rest : List Char} {n : Nat} {bs made out : List UInt8}

theorem settled_run (hs : Settled s (c :: rest)) (hc : c = '\\' → NoDigitFirst rest)
    (h : s.run (encodeChar c) = some (made, next)) :
    Settled next rest ∧ ∀ x, s.room (encodeChar c ++ x) ≤ made.length + next.room x := by
  have htext : text.run (encodeChar c) = some (made, next) →
      Settled next rest ∧ ∀ x, room false (encodeChar c ++ x) ≤ made.length + next.room x := by
    intro h
    rcases run_text h with ⟨rfl, rfl, rfl⟩ | ⟨rfl, rfl, hraw⟩
    · exact ⟨hc rfl, fun x => (room_backslash x).le.trans (le_add_left _ _)⟩
    · exact ⟨trivial, fun x => (room_append_raw hraw x).le⟩
  cases s with
  | text => exact htext h
  | line e =>
    rcases run_line h with ⟨f, hf, hline, rfl, rfl⟩ | h
    · rw [hf]
      exact ⟨trivial, fun x => (room_refused (.inr hline) x).le.trans (le_add_left _ _)⟩
    · exact htext h
  | escape =>
    obtain ⟨e, he, ⟨y, hy, rfl, rfl⟩ | ⟨hline, rfl, rfl⟩⟩ :=
      run_escape (isDigit_eq_false (noDigitFirst_cons.mp hs)) h
    · rw [he]
      exact ⟨trivial, fun x => le_refl _⟩
    · rw [he]
      exact ⟨trivial, fun x => le_refl _⟩
  | number digits n => exact hs.elim

theorem Settled.room_cons_le (hs : Settled s cs) (b : UInt8) (x : List UInt8) :
    s.room (b :: x) ≤ 1 + room false x := by
  cases s with
  | text => exact (room_cons_bounds b x).2
  | line e => exact (room_cons_bounds b x).2
  | escape => exact le_refl _
  | number digits n => exact hs.elim

theorem isDigit_of_denoted? {v : Nat} (hv : digitValue? c = some v)
    (h : escape.denoted? (encodeChar c ++ out) = some bs) : c.isDigit = true := by
  by_contra hother
  obtain ⟨_, _, _, hrun, -⟩ := exists_run h
  obtain ⟨e, he, ⟨y, hy, -⟩ | ⟨hline, -⟩⟩ := run_escape (by simpa using hother) hrun
  · rw [(of_named? hy).2] at hv
    cases hv
  · exact (raw_of_digitValue? hv (he ▸ mem_singleton_self e)).2.2 hline

/-- **An escape with digits**, as decoding finds it, in a body: an escape for the same byte, or
something that denotes more than one byte. -/
theorem escape_of_denoted? (hs : Settled s ('\\' :: (ds ++ rest))) (hds : Numeral ds n)
    (hend : ds.length = 3 ∨ NoDigitFirst rest) (hn : n < 256)
    (hbody : s.denoted? (encodeChars ('\\' :: (ds ++ rest))) = some bs) :
    ∃ first others, denoted? (encodeChars rest) = some others ∧ bs = first ++ others ∧
      1 ≤ first.length ∧ (2 ≤ first.length ∨
        s.read 92 = some ([], .escape) ∧ (∀ d ∈ ds, d.isDigit = true) ∧ first = [n.toUInt8]) := by
  have hpos := hds.length_pos
  have hlength : ∀ {es : List Char}, es ≠ [] → 1 ≤ (encodeChars es).length := fun hes =>
    (length_pos_of_ne_nil hes).trans_le (length_le_length_encodeChars _)
  have hcons : s.denoted? (92 :: (encodeChars ds ++ encodeChars rest)) = some bs := by
    rw [← encodeChars_append]
    exact hbody
  by_cases hescape : s = .escape
  · subst hescape
    have hread : escape.read 92 = some ([92], .text) := rfl
    rw [denoted?_cons hread, denoted?_append, run_digits hds.digits] at hcons
    obtain ⟨made, hmade, rfl⟩ := map_eq_some_iff.mp hcons
    obtain ⟨others, hothers, rfl⟩ := map_eq_some_iff.mp hmade
    refine ⟨92 :: encodeChars ds, others, hothers, rfl, succ_pos _, .inl ?_⟩
    exact succ_le_succ (hlength (ne_nil_of_length_pos hpos))
  · have hread : s.read 92 = some ([], .escape) := by
      cases s with
      | text => rfl
      | line e => exact read_line fun h => absurd h.1 (by decide)
      | escape => exact absurd rfl hescape
      | number digits n => exact hs.elim
    have hbs := (denoted?_silent hread _).symm.trans hcons
    have hfirst : ∀ d ∈ ds.head?, d.isDigit = true := by
      intro d hd
      obtain ⟨v, hv⟩ := hds.digits d (mem_of_mem_head? hd)
      obtain ⟨es, rfl⟩ : ∃ es, ds = d :: es := by
        cases ds with
        | nil => cases hd
        | cons d' es => exact ⟨es, by cases hd; rfl⟩
      rw [encodeChars_cons, append_assoc] at hbs
      exact isDigit_of_denoted? hv hbs
    rcases hds.ascii_or hfirst with hascii | ⟨first, m, others, rfl, hne, hm, hlt, hascii, hother⟩
    · rw [denoted?_number hds hascii hn (hend.imp id NoDigitFirst.digit?)] at hbs
      obtain ⟨others, hothers, rfl⟩ := map_eq_some_iff.mp hbs
      exact ⟨[n.toUInt8], others, hothers, rfl, le_refl 1, .inr ⟨hread, hascii, rfl⟩⟩
    · have hnext : ∀ b ∈ (encodeChars (others ++ rest)).head?, digit? b = none := by
        refine digit?_of_head? ?_
        rwa [head?_append_of_ne_nil _ hne]
      rw [encodeChars_append, append_assoc, ← encodeChars_append,
        denoted?_number hm hascii hlt (.inr hnext), encodeChars_append, denoted?, denoted?_append,
        run_digits fun d hd => hds.digits d (mem_append_right first hd)] at hbs
      obtain ⟨made, hmade, rfl⟩ := map_eq_some_iff.mp hbs
      obtain ⟨last, hlast, rfl⟩ := map_eq_some_iff.mp hmade
      refine ⟨m.toUInt8 :: encodeChars others, last, hlast, rfl, succ_pos _, .inl ?_⟩
      exact succ_le_succ (hlength hne)

end

/-! ### Bodies that keep their meaning -/

/-- Any number of escaped backslashes and then an escaped apostrophe, with what follows them. -/
inductive Apostrophe : List Char → List Char → Prop
  | here (rest : List Char) : Apostrophe ('\\' :: '\'' :: rest) rest
  | later {cs rest : List Char} (h : Apostrophe cs rest) : Apostrophe ('\\' :: '\\' :: cs) rest

/-- The texts that keep their meaning, from where a reader stands. An escape with digits begins
where a backslash begins an escape for the reader too, it has ASCII digits only, and it stands for a
byte that means nothing in a body. There is one exception. A backslash is harmless in front of
escaped backslashes and an escaped apostrophe, since the backslashes are taken in pairs then, and
the apostrophe needs none. -/
inductive Faithful : Reader → List Char → Prop
  | nil (s : Reader) : Faithful s []
  | plain {s next : Reader} {c : Char} {rest : List Char} {made : List UInt8}
      (hc : c = '\\' → NoDigitFirst rest) (hrun : s.run (encodeChar c) = some (made, next))
      (hrest : Faithful next rest) : Faithful s (c :: rest)
  | escape {s : Reader} {ds rest : List Char} {n : Nat} (hs : s.read 92 = some ([], .escape))
      (hds : Numeral ds n) (hascii : ∀ d ∈ ds, d.isDigit = true)
      (hend : ds.length = 3 ∨ NoDigitFirst rest) (hn : n ∉ [10, 13, 34, 92])
      (hrest : Faithful .text rest) : Faithful s ('\\' :: (ds ++ rest))
  | backslash {s : Reader} {ds cs rest : List Char} (hs : s.read 92 = some ([], .escape))
      (hds : Numeral ds 92) (hascii : ∀ d ∈ ds, d.isDigit = true) (h : Apostrophe cs rest)
      (hrest : Faithful .text rest) : Faithful s ('\\' :: (ds ++ cs))

theorem raw_toUInt8 (hn : n < 256) (h : n ∉ [10, 13, 34, 92]) : Raw n.toUInt8 := by
  simp only [mem_cons, not_mem_nil, or_false, not_or] at h
  have hne : ∀ m < 256, n ≠ m → n.toUInt8 ≠ m.toUInt8 := by
    intro m hm hne heq
    have hvalue := congrArg UInt8.toNat heq
    rw [toNat_toUInt8 hn, toNat_toUInt8 hm] at hvalue
    exact hne hvalue
  exact ⟨hne 92 (by decide) h.2.2.2, hne 34 (by decide) h.2.2.1,
    not_or.mpr ⟨hne 10 (by decide) h.1, hne 13 (by decide) h.2.1⟩⟩

theorem Apostrophe.noDigitFirst {cs rest : List Char} (h : Apostrophe cs rest) :
    NoDigitFirst cs := by
  cases h <;> exact noDigitFirst_cons.mpr rfl

section

variable {s : Reader} {cs ds rest : List Char} {n : Nat} {bs out : List UInt8} {c : Char}

theorem exists_bytes_of_plain (hc : digitValue? c = none) (hrest : c = '\\' → NoDigitFirst rest)
    (h : bytesOfPieces (pieces ('\\' :: c :: rest)) = .ok out) :
    ∃ others, bytesOfPieces (pieces rest) = .ok others ∧ out = 92 :: (encodeChar c ++ others) := by
  rw [pieces_plain fun _ => noDigitFirst_cons.mpr hc, pieces_plain hrest] at h
  obtain ⟨made, hmade, rfl⟩ := bytesOfPieces_plain.mp h
  obtain ⟨others, hothers, rfl⟩ := bytesOfPieces_plain.mp hmade
  exact ⟨others, hothers, rfl⟩

theorem read_backslash : text.read 92 = some ([], .escape) := rfl

theorem read_escaped_backslash : escape.read 92 = some ([92], .text) := rfl

theorem Apostrophe.denoted? (h : Apostrophe cs rest)
    (hrest : ∀ bs out, Lua.denoted? (encodeChars rest) = some bs →
      bytesOfPieces (pieces rest) = .ok out → Lua.denoted? out = some bs)
    (hbody : Lua.denoted? (encodeChars cs) = some bs) (hout : bytesOfPieces (pieces cs) = .ok out) :
    escape.denoted? out = some (92 :: bs) := by
  induction h generalizing bs out with
  | here rest =>
    have hother : '\'' = '\\' → NoDigitFirst rest := fun heq => absurd heq (by decide)
    obtain ⟨out, hothers, rfl⟩ := exists_bytes_of_plain rfl hother hout
    have hread : escape.read 39 = some ([39], .text) := rfl
    have hdenoted : Lua.denoted? (encodeChars ('\\' :: '\'' :: rest)) = _ :=
      (denoted?_silent read_backslash _).trans (denoted?_cons hread _)
    rw [hdenoted] at hbody
    obtain ⟨bs, hbs, rfl⟩ := map_eq_some_iff.mp hbody
    have hraw : text.read 39 = some ([39], .text) := rfl
    refine (denoted?_cons read_escaped_backslash (39 :: out)).trans ?_
    rw [denoted?_cons hraw, ← Lua.denoted?, hrest bs out hbs hothers]
    rfl
  | @later cs rest h ih =>
    obtain ⟨out, hothers, rfl⟩ := exists_bytes_of_plain rfl (fun _ => h.noDigitFirst) hout
    have hdenoted : Lua.denoted? (encodeChars ('\\' :: '\\' :: cs)) = _ :=
      (denoted?_silent read_backslash _).trans (denoted?_cons read_escaped_backslash _)
    rw [hdenoted] at hbody
    obtain ⟨bs, hbs, rfl⟩ := map_eq_some_iff.mp hbody
    refine (denoted?_cons read_escaped_backslash (92 :: out)).trans ?_
    rw [denoted?_silent read_backslash, ih hrest hbs hothers]
    rfl

theorem read_raw_of_backslash {b : UInt8} (hs : s.read 92 = some ([], .escape)) (hb : Raw b) :
    s.read b = some ([b], .text) := by
  cases s with
  | text => exact read_raw hb
  | line e => exact (read_line fun h => hb.2.2 h.1).trans (read_raw hb)
  | escape => cases hs
  | number digits n => cases hs

theorem denoted?_escape (hs : s.read 92 = some ([], .escape)) (hds : Numeral ds n)
    (hascii : ∀ d ∈ ds, d.isDigit = true) (hn : n < 256)
    (hend : ds.length = 3 ∨ NoDigitFirst rest) :
    s.denoted? (encodeChars ('\\' :: (ds ++ rest))) =
      (denoted? (encodeChars rest)).map (n.toUInt8 :: ·) := by
  rw [← denoted?_number hds hascii hn (hend.imp id NoDigitFirst.digit?), ← encodeChars_append]
  exact denoted?_silent hs _

theorem Faithful.denoted? (h : Faithful s cs) (hbody : s.denoted? (encodeChars cs) = some bs)
    (hout : bytesOfPieces (pieces cs) = .ok out) : s.denoted? out = some bs := by
  induction h generalizing bs out with
  | nil s =>
    cases hout
    exact hbody
  | plain hc hrun hrest ih =>
    rw [pieces_plain hc] at hout
    obtain ⟨out, hothers, rfl⟩ := bytesOfPieces_plain.mp hout
    rw [encodeChars_cons, denoted?_append, hrun] at hbody
    obtain ⟨bs, hbs, rfl⟩ := map_eq_some_iff.mp hbody
    rw [denoted?_append, hrun, bind_some, ih hbs hothers]
    rfl
  | escape hs hds hascii hend hn hrest ih =>
    rw [pieces_escape hds hend] at hout
    obtain ⟨hlt, out, hothers, rfl⟩ := bytesOfPieces_escape.mp hout
    rw [denoted?_escape hs hds hascii hlt hend] at hbody
    obtain ⟨bs, hbs, rfl⟩ := map_eq_some_iff.mp hbody
    rw [denoted?_cons (read_raw_of_backslash hs (raw_toUInt8 hlt hn)), ih hbs hothers]
    rfl
  | backslash hs hds hascii h hrest ih =>
    rw [pieces_escape hds (.inr h.noDigitFirst)] at hout
    obtain ⟨hlt, out, hothers, rfl⟩ := bytesOfPieces_escape.mp hout
    rw [denoted?_escape hs hds hascii hlt (.inr h.noDigitFirst)] at hbody
    obtain ⟨bs, hbs, rfl⟩ := map_eq_some_iff.mp hbody
    refine (denoted?_silent hs out).trans ?_
    exact h.denoted? (fun _ _ hbody hout => ih hbody hout) hbs hothers

theorem name_of_denoted? {y : UInt8} (hc : named? c = some y)
    (h : denoted? (encodeChar c ++ out) = some (y :: bs)) :
    c = '\\' ∧ y = 92 ∧ escape.denoted? out = some (92 :: bs) ∨
      c = '\'' ∧ denoted? out = some bs := by
  have hnames : ∀ name ∈ names, name = ('\\', 92) ∨ name.1.toNat.toUInt8 = 34 ∨
      Raw name.1.toNat.toUInt8 ∧ (name.1.toNat.toUInt8 = name.2 → name.1 = '\'') := by
    decide
  rw [encodeChar_of_lt (of_named? hc).1, singleton_append] at h
  rcases hnames _ (mem_names_of_named? hc) with heq | hquote | ⟨hraw, hself⟩
  · cases heq
    exact .inl ⟨rfl, rfl, (denoted?_silent read_backslash out).symm.trans h⟩
  · rw [hquote, denoted?, Reader.denoted?] at h
    cases h
  · rw [denoted?, denoted?_cons (read_raw hraw)] at h
    obtain ⟨others, hothers, hcons⟩ := map_eq_some_iff.mp h
    obtain ⟨hy, rfl⟩ := List.cons.inj hcons
    exact .inr ⟨hself hy, hothers⟩

theorem room_of_read_backslash (hs : s.read 92 = some ([], .escape)) (x : List UInt8) :
    s.room x = room false x := by
  cases s with
  | text => rfl
  | line e => rfl
  | escape => cases hs
  | number digits n => cases hs

/-- What is known of a text and its result if they denote the same, wherever their readers stand. -/
structure Lockstep (cs : List Char) (out : List UInt8) : Prop where
  /-- The result has no room for more than the text denotes. -/
  room : ∀ {s bs}, Settled s cs → s.denoted? (encodeChars cs) = some bs → s.room out ≤ bs.length
  /-- The readers are in step. -/
  both : ∀ {s bs}, Settled s cs → s.denoted? (encodeChars cs) = some bs →
    s.denoted? out = some bs → Faithful s cs
  /-- The reader of the result stands behind a backslash, which was denoted already. -/
  result : ∀ {bs}, denoted? (encodeChars cs) = some bs →
    Reader.escape.denoted? out = some (92 :: bs) → ∃ rest, Apostrophe cs rest ∧ Faithful .text rest
  /-- The reader of the text stands behind a backslash, which was denoted already. -/
  body : ∀ {bs}, NoDigitFirst cs → Reader.escape.denoted? (encodeChars cs) = some bs →
    denoted? out = some bs → ∃ rest, Apostrophe ('\\' :: cs) rest ∧ Faithful .text rest

theorem Lockstep.room_text (h : Lockstep cs out) (hbody : Lua.denoted? (encodeChars cs) = some bs) :
    Lua.room false out ≤ bs.length :=
  h.room (s := .text) trivial hbody

theorem Lockstep.plain (h : Lockstep rest out) (hc : c = '\\' → NoDigitFirst rest) :
    Lockstep (c :: rest) (encodeChar c ++ out) where
  room hs hbody := by
    obtain ⟨first, next, others, hrun, hothers, rfl⟩ := exists_run hbody
    obtain ⟨hnext, hroom⟩ := settled_run hs hc hrun
    rw [length_append]
    exact (hroom out).trans (Nat.add_le_add_left (h.room hnext hothers) _)
  both hs hbody hsame := by
    obtain ⟨first, next, bs, hrun, hbs, rfl⟩ := exists_run hbody
    rw [denoted?_append, hrun] at hsame
    obtain ⟨bs', hbs', heq⟩ := map_eq_some_iff.mp hsame
    obtain rfl := append_cancel_left heq
    exact .plain hc hrun (h.both (settled_run hs hc hrun).1 hbs hbs')
  result hbody hsame := by
    obtain ⟨first, next, bs, hrun, hbs, rfl⟩ := exists_run hbody
    rcases run_text hrun with ⟨rfl, rfl, rfl⟩ | ⟨rfl, rfl, hraw⟩
    · obtain ⟨bs', hbs', heq⟩ := map_eq_some_iff.mp
        ((denoted?_cons read_escaped_backslash out).symm.trans hsame)
      obtain rfl := (List.cons.inj heq).2
      exact h.body (hc rfl) hbs hbs'
    · -- a character that denotes itself leaves no room for the backslash
      have hlength := length_le_room hsame
      have hrest := h.room_text hbs
      rw [Reader.room, room_true_append_raw hraw (encodeChar_ne_nil c), length_cons,
        length_append] at hlength
      omega
  body hdigit hbody hsame := by
    obtain ⟨first, next, bs, hrun, hbs, rfl⟩ := exists_run hbody
    obtain ⟨e, he, ⟨y, hy, rfl, rfl⟩ | ⟨hline, -⟩⟩ :=
      run_escape (isDigit_eq_false (noDigitFirst_cons.mp hdigit)) hrun
    · rcases name_of_denoted? hy hsame with ⟨rfl, rfl, hdenoted⟩ | ⟨rfl, hdenoted⟩
      · obtain ⟨others, happ, hfaithful⟩ := h.result hbs hdenoted
        exact ⟨others, .later happ, hfaithful⟩
      · exact ⟨rest, .here rest, h.both trivial hbs hdenoted⟩
    · have hread := read_refused (.inr hline)
      rw [he, singleton_append, denoted?, Reader.denoted?, hread] at hsame
      cases hsame

theorem byte_cases (hn : n < 256) :
    n ∉ [10, 13, 34, 92] ∧ Raw n.toUInt8 ∨ n = 92 ∨ n.toUInt8 = 34 ∨ EndsLine n.toUInt8 := by
  by_cases h : n ∈ [10, 13, 34, 92]
  · simp only [mem_cons, not_mem_nil, or_false] at h
    rcases h with rfl | rfl | rfl | rfl <;> decide
  · exact .inl ⟨h, raw_toUInt8 hn h⟩

/-- **An escape with digits**, and the byte that decoding makes of it. -/
theorem Lockstep.escape (h : Lockstep rest out) (hds : Numeral ds n)
    (hend : ds.length = 3 ∨ NoDigitFirst rest) (hn : n < 256) :
    Lockstep ('\\' :: (ds ++ rest)) (n.toUInt8 :: out) where
  room hs hbody := by
    obtain ⟨first, others, hothers, rfl, hfirst, -⟩ := escape_of_denoted? hs hds hend hn hbody
    have hrest := h.room_text hothers
    have hcons := hs.room_cons_le n.toUInt8 out
    rw [length_append]
    omega
  both hs hbody hsame := by
    have hlength := length_le_room hsame
    have hcons := hs.room_cons_le n.toUInt8 out
    obtain ⟨first, others, hbs, rfl, -, hlong | ⟨hread, hascii, rfl⟩⟩ :=
      escape_of_denoted? hs hds hend hn hbody
    · have hrest := h.room_text hbs
      rw [length_append] at hlength
      omega
    · rcases byte_cases hn with ⟨hspecial, hraw⟩ | rfl | hrefused
      · rw [denoted?_cons (read_raw_of_backslash hread hraw)] at hsame
        obtain ⟨bs', hbs', heq⟩ := map_eq_some_iff.mp hsame
        obtain rfl := append_cancel_left heq
        exact .escape hread hds hascii hend hspecial (h.both trivial hbs hbs')
      · have hdenoted := (denoted?_silent hread out).symm.trans hsame
        obtain ⟨others, happ, hfaithful⟩ := h.result hbs hdenoted
        exact .backslash hread hds hascii happ hfaithful
      · have hrest := h.room_text hbs
        rw [room_of_read_backslash hread, room_refused hrefused, length_append,
          length_singleton] at hlength
        omega
  result hbody hsame := by
    have hlength := length_le_room hsame
    obtain ⟨first, others, hbs, rfl, hfirst, -⟩ :=
      escape_of_denoted? (s := .text) trivial hds hend hn hbody
    have hrest := h.room_text hbs
    rw [Reader.room, Lua.room, length_cons, length_append] at hlength
    omega
  body hdigit hbody hsame := by
    have hlength := length_le_room hsame
    obtain ⟨first, others, hbs, rfl, -, hlong | ⟨hread, -⟩⟩ :=
      escape_of_denoted? (s := .escape) hdigit hds hend hn hbody
    · have hrest := h.room_text hbs
      have hcons := (room_cons_bounds n.toUInt8 out).2
      rw [Reader.room, length_append] at hlength
      omega
    · cases hread

/-- **Every text and its result** are read side by side in this way. -/
theorem lockstep_of_splits {ps : List Piece} (h : Splits cs ps)
    (hout : bytesOfPieces ps = .ok out) : Lockstep cs out := by
  induction h generalizing out with
  | nil =>
    cases hout
    refine ⟨fun {s bs} hs _ => ?_, fun _ _ _ => .nil _, fun _ h => ?_, fun _ h => ?_⟩
    · cases s with
      | number digits n => exact hs.elim
      | _ => exact zero_le _
    · cases h
    · cases h
  | plain hc h ih =>
    obtain ⟨out, hothers, rfl⟩ := bytesOfPieces_plain.mp hout
    exact (ih hothers).plain hc
  | escape hds hend h ih =>
    obtain ⟨hn, out, hothers, rfl⟩ := bytesOfPieces_escape.mp hout
    exact (ih hothers).escape hds hend hn

end

/-- **Decoding keeps the meaning** of exactly the faithful bodies: of all bodies that can be
decoded, they are those whose result is a body again that denotes the same bytes. -/
theorem decoded_body_denotes_same_iff {cs ds : List Char} {bs : List UInt8}
    (hbody : denoted? (encodeChars cs) = some bs) (hdecoded : decodeEscapes cs = .ok ds) :
    denoted? (encodeChars ds) = some bs ↔ Faithful .text cs := by
  have hout := decodeEscapes_eq_ok_iff.mp hdecoded
  constructor
  · exact (lockstep_of_splits (splits_pieces cs) hout).both trivial hbody
  · exact fun h => h.denoted? hbody hout

/-- A body with escapes of both kinds, whose meaning is kept. -/
theorem decoded_body_denotes_same_umlaut :
    denoted? (encode "\\195\\164\\n") = some [195, 164, 10] ∧
      decodeEscapes "\\195\\164\\n".toList = .ok "ä\\n".toList ∧
      Faithful .text "\\195\\164\\n".toList := by
  have hbody : denoted? (encodeChars "\\195\\164\\n".toList) = some [195, 164, 10] := by
    decide +kernel
  have hdecoded : decodeEscapes "\\195\\164\\n".toList = .ok "ä\\n".toList := by
    decide +kernel
  exact ⟨hbody, hdecoded, (decoded_body_denotes_same_iff hbody hdecoded).mp (by decide +kernel)⟩

/-- **Decoding changes what a string means**: a backslash and three digits become a line feed, and
an escaped quote ends the string. -/
theorem decoded_body_differs :
    (denoted? (encode "\\\\110") = some (encode "\\110") ∧
      decodeEscapes "\\\\110".toList = .ok "\\n".toList ∧ denoted? (encode "\\n") = some [10]) ∧
    denoted? (encode "a\\034") = some (encode "a\"") ∧
      decodeEscapes "a\\034".toList = .ok "a\"".toList ∧ denoted? (encode "a\"") = none := by
  decide +kernel

end ApkWorkshop.Lua
