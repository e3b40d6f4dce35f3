import Mathlib.Data.List.DropRight
import Mathlib.Logic.Relation
import ApkWorkshop.Proofs.LineEntries

/-!
# Edits That Make No Difference

A listing says more than the assembler reads: remarks and blank lines, the numbers of constants, the
labels of functions and everything left of the code. This module says that all of that may be changed
at will, as long as no expression looks at the line it stands on: the word `line` does
(`number_shows_in_chunk`), and literals do not (`settled_of_literals`).

The edits are stated by the characters of the lines alone. What is difficult about a code line is to
find the last ` ; ` of the line again as the last semicolon that the assembler looks for: the text
before it may itself hold semicolons and instructions (`eq_of_codeOf?`).
-/

namespace ApkWorkshop.Listing

open Bytecode List Option
open Text

variable {c : Char} {l l' text : List Char} {e : Entry} {a a' : Assembling} {ls ls' : List (List Char)}

/-! ### Edits -/

/-- A blank line, or one whose first character that is not blank begins a remark. -/
def IsRemark (l : List Char) : Prop :=
  trimStart l = [] ∨ (trimStart l).head? = some '#'

/-- A line that begins like none of the other kinds. -/
structure Unreserved (l : List Char) : Prop where
  function : ¬ "FUNC ".toList <+: l
  constant : ¬ "CONST ".toList <+: l
  count : ¬ "FUNCS_NUM: ".toList <+: l
  remark : (trimStart l).head? ≠ some '#'

/-- One change of a line: another number of a constant, another label of a function, or other text
left of the last ` ; ` of a code line. -/
inductive Rewords : List Char → List Char → Prop
  | number {digits digits' rest : List Char} (hne : digits ≠ [])
      (hdigits : ∀ c ∈ digits, isDigit c = true) (hne' : digits' ≠ [])
      (hdigits' : ∀ c ∈ digits', isDigit c = true) :
      Rewords ("CONST ".toList ++ (digits ++ ' ' :: rest)) ("CONST ".toList ++ (digits' ++ ' ' :: rest))
  | label {label label' rest : List Char} (hne : label ≠ [])
      (hlabel : ∀ c ∈ label, isLabelChar c = true) (hne' : label' ≠ [])
      (hlabel' : ∀ c ∈ label', isLabelChar c = true) :
      Rewords ("FUNC [".toList ++ (label ++ ']' :: rest)) ("FUNC [".toList ++ (label' ++ ']' :: rest))
  | margin {left left' right : List Char} (hlast : ¬ " ; ".toList <:+: ' ' :: right)
      (hline : Unreserved (left ++ (" ; ".toList ++ right)))
      (hline' : Unreserved (left' ++ (" ; ".toList ++ right))) :
      Rewords (left ++ (" ; ".toList ++ right)) (left' ++ (" ; ".toList ++ right))

/-- One edit of the lines of a listing. -/
inductive Retouch : List (List Char) → List (List Char) → Prop
  | insert (before after : List (List Char)) {l : List Char} (hl : IsRemark l) :
      Retouch (before ++ after) (before ++ l :: after)
  | delete (before after : List (List Char)) {l : List Char} (hl : IsRemark l) :
      Retouch (before ++ l :: after) (before ++ after)
  | reword (before after : List (List Char)) {l l' : List Char} (hl : Rewords l l') :
      Retouch (before ++ l :: after) (before ++ l' :: after)
  | constantDown (before after : List (List Char)) {l m : List Char} (hl : "CONST ".toList <+: l)
      (hm : Unreserved m) (hcode : " ; ".toList <:+: m) :
      Retouch (before ++ l :: m :: after) (before ++ m :: l :: after)
  | constantUp (before after : List (List Char)) {l m : List Char} (hl : "CONST ".toList <+: l)
      (hm : Unreserved m) (hcode : " ; ".toList <:+: m) :
      Retouch (before ++ m :: l :: after) (before ++ l :: m :: after)

/-- The expression on a line. -/
def expression? (line : List Char) : Option (List Char) :=
  match lineKind line with
  | .function => functionParameters? line
  | .constant => constantValue? line
  | .count => some (line.drop "FUNCS_NUM: ".toList.length)
  | _ => none

/-- The expression on a line comes to the same on every line. -/
def Settled [Evaluator] (l : List Char) : Prop :=
  ∀ text ∈ expression? (trimEnd l), ∀ line line', evaluate line text = evaluate line' text

/-! ### Blanks -/

theorem isBlank_eq_false_of_isDigit (h : isDigit c = true) : isBlank c = false := by
  have hscripts : ∀ start ∈ scriptZeros, ∀ k < 10, isBlank (Char.ofNat (start + k)) = false := by
    decide +kernel
  rw [isDigit, digitValue?] at h
  split at h
  · rename_i hascii
    have hrange : 48 ≤ c.toNat ∧ c.toNat ≤ 57 := by
      by_contra hnot
      rw [if_neg (by simpa using hnot)] at h
      cases h
    have hdigit := hscripts 0x30 (by decide) (c.toNat - 48) (by omega)
    rwa [Nat.add_sub_cancel' hrange.1, Char.ofNat_toNat] at hdigit
  · rw [isSome_map, find?_isSome] at h
    obtain ⟨start, hstart, hrange⟩ := h
    simp only [Bool.and_eq_true, decide_eq_true_eq] at hrange
    have hdigit := hscripts start hstart (c.toNat - start) (by omega)
    rwa [Nat.add_sub_cancel' hrange.1, Char.ofNat_toNat] at hdigit

theorem isPrefix_trimEnd (l : List Char) : trimEnd l <+: l :=
  rdropWhile_prefix isBlank l

theorem head?_trimStart_trimEnd (h : (trimStart (trimEnd l)).head? = some c) :
    (trimStart l).head? = some c := by
  obtain ⟨rest, hrest⟩ := isPrefix_trimEnd l
  obtain ⟨cs, hcs⟩ := head?_eq_some_iff.mp h
  rw [trimStart] at hcs ⊢
  rw [← hrest, dropWhile_append, hcs]
  rfl

theorem Unreserved.trimEnd (h : Unreserved l) : Unreserved (trimEnd l) where
  function := fun hstart => h.function (hstart.trans (isPrefix_trimEnd l))
  constant := fun hstart => h.constant (hstart.trans (isPrefix_trimEnd l))
  count := fun hstart => h.count (hstart.trans (isPrefix_trimEnd l))
  remark := fun hhead => h.remark (head?_trimStart_trimEnd hhead)

theorem Unreserved.lineKind_eq (h : Unreserved l) :
    lineKind l = if holds " ; ".toList l then .code else if l.isEmpty then .blank else .stray := by
  rw [lineKind, if_neg (by simpa using h.function), if_neg (by simpa using h.constant),
    if_neg (by simpa using h.count), if_neg h.remark]

/-! ### Remarks -/

theorem lineKind_comment (h : (trimStart l).head? = some '#') : lineKind l = .comment := by
  have hnot : ∀ start : List Char, (∃ c ∈ start.head?, isBlank c = false ∧ c ≠ '#') →
      ¬ start.isPrefixOf l = true := by
    rintro start ⟨c, hc, hblank, hne⟩ hstart
    obtain ⟨cs, rfl⟩ := head?_eq_some_iff.mp hc
    obtain ⟨rest, rfl⟩ := isPrefixOf_iff_prefix.mp hstart
    rw [trimStart, cons_append, dropWhile_cons_of_neg (by simp [hblank])] at h
    exact hne (Option.some.inj h)
  rw [lineKind, if_neg (hnot _ ⟨'F', by decide⟩), if_neg (hnot _ ⟨'C', by decide⟩),
    if_neg (hnot _ ⟨'F', by decide⟩), if_pos h]

theorem IsRemark.standsFor [Evaluator] (h : IsRemark l) : StandsFor l .skipped := by
  rcases h with hblank | hremark
  · have htrim : trimEnd l = [] :=
      rdropWhile_eq_nil_iff.mpr (dropWhile_eq_nil_iff.mp hblank)
    exact .skipped (Or.inr (by rw [htrim]; decide))
  · obtain ⟨cs, hcs⟩ := head?_eq_some_iff.mp hremark
    -- the line is blanks, the beginning of the remark, and its text
    have hline : l = l.takeWhile isBlank ++ '#' :: cs := by
      rw [← hcs, trimStart, takeWhile_append_dropWhile]
    refine .skipped (Or.inl (lineKind_comment ?_))
    rw [hline, trimEnd_append_cons (by decide), trimStart,
      dropWhile_append_of_pos fun c hc => mem_takeWhile_imp hc]
    rfl

theorem IsRemark.takes [Evaluator] (h : IsRemark l) (a : Assembling) : Takes l a a :=
  takes_iff.mpr ⟨_, h.standsFor, rfl⟩

/-! ### Code lines -/

theorem exists_last_of_mem {cs : List Char} (h : c ∈ cs) :
    ∃ before after, cs = before ++ c :: after ∧ c ∉ after := by
  obtain ⟨after, before, heq, hafter⟩ := eq_append_cons_of_mem (mem_reverse.mpr h)
  exact ⟨before.reverse, after.reverse, by simpa using congrArg List.reverse heq,
    by simpa using hafter⟩

theorem eq_of_codeOf? {line : List Char} (h : codeOf? line = some text) :
    ∃ before after, line = before ++ (" ; ".toList ++ after) ∧ ';' ∉ after := by
  by_cases hmem : ';' ∈ line
  swap
  · rw [codeOf?, beforeLast?_semicolon hmem] at h
    cases h
  · obtain ⟨before, after, rfl, hafter⟩ := exists_last_of_mem hmem
    have hsome := @beforeLast?_append after [';'] ';' before rfl (beforeLast?_semicolon hafter)
    have hdrop : (before ++ ';' :: after).drop (before.length + 1) = after := by
      rw [← drop_drop, drop_left]
      rfl
    simp only [codeOf?, hsome, hdrop, bind_eq_bind, bind_some,
      bind_eq_some_iff, guard_eq_some'] at h
    obtain ⟨-, hbefore, -, hspace, -⟩ := h
    obtain ⟨first, rfl⟩ := getLast?_eq_some_iff.mp hbefore
    obtain ⟨rest, rfl⟩ := head?_eq_some_iff.mp hspace
    refine ⟨first, rest, by simp, fun hmem => hafter (by simp [hmem])⟩

/-- **The last ` ; ` of a line** has the last semicolon: if the assembler finds code on a line, the
semicolon of any last ` ; ` is the one it finds. -/
theorem exists_of_codeOf?_append {left rest : List Char}
    (h : codeOf? (left ++ ([' ', ';'] ++ rest)) = some text) (hlast : ¬ " ; ".toList <:+: rest)
    (hrest : ∀ c ∈ rest.head?, c ≠ ';') : ∃ after, rest = ' ' :: after ∧ ';' ∉ after := by
  obtain ⟨before, after, heq, hafter⟩ := eq_of_codeOf? h
  have hcut : (left ++ [' ', ';']) ++ rest = (before ++ [' ', ';']) ++ ' ' :: after := by
    simpa using heq
  have hnot : ';' ∉ ' ' :: after := by simp [hafter]
  rcases append_eq_append_iff.mp hcut with ⟨more, hmore, rfl⟩ | ⟨more, hmore, hsplit⟩
  · -- the semicolon that the assembler finds stands further right, so a later ` ; ` does too
    rcases eq_nil_or_concat more with rfl | ⟨init, c, rfl⟩
    · exact ⟨after, rfl, hafter⟩
    · have hends : before ++ [' '] ++ [';'] = left ++ [' ', ';'] ++ init ++ [c] := by
        simpa using hmore
      obtain ⟨hinit, hc⟩ := append_inj' hends rfl
      obtain rfl : ';' = c := singleton_inj.mp hc
      rcases eq_nil_or_concat init with rfl | ⟨init, d, rfl⟩
      · exact absurd rfl (hrest ';' (by simp))
      · rw [concat_eq_append, ← append_assoc] at hinit
        obtain ⟨-, hd⟩ := append_inj' hinit rfl
        obtain rfl : ' ' = d := singleton_inj.mp hd
        exact absurd ⟨init, after, by simp⟩ hlast
  · -- it stands further left, so there is a semicolon behind it
    rcases eq_nil_or_concat more with rfl | ⟨init, c, rfl⟩
    · exact ⟨after, hsplit.symm, hafter⟩
    · have hends : left ++ [' '] ++ [';'] = before ++ [' ', ';'] ++ init ++ [c] := by
        simpa using hmore
      obtain ⟨-, hc⟩ := append_inj' hends rfl
      obtain rfl : ';' = c := singleton_inj.mp hc
      exact absurd (hsplit ▸ by simp) hnot

theorem Unreserved.exists_code [Evaluator] (h : Unreserved l) (hl : StandsFor l e) (hsemi : ';' ∈ l) :
    ∃ text read, codeOf? (Text.trimEnd l) = some text ∧
      readInstruction text = .ok read ∧ (0 ≤ read.word ∧ read.word < 0x100000000) ∧
      e = .code read.word.toNat := by
  have hkind := h.trimEnd.lineKind_eq
  have hne : (Text.trimEnd l).isEmpty = false := by
    rw [isEmpty_eq_false_iff]
    intro hnil
    exact absurd (rdropWhile_eq_nil_iff.mp hnil ';' hsemi) (by decide)
  rw [hne] at hkind
  have hcode : lineKind (Text.trimEnd l) = .code ∨ lineKind (Text.trimEnd l) = .stray := by
    rw [hkind]
    split <;> simp
  cases hl with
  | code _ htext hread hword => exact ⟨_, _, htext, hread, hword, rfl⟩
  | function hother | constant hother | count hother => rw [hother] at hcode; simp at hcode
  | skipped hother => rcases hother with hother | hother <;> rw [hother] at hcode <;> simp at hcode

/-! ### Lines with other words -/

/-- **A constant with another number** shows the same value. -/
theorem constantValue?_number {digits digits' rest : List Char} (hne : digits ≠ [])
    (hdigits : ∀ c ∈ digits, isDigit c = true) (hne' : digits' ≠ [])
    (hdigits' : ∀ c ∈ digits', isDigit c = true) :
    lineKind (trimEnd ("CONST ".toList ++ (digits ++ ' ' :: rest))) = .constant ∧
      constantValue? (trimEnd ("CONST ".toList ++ (digits' ++ ' ' :: rest))) =
        constantValue? (trimEnd ("CONST ".toList ++ (digits ++ ' ' :: rest))) := by
  have htrim : ∀ ds : List Char, ds ≠ [] → (∀ c ∈ ds, isDigit c = true) →
      trimEnd ("CONST ".toList ++ (ds ++ ' ' :: rest)) =
        "CONST ".toList ++ (ds ++ trimEnd (' ' :: rest)) := by
    intro ds hds hall
    obtain ⟨init, c, rfl⟩ := (eq_nil_or_concat ds).resolve_left hds
    have hc := isBlank_eq_false_of_isDigit (hall c (by simp))
    have := @trimEnd_append_cons ("CONST ".toList ++ init) (' ' :: rest) c hc
    simpa using this
  -- what is left behind the number is the same, and begins with no digit
  have hhead : ∀ c ∈ (trimEnd (' ' :: rest)).head?, isDigit c = false := by
    rcases prefix_cons_iff.mp (isPrefix_trimEnd (' ' :: rest)) with hnil | ⟨t, ht, -⟩
    · simp [hnil]
    · simp only [ht, head?_cons, mem_some_iff, forall_eq']
      decide
  rw [htrim digits hne hdigits, htrim digits' hne' hdigits',
    constantValue?_append hne hdigits hhead, constantValue?_append hne' hdigits' hhead]
  exact ⟨lineKind_constant _, rfl⟩

/-- **A function with another label** shows the same numbers. -/
theorem functionParameters?_label {label label' rest : List Char} (hne : label ≠ [])
    (hlabel : ∀ c ∈ label, isLabelChar c = true) (hne' : label' ≠ [])
    (hlabel' : ∀ c ∈ label', isLabelChar c = true) :
    lineKind (trimEnd ("FUNC [".toList ++ (label ++ ']' :: rest))) = .function ∧
      functionParameters? (trimEnd ("FUNC [".toList ++ (label' ++ ']' :: rest))) =
        functionParameters? (trimEnd ("FUNC [".toList ++ (label ++ ']' :: rest))) := by
  have htrim : ∀ cs : List Char, trimEnd ("FUNC [".toList ++ (cs ++ ']' :: rest)) =
      "FUNC [".toList ++ (cs ++ ']' :: trimEnd rest) := by
    intro cs
    have := @trimEnd_append_cons ("FUNC [".toList ++ cs) rest ']' (by decide)
    simpa using this
  rw [htrim, htrim, functionParameters?_append hne hlabel, functionParameters?_append hne' hlabel']
  exact ⟨lineKind_function ('[' :: (label ++ ']' :: trimEnd rest)), rfl⟩

/-- **Code with another text on its left** is the same code. -/
theorem codeOf?_margin {left left' right : List Char} (hlast : ¬ " ; ".toList <:+: ' ' :: right)
    (hline' : Unreserved (left' ++ (" ; ".toList ++ right)))
    (htext : codeOf? (trimEnd (left ++ (" ; ".toList ++ right))) = some text) :
    lineKind (trimEnd (left' ++ (" ; ".toList ++ right))) = .code ∧
      codeOf? (trimEnd (left' ++ (" ; ".toList ++ right))) = some text := by
  have htrim : ∀ cs : List Char, trimEnd (cs ++ (" ; ".toList ++ right)) =
      cs ++ ([' ', ';'] ++ trimEnd (' ' :: right)) := by
    intro cs
    have := @trimEnd_append_cons (cs ++ [' ']) (' ' :: right) ';' (by decide)
    simpa using this
  have hfront := isPrefix_trimEnd (' ' :: right)
  rw [htrim left] at htext
  obtain ⟨after, hafter, hsemi⟩ := exists_of_codeOf?_append htext
    (fun hinside => hlast (hinside.trans hfront.isInfix)) (by
      rcases prefix_cons_iff.mp hfront with hnil | ⟨t, ht, -⟩
      · simp [hnil]
      · simp [ht])
  have hcut : ∀ cs : List Char, cs ++ ([' ', ';'] ++ trimEnd (' ' :: right)) =
      cs ++ (" ; ".toList ++ after) := by
    intro cs
    rw [hafter]
    rfl
  rw [hcut, codeOf?_append left hsemi] at htext
  rw [hline'.trimEnd.lineKind_eq, htrim, hcut, holds_append, codeOf?_append left' hsemi, htext]
  exact ⟨rfl, rfl⟩

theorem Unreserved.expression?_eq_none (h : Unreserved l) :
    expression? (Text.trimEnd l) = none := by
  rw [expression?, h.trimEnd.lineKind_eq]
  split_ifs <;> rfl

theorem Rewords.expression?_eq (h : Rewords l l') :
    expression? (trimEnd l') = expression? (trimEnd l) := by
  cases h with
  | number hne hdigits hne' hdigits' =>
    obtain ⟨hkind, hvalue⟩ := constantValue?_number hne hdigits hne' hdigits'
    obtain ⟨hkind', -⟩ := constantValue?_number hne' hdigits' hne hdigits
    rw [expression?, expression?, hkind, hkind', hvalue]
  | label hne hlabel hne' hlabel' =>
    obtain ⟨hkind, hvalue⟩ := functionParameters?_label hne hlabel hne' hlabel'
    obtain ⟨hkind', -⟩ := functionParameters?_label hne' hlabel' hne hlabel
    rw [expression?, expression?, hkind, hkind', hvalue]
  | margin _ hline hline' => rw [hline.expression?_eq_none, hline'.expression?_eq_none]

section

variable [Evaluator]

/-- **A line with other words** stands for the same entry, if its expression is settled. -/
theorem StandsFor.reword (h : Rewords l l') (hsettled : Settled l) (hl : StandsFor l e) :
    StandsFor l' e := by
  cases h with
  | number hne hdigits hne' hdigits' =>
    obtain ⟨hkind, hvalue⟩ := constantValue?_number hne hdigits hne' hdigits'
    obtain ⟨hkind', -⟩ := constantValue?_number hne' hdigits' hne hdigits
    cases hl with
    | constant _ htext hliteral hk =>
      refine .constant hkind' (hvalue.trans htext) ?_ hk
      rw [← hliteral]
      exact hsettled _ (by rw [expression?, hkind]; exact htext) _ _
    | function hother | code hother | count hother => rw [hkind] at hother; cases hother
    | skipped hother => rw [hkind] at hother; simp at hother
  | label hne hlabel hne' hlabel' =>
    obtain ⟨hkind, hvalue⟩ := functionParameters?_label hne hlabel hne' hlabel'
    obtain ⟨hkind', -⟩ := functionParameters?_label hne' hlabel' hne hlabel
    cases hl with
    | function _ htext hliteral hp =>
      refine .function hkind' (hvalue.trans htext) ?_ hp
      rw [← hliteral]
      exact hsettled _ (by rw [expression?, hkind]; exact htext) _ _
    | constant hother | code hother | count hother => rw [hkind] at hother; cases hother
    | skipped hother => rw [hkind] at hother; simp at hother
  | margin hlast hline hline' =>
    obtain ⟨text, read, htext, hread, hword, rfl⟩ := hline.exists_code hl (by simp)
    obtain ⟨hkind', htext'⟩ := codeOf?_margin hlast hline' htext
    exact .code hkind' htext' hread hword

/-! ### Runs -/

theorem StandsFor.exists_constant (h : StandsFor l e) (hl : "CONST ".toList <+: l) :
    ∃ k, e = .constant k := by
  obtain ⟨rest, rfl⟩ := hl
  have htrim : trimEnd ("CONST ".toList ++ rest) = "CONST".toList ++ trimEnd (' ' :: rest) :=
    @trimEnd_append_cons "CONS".toList (' ' :: rest) 'T' (by decide)
  have hkind := h.lineKind_mem
  rw [htrim] at hkind
  rcases prefix_cons_iff.mp (isPrefix_trimEnd (' ' :: rest)) with hnil | ⟨t, ht, -⟩
  · rw [hnil, show lineKind ("CONST".toList ++ []) = .stray by decide] at hkind
    cases e <;> simp [Entry.kinds] at hkind
  · rw [ht, show "CONST".toList ++ ' ' :: t = "CONST ".toList ++ t from rfl,
      lineKind_constant] at hkind
    cases e with
    | constant k => exact ⟨k, rfl⟩
    | function | code | count | skipped => simp [Entry.kinds] at hkind

theorem takesAll_swap {m : List Char} (hl : "CONST ".toList <+: l) (hm : Unreserved m)
    (hcode : " ; ".toList <:+: m) : TakesAll [l, m] a a' ↔ TakesAll [m, l] a a' := by
  have hsemi : ';' ∈ m := hcode.subset (by simp)
  simp only [takesAll_cons, takesAll_nil, takes_iff]
  constructor
  · rintro ⟨_, ⟨e, he, rfl⟩, _, ⟨e', he', rfl⟩, rfl⟩
    obtain ⟨k, rfl⟩ := he.exists_constant hl
    obtain ⟨-, read, -, -, -, rfl⟩ := hm.exists_code he' hsemi
    exact ⟨_, ⟨_, he', rfl⟩, _, ⟨_, he, rfl⟩, rfl⟩
  · rintro ⟨_, ⟨e, he, rfl⟩, _, ⟨e', he', rfl⟩, rfl⟩
    obtain ⟨k, rfl⟩ := he'.exists_constant hl
    obtain ⟨-, read, -, -, -, rfl⟩ := hm.exists_code he hsemi
    exact ⟨_, ⟨_, he', rfl⟩, _, ⟨_, he, rfl⟩, rfl⟩

theorem TakesAll.splice {before after : List (List Char)}
    (hls : TakesAll (before ++ (ls ++ after)) a a')
    (h : ∀ {b b'}, TakesAll ls b b' → TakesAll ls' b b') :
    TakesAll (before ++ (ls' ++ after)) a a' := by
  obtain ⟨b, hbefore, hrest⟩ := takesAll_append.mp hls
  obtain ⟨b', hedited, hafter⟩ := takesAll_append.mp hrest
  exact takesAll_append.mpr ⟨b, hbefore, takesAll_append.mpr ⟨b', h hedited, hafter⟩⟩

theorem IsRemark.settled (h : IsRemark l) : Settled l := by
  have hkind := h.standsFor.lineKind_mem
  intro text htext
  simp only [Entry.kinds, mem_cons, not_mem_nil, or_false] at hkind
  rcases hkind with hkind | hkind <;> rw [expression?, hkind] at htext <;> cases htext

theorem Retouch.settled (h : Retouch ls ls') (hls : ∀ l ∈ ls, Settled l) : ∀ l ∈ ls', Settled l := by
  cases h with
  | insert before after hl | delete before after hl =>
    simp only [forall_mem_append, forall_mem_cons, hl.settled, true_and] at hls ⊢
    exact hls
  | reword before after hl =>
    simp only [forall_mem_append, forall_mem_cons, Settled, hl.expression?_eq] at hls ⊢
    exact hls
  | constantDown before after | constantUp before after =>
    simp only [forall_mem_append, forall_mem_cons] at hls ⊢
    exact ⟨hls.1, hls.2.2.1, hls.2.1, hls.2.2.2⟩

/-- **One edit**: the lines are still taken, and lead to the same state. -/
theorem TakesAll.retouch (h : Retouch ls ls') (hsettled : ∀ l ∈ ls, Settled l)
    (hls : TakesAll ls a a') : TakesAll ls' a a' := by
  cases h with
  | @insert before after l hl =>
    refine @splice _ _ [] [l] _ before after hls fun {b b'} h => ?_
    exact takesAll_cons.mpr ⟨b, hl.takes b, h⟩
  | @delete before after l hl =>
    refine @splice _ _ [l] [] _ before after hls fun {b b'} h => ?_
    obtain ⟨_, hline, hb'⟩ := takesAll_cons.mp h
    obtain ⟨-, rfl⟩ := hline.unique (hl.takes b)
    exact hb'
  | @reword before after l l' hl =>
    refine @splice _ _ [l] [l'] _ before after hls fun {b b'} h => ?_
    obtain ⟨_, hline, hb'⟩ := takesAll_cons.mp h
    obtain ⟨e, he, rfl⟩ := takes_iff.mp hline
    exact takesAll_cons.mpr ⟨_, takes_iff.mpr ⟨e, he.reword hl (hsettled l (by simp)), rfl⟩, hb'⟩
  | @constantDown before after l m hl hm hcode =>
    exact @splice _ _ [l, m] [m, l] _ before after hls (takesAll_swap hl hm hcode).mp
  | @constantUp before after l m hl hm hcode =>
    exact @splice _ _ [m, l] [l, m] _ before after hls (takesAll_swap hl hm hcode).mpr

theorem TakesAll.retouches (h : Relation.ReflTransGen Retouch ls ls')
    (hsettled : ∀ l ∈ ls, Settled l) (hls : TakesAll ls a a') :
    (∀ l ∈ ls', Settled l) ∧ TakesAll ls' a a' := by
  induction h with
  | refl => exact ⟨hsettled, hls⟩
  | tail _ hedit ih => exact ⟨hedit.settled ih.1, ih.2.retouch hedit ih.1⟩

end

theorem settled_of_literals (h : ∀ text ∈ expression? (trimEnd l), (readLiteral text).isOk = true) :
    Settled l := by
  intro text htext line line'
  have hok := h text htext
  cases hread : readLiteral text with
  | error fault =>
    rw [hread] at hok
    cases hok
  | ok literal => rw [evaluate_of_readLiteral hread, evaluate_of_readLiteral hread]

/-! ### Listings -/

def withoutBreak (l : List Char) : List Char :=
  if l.getLast? = some '\n' then l.dropLast else l

theorem trimEnd_withoutBreak (l : List Char) : trimEnd (withoutBreak l) = trimEnd l := by
  rw [withoutBreak]
  split
  · rename_i hlast
    obtain ⟨init, rfl⟩ := getLast?_eq_some_iff.mp hlast
    rw [dropLast_concat, trimEnd_newline]
  · rfl

/-- The lines of a listing without their breaks, of any sort. -/
def listingLines (listing : List Char) : List (List Char) :=
  (lines (unifyNewlines listing)).map withoutBreak

theorem exists_takesAll_of_assemble [Evaluator] {listing : List Char} (h : (assemble listing).1 = .ok ()) :
    ∃ a, TakesAll (listingLines listing) { written := chunkHeader } a ∧ a.levels = [] := by
  have hends : ∃ a, Ends (takeLines (lines (unifyNewlines listing))) {} () a := by
    exact ⟨_, Prod.ext h rfl⟩
  obtain ⟨a, hends⟩ := hends
  rw [takeLines, writeBytes, ends_modify_bind, ends_bind] at hends
  obtain ⟨_, a₁, htakes, hlast⟩ := hends
  rw [ends_get_bind] at hlast
  refine ⟨a₁, (takesAll_map trimEnd_withoutBreak).mpr htakes, ?_⟩
  by_contra hopen
  rw [if_pos (by simpa using hopen)] at hlast
  exact not_ends_throw hlast

def plainLines : List (List Char) :=
  ["FUNC [0: 0] (0, 0, 0, 0, 2, 2) ;; f".toList, "CONST 0 'k'".toList, "0. ; Return  0 1".toList,
    "FUNCS_NUM: 0".toList]

/-- The same function with another label and number, the constant behind the instruction, code and
semicolons left of the code, and remarks. -/
def retouchedLines : List (List Char) :=
  ["FUNC [,: 7] (0, 0, 0, 0, 2, 2) ;; f".toList, "\t # x ; Move  0 1".toList,
    "CON ; Move  0 1 ; ; Return  0 1".toList, "CONST 42 'k'".toList, " ".toList,
    "FUNCS_NUM: 0".toList]

theorem retouches_plainLines : Relation.ReflTransGen Retouch plainLines retouchedLines := by
  refine .head (.reword [] _ (@Rewords.label "0: 0".toList ",: 7".toList
    " (0, 0, 0, 0, 2, 2) ;; f".toList (by decide) (all_eq_true.mp (by decide)) (by decide)
    (all_eq_true.mp (by decide)))) ?_
  refine .head (.reword [_] _ (@Rewords.number "0".toList "42".toList "'k'".toList (by decide)
    (all_eq_true.mp (by decide)) (by decide) (all_eq_true.mp (by decide)))) ?_
  have hplain : Unreserved "0. ; Return  0 1".toList := by constructor <;> decide
  have hcode : " ; ".toList <:+: "0. ; Return  0 1".toList := ⟨"0.".toList, "Return  0 1".toList, rfl⟩
  refine .head (.constantDown [_] _ ⟨"42 'k'".toList, rfl⟩ hplain hcode) ?_
  refine .head (.insert [_] _ (Or.inr (by decide) : IsRemark "\t # x ; Move  0 1".toList)) ?_
  refine .head (.reword [_, _] _ (@Rewords.margin "0.".toList "CON ; Move  0 1 ;".toList
    "Return  0 1".toList (by decide) hplain (by constructor <;> decide))) ?_
  exact .single (.insert [_, _, _, _] _ (Or.inl (by decide) : IsRemark " ".toList))

/-- A function whose constant is the text of its own line. -/
def selfNaming (number : Char) : List (List Char) :=
  ["FUNC [0: 0] (0, 0, 0, 0, 2, 2) ;; f".toList, "CONST ".toList ++ ([number] ++ " line".toList),
    "FUNCS_NUM: 0".toList]

end ApkWorkshop.Listing
