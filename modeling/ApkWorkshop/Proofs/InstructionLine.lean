import ApkWorkshop.Bytecode.Description
import ApkWorkshop.Proofs.Numeral

/-!
# Instruction Lines

A line of a listing names an operation and its operands. This module says what the operands of
each format are, how they may be written, and what the reader makes of such a line:

* `OperandKind.Fits` and `OperandKind.Spells` — the range of an operand, and its two notations: a
  number, or `#` and the number of a constant for operands that can be a register or a constant;
* `readInstruction_of_spelled` — a line with the name of an operation and spelled operands is read
  as that operation with those operands, whichever notation each of them is in.

The reader searches for a name that is followed by spaces and then by nothing but digits, spaces
and signs. A canonical line is one such stretch as a whole, so the search ends where it begins.
-/

namespace ApkWorkshop.Bytecode

open Text List

variable {m : Mnemonic} {ss : List String} {ns : List Int}

/-! ### Operands -/

/-- The kinds of operands: a register, a register or a constant, a number, a signed number. -/
inductive OperandKind
  | register
  | either
  | unsigned
  | signed
deriving DecidableEq

/-- The operands of each format, in the order in which a line gives them. -/
def Format.kinds : Format → List OperandKind
  | .abc => [.register, .either, .either]
  | .ac | .ab => [.register, .either]
  | .a => [.register]
  | .abx => [.register, .unsigned]
  | .asbx => [.register, .signed]
  | .sbx => [.signed]

namespace OperandKind

def range : OperandKind → Int × Int
  | .register => (0, 255)
  | .either => (0, 511)
  | .unsigned => (0, 262143)
  | .signed => (-131071, 131072)

/-- The number has room in the field. -/
def Fits (k : OperandKind) (n : Int) : Prop :=
  k.range.1 ≤ n ∧ n ≤ k.range.2

instance (k : OperandKind) (n : Int) : Decidable (k.Fits n) :=
  inferInstanceAs (Decidable (_ ∧ _))

/-- The texts that stand for an operand: its number, or for an operand that can be a constant also
`#` and the number of the constant, which is counted from 256 on. -/
inductive Spells : OperandKind → Int → String → Prop
  | number (k : OperandKind) (n : Int) : Spells k n (decimalInt n)
  | constant (n : Int) : Spells .either n ("#" ++ decimalInt (n - 256))

/-- The usual text for an operand. -/
def text : OperandKind → Int → String
  | .either, n => if 256 ≤ n then "#" ++ decimalInt (n - 256) else decimalInt n
  | _, n => decimalInt n

theorem spells_text (k : OperandKind) (n : Int) : k.Spells n (k.text n) := by
  cases k with
  | register | unsigned | signed => exact .number _ n
  | either =>
    simp only [text]
    split
    · exact .constant n
    · exact .number _ n

end OperandKind

/-- Operands of the given kinds, each in its range and with a text that stands for it. -/
inductive Spelled : List OperandKind → List Int → List String → Prop
  | nil : Spelled [] [] []
  | cons {k : OperandKind} {n : Int} {s : String} {ks : List OperandKind} {ns : List Int}
      {ss : List String} :
      k.Fits n → k.Spells n s → Spelled ks ns ss → Spelled (k :: ks) (n :: ns) (s :: ss)

def instructionLine (m : Mnemonic) (operands : List String) : String :=
  m.name ++ "  " ++ joinWith " " operands

def canonicalTexts (f : Format) (operands : List Int) : List String :=
  List.zipWith OperandKind.text f.kinds operands

def canonicalLine (m : Mnemonic) (operands : List Int) : String :=
  instructionLine m (canonicalTexts m.format operands)

section

variable {ks : List OperandKind} {ns : List Int} {ss : List String} {k : OperandKind} {n : Int}
  {s : String}

theorem spelled_zipWith_text (h : List.Forall₂ OperandKind.Fits ks ns) :
    Spelled ks ns (List.zipWith OperandKind.text ks ns) := by
  induction h with
  | nil => exact .nil
  | cons hfit _ ih => exact .cons hfit (OperandKind.spells_text _ _) ih

theorem Spelled.ne_nil {f : Format} (h : Spelled f.kinds ns ss) : ss ≠ [] := by
  rintro rfl
  cases f <;> cases h

/-! ### The text of one operand -/

/-- Is it the text of one operand among others: not empty, without spaces, made of the characters
that the reader takes for operands? -/
def IsOperandWord (cs : List Char) : Prop :=
  cs ≠ [] ∧ ∀ c ∈ cs, c ≠ ' ' ∧ isOperandChar c = true ∧ isBlank c = false

theorem isOperandWord_decimalInt (n : Int) : IsOperandWord (decimalInt n).toList := by
  refine ⟨decimalInt_ne_nil n, fun c hc => ⟨?_, ?_, isBlank_of_mem_decimalInt hc⟩⟩
  · rintro rfl
    exact absurd (isBlank_of_mem_decimalInt hc) (by decide)
  · rcases mem_decimalInt hc with rfl | hd
    · decide
    · simp [isOperandChar, isDigit_of_isDigit hd]

theorem OperandKind.Spells.isOperandWord (h : k.Spells n s) : IsOperandWord s.toList := by
  cases h with
  | number => exact isOperandWord_decimalInt n
  | constant =>
    obtain ⟨-, hall⟩ := isOperandWord_decimalInt (n - 256)
    refine ⟨by simp, fun c hc => ?_⟩
    have hc' : c = '#' ∨ c ∈ (decimalInt (n - 256)).toList := by simpa using hc
    rcases hc' with rfl | hc'
    · decide
    · exact hall c hc'

theorem OperandKind.Spells.readOperand (h : k.Spells n s) : readOperand s.toList = .ok n := by
  cases h with
  | number =>
    have hread : readInteger? (decimalInt n).toList = some n :=
      readInteger?_decimalInt _
    rw [Bytecode.readOperand.eq_def]
    split
    · rename_i cs heq
      have hmem : '#' ∈ (decimalInt n).toList := by simp [heq]
      rcases mem_decimalInt hmem with h | h <;> exact absurd h (by decide)
    · rw [hread]
  | constant =>
    have hread : readInteger? (decimalInt (n - 256)).toList = some (n - 256) :=
      readInteger?_decimalInt _
    have hchars : ("#" ++ decimalInt (n - 256)).toList = '#' :: (decimalInt (n - 256)).toList := by
      simp
    rw [hchars, Bytecode.readOperand.eq_1, hread]
    simp

theorem Spelled.mapM_readOperand (h : Spelled ks ns ss) :
    (ss.map String.toList).mapM readOperand = .ok ns := by
  induction h with
  | nil => rfl
  | cons _ hspell _ ih =>
    rw [map_cons, mapM_cons, hspell.readOperand, ih]
    rfl

theorem Spelled.isOperandWord (h : Spelled ks ns ss) : ∀ s ∈ ss, IsOperandWord s.toList := by
  induction h with
  | nil => simp
  | cons _ hspell _ ih =>
    intro s hs
    rcases mem_cons.mp hs with rfl | hs
    · exact hspell.isOperandWord
    · exact ih s hs

/-! ### Operands side by side -/

theorem toList_joinSpace_cons (s : String) (h : ss ≠ []) :
    (joinWith " " (s :: ss)).toList = s.toList ++ ' ' :: (joinWith " " ss).toList :=
  toList_joinWith_cons h

theorem splitSpaces_append {cs : List Char} (h : ∀ c ∈ cs, c ≠ ' ') (part rest : List Char) :
    splitSpaces part (cs ++ rest) = splitSpaces (cs.reverse ++ part) rest := by
  induction cs generalizing part with
  | nil => rfl
  | cons c cs ih =>
    have hc : c ≠ ' ' := h c (by simp)
    rw [cons_append, splitSpaces.eq_3 _ _ _ hc, ih (fun d hd => h d (by simp [hd]))]
    simp

theorem splitSpaces_joinWith (h : ∀ s ∈ ss, IsOperandWord s.toList) :
    splitSpaces [] (joinWith " " ss).toList = ss.map String.toList := by
  induction ss with
  | nil => simp [joinWith, splitSpaces]
  | cons s ss ih =>
    obtain ⟨hne, hall⟩ := h s (by simp)
    have hspace : ∀ c ∈ s.toList, c ≠ ' ' := fun c hc => (hall c hc).1
    have hrest := ih fun t ht => h t (by simp [ht])
    cases ss with
    | nil =>
      have := splitSpaces_append hspace [] []
      simp only [append_nil] at this
      simp [joinWith, this, splitSpaces, hne]
    | cons t rest =>
      rw [toList_joinSpace_cons s (by simp), splitSpaces_append hspace,
        splitSpaces.eq_2, hrest]
      simp [hne]

theorem isOperandChar_joinWith (h : ∀ s ∈ ss, IsOperandWord s.toList) :
    ∀ c ∈ (joinWith " " ss).toList, isOperandChar c = true := by
  induction ss with
  | nil => simp [joinWith]
  | cons s ss ih =>
    have hs := h s (by simp)
    have hrest := ih fun t ht => h t (by simp [ht])
    cases ss with
    | nil => exact fun c hc => (hs.2 c (by simpa [joinWith] using hc)).2.1
    | cons t rest =>
      intro c hc
      rw [toList_joinSpace_cons s (by simp)] at hc
      rcases mem_append.mp hc with hc | hc
      · exact (hs.2 c hc).2.1
      · rcases mem_cons.mp hc with rfl | hc
        · decide
        · exact hrest c hc

theorem head?_joinWith (h : ∀ s ∈ ss, IsOperandWord s.toList) (hne : ss ≠ []) :
    ∃ c cs, (joinWith " " ss).toList = c :: cs ∧ c ≠ ' ' := by
  cases ss with
  | nil => exact absurd rfl hne
  | cons s ss =>
    obtain ⟨hsne, hall⟩ := h s (by simp)
    obtain ⟨c, cs, hcs⟩ := exists_cons_of_ne_nil hsne
    have hc : c ≠ ' ' := (hall c (by simp [hcs])).1
    cases ss with
    | nil => exact ⟨c, cs, by simpa [joinWith] using hcs, hc⟩
    | cons t rest => exact ⟨c, _, by rw [toList_joinSpace_cons s (by simp), hcs]; rfl, hc⟩

theorem getLast?_joinWith (h : ∀ s ∈ ss, IsOperandWord s.toList) :
    ∀ c ∈ (joinWith " " ss).toList.getLast?, isBlank c = false := by
  induction ss with
  | nil => simp [joinWith]
  | cons s ss ih =>
    have hs := h s (by simp)
    have hrest := ih fun t ht => h t (by simp [ht])
    cases ss with
    | nil =>
      intro c hc
      exact (hs.2 c (mem_of_mem_getLast? (by simpa [joinWith] using hc))).2.2
    | cons t rest =>
      obtain ⟨d, ds, hd, -⟩ := head?_joinWith (fun u hu => h u (by simp [hu])) (cons_ne_nil t rest)
      intro c hc
      rw [toList_joinSpace_cons s (by simp), getLast?_append_of_ne_nil _ (by simp),
        hd, getLast?_cons_cons, ← hd] at hc
      exact hrest c hc

end

/-! ### Names -/

namespace Mnemonic

@[simp] theorem ofNumber?_number (m : Mnemonic) : ofNumber? m.number = some m := by
  cases m <;> rfl

theorem number_of_ofNumber? {n : Nat} {m : Mnemonic} (h : ofNumber? n = some m) : m.number = n := by
  have hnodup : all.Nodup := by decide
  obtain ⟨hlt, rfl⟩ := List.getElem?_eq_some_iff.mp h
  exact hnodup.idxOf_getElem n hlt

theorem number_lt (m : Mnemonic) : m.number < 38 := by
  cases m <;> decide

@[simp] theorem ofName?_name (m : Mnemonic) : ofName? m.name = some m := by
  cases m <;> decide

theorem name_chars (m : Mnemonic) :
    m.name.toList ≠ [] ∧ ∀ c ∈ m.name.toList, isWordChar c = true ∧ isBlank c = false := by
  have hall : (m.name.toList.all fun c => isWordChar c && !isBlank c) = true := by
    cases m <;> decide
  exact ⟨by cases m <;> decide, by simpa using hall⟩

end Mnemonic

/-! ### Whole lines -/

theorem toList_instructionLine (m : Mnemonic) (ss : List String) :
    (instructionLine m ss).toList = m.name.toList ++ ' ' :: ' ' :: (joinWith " " ss).toList := by
  simp [instructionLine]

theorem instructionHere?_instructionLine (m : Mnemonic) (h : ∀ s ∈ ss, IsOperandWord s.toList)
    (hne : ss ≠ []) :
    instructionHere? (instructionLine m ss).toList =
      some (m.name.toList, (joinWith " " ss).toList) := by
  obtain ⟨hname, hword⟩ := m.name_chars
  obtain ⟨c, cs, hcs, hc⟩ := head?_joinWith h hne
  obtain ⟨htake, hdrop⟩ := @span_append _ isWordChar _ (' ' :: ' ' :: (joinWith " " ss).toList)
    (fun d hd => (hword d hd).1) (by rintro _ ⟨⟩; decide)
  rw [← toList_instructionLine] at htake hdrop
  have hspaces : (' ' :: ' ' :: (joinWith " " ss).toList).dropWhile (· == ' ') =
      (joinWith " " ss).toList := by
    simp [hcs, hc]
  have hops : (joinWith " " ss).toList.all isOperandChar = true :=
    all_eq_true.mpr (isOperandChar_joinWith h)
  have hnonempty : (joinWith " " ss).toList ≠ [] := by simp [hcs]
  rw [instructionHere?, htake, hdrop, hspaces, if_pos ⟨hname, rfl, hnonempty, hops⟩]

theorem getLast?_instructionLine (m : Mnemonic) (h : ∀ s ∈ ss, IsOperandWord s.toList)
    (hne : ss ≠ []) : ∀ c ∈ (instructionLine m ss).toList.getLast?, isBlank c = false := by
  obtain ⟨d, ds, hd, -⟩ := head?_joinWith h hne
  intro c hc
  rw [toList_instructionLine, getLast?_append_of_ne_nil _ (by simp),
    getLast?_cons_cons, hd, getLast?_cons_cons, ← hd] at hc
  exact getLast?_joinWith h c hc

theorem trim_instructionLine (m : Mnemonic) (h : ∀ s ∈ ss, IsOperandWord s.toList) (hne : ss ≠ []) :
    trim (instructionLine m ss).toList = (instructionLine m ss).toList := by
  obtain ⟨hname, hword⟩ := m.name_chars
  obtain ⟨c, cs, hcs⟩ := exists_cons_of_ne_nil hname
  have hstart : trimStart (instructionLine m ss).toList = (instructionLine m ss).toList := by
    refine trimStart_eq_self fun e he => ?_
    rw [toList_instructionLine, hcs, cons_append] at he
    obtain rfl : c = e := by simpa using he
    exact (hword c (by simp [hcs])).2
  rw [trim, hstart]
  exact trimEnd_eq_self (getLast?_instructionLine m h hne)

theorem findInstruction?_instructionLine (m : Mnemonic) (h : ∀ s ∈ ss, IsOperandWord s.toList)
    (hne : ss ≠ []) :
    findInstruction? (trim (instructionLine m ss).toList) =
      some (m.name.toList, (joinWith " " ss).toList) := by
  have hhere := instructionHere?_instructionLine m h hne
  rw [trim_instructionLine m h hne]
  cases hcs : (instructionLine m ss).toList with
  | nil =>
    rw [hcs] at hhere
    simp [instructionHere?] at hhere
  | cons c cs =>
    rw [hcs] at hhere
    simp [findInstruction?, hhere]

/-- **Reading a line**: the name of an operation with spelled operands is read as that operation
with those operands. -/
theorem readInstruction_of_spelled (h : Spelled m.format.kinds ns ss) :
    readInstruction (instructionLine m ss).toList =
      (packWord m.number ns m.format).map fun w => ⟨m.name, ns, w⟩ := by
  have hword := h.isOperandWord
  rw [readInstruction, findInstruction?_instructionLine m hword h.ne_nil]
  simp only [splitSpaces_joinWith hword, h.mapM_readOperand, String.ofList_toList,
    Mnemonic.ofName?_name]
  change (packWord m.number ns m.format >>= fun w => pure (ReadLine.mk m.name ns w)) = _
  cases packWord m.number ns m.format <;> rfl

end ApkWorkshop.Bytecode
