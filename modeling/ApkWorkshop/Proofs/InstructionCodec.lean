import ApkWorkshop.Proofs.InstructionLine
import Mathlib.Data.Set.Function

/-!
# The Instruction Codec

An instruction is a word of 32 bits and a line of text. A word is the number of an operation, a
field `A` and a rest of eighteen bits, which is either one number `Bx` or the two fields `B` and
`C`; every format reads its operands off that one layout (`spread`, `operandsOf`). From it follow

* `packWord_of_fits` — packing operands in their ranges makes a word of 32 bits that has the
  number of the operation and shows the canonical texts of the same operands;
* `exists_operands_of_texts` — a word of 32 bits that shows texts shows the canonical texts of
  operands that pack to that very word;
* `instruction_codec` — reading the line of a described word gives the word, reading any spelling
  of operands gives a word with the canonical line of these operands, and words and canonical
  lines are in bijection.
-/

namespace ApkWorkshop.Bytecode

open Text List OperandKind Mnemonic Fields

variable {n : Nat} {w : Int} {f : Format} {ns : List Int} {ss : List String} {m : Mnemonic}
  {s : String} {p : Int × Int}

/-! ### The layout of a word -/

/-- What a line puts into the field `A` and into the eighteen bits above it, if it has as many operands
as the format; the numbers may be of any size. -/
def spread : Format → List Int → Option (Int × Int)
  | .abc, [a, b, c] => some (a, b * 512 + c)
  | .ac, [a, c] => some (a, c)
  | .ab, [a, b] => some (a, b * 512)
  | .a, [a] => some (a, 0)
  | .abx, [a, x] => some (a, x)
  | .asbx, [a, x] => some (a, x + jumpBias)
  | .sbx, [x] => some (0, x + jumpBias)
  | _, _ => none

def spreadWord (number : Nat) (p : Int × Int) : Int :=
  number + p.1 * 0x40 + p.2 * 0x4000

/-- The fields of such a sum: what is left of `A` above its eight bits is added to the rest, and of the
rest, `C` has the lower half and `B` the upper one. -/
def carried (p : Int × Int) : Fields where
  a := (p.1 % 256).toNat
  b := ((p.2 + p.1 / 256) / 512 % 512).toNat
  c := ((p.2 + p.1 / 256) % 512).toNat
  bx := p.2 + p.1 / 256

theorem packWord_eq_ok_iff :
    packWord n ns f = .ok w ↔ ∃ p, spread f ns = some p ∧ w = spreadWord n p := by
  rcases ns with _ | ⟨a, _ | ⟨b, _ | ⟨c, _ | ⟨d, ns⟩⟩⟩⟩ <;> cases f <;>
    simp [packWord, spread, spreadWord, eq_comm] <;> omega

/-- **The fields of a sum.** The operation number stays as it is, since everything else is a multiple of
its 64 values. -/
theorem ofWord_spreadWord (hn : n < 64) (p : Int × Int) :
    operationNumber (spreadWord n p) = n ∧ ofWord (spreadWord n p) = carried p := by
  simp only [operationNumber, ofWord, spreadWord, carried, mk.injEq]
  omega

theorem operandText_eq (n : Nat) : operandText n = either.text n := by
  by_cases h : 256 ≤ n
  · have hsub : (n : Int) - 256 = ((n - 256 : Nat) : Int) := by omega
    have hint : (256 : Int) ≤ n := by exact_mod_cast h
    rw [operandText, text, if_pos h, if_pos hint, hsub, decimalInt_natCast]
  · have hint : ¬ (256 : Int) ≤ n := by exact_mod_cast h
    rw [operandText, text, if_neg h, if_neg hint, decimalInt_natCast]

/-- Do the two numbers fit, so that nothing is carried? -/
def Narrow (p : Int × Int) : Prop :=
  (0 ≤ p.1 ∧ p.1 < 256) ∧ 0 ≤ p.2 ∧ p.2 < 0x40000

theorem Narrow.word (hp : Narrow p) (hn : n < 64) :
    0 ≤ spreadWord n p ∧ spreadWord n p < 0x100000000 := by
  obtain ⟨⟨h₁, h₂⟩, h₃, h₄⟩ := hp
  rw [spreadWord]
  omega

theorem exists_layout (h0 : 0 ≤ w) (h32 : w < 0x100000000) :
    ∃ n p, n < 64 ∧ Narrow p ∧ w = spreadWord n p := by
  refine ⟨(w % 64).toNat, (w / 64 % 256, w / 0x4000), by omega, ?_, ?_⟩
  · simp only [Narrow]
    omega
  · simp only [spreadWord]
    omega

/-! ### The operands of a layout -/

/-- The operands that a format reads off the two numbers. -/
def operandsOf (p : Int × Int) : Format → List Int
  | .abc => [p.1, p.2 / 512, p.2 % 512]
  | .ac => [p.1, p.2 % 512]
  | .ab => [p.1, p.2 / 512]
  | .a => [p.1]
  | .abx => [p.1, p.2]
  | .asbx => [p.1, p.2 - jumpBias]
  | .sbx => [p.2 - jumpBias]

theorem fits_operandsOf (hp : Narrow p) :
    List.Forall₂ OperandKind.Fits f.kinds (operandsOf p f) := by
  obtain ⟨⟨h₁, h₂⟩, h₃, h₄⟩ := hp
  cases f <;> simp [Format.kinds, operandsOf, OperandKind.Fits, OperandKind.range, jumpBias] <;>
    omega

theorem exists_narrow_of_fits (h : List.Forall₂ OperandKind.Fits f.kinds ns) :
    ∃ p, Narrow p ∧ spread f ns = some p ∧ operandsOf p f = ns := by
  rcases ns with _ | ⟨a, _ | ⟨b, _ | ⟨c, _ | ⟨d, ns⟩⟩⟩⟩ <;> cases f <;>
    simp [Format.kinds, OperandKind.Fits, OperandKind.range] at h <;>
    simp [spread, operandsOf, Narrow, jumpBias] <;> omega

/-- **What a format shows**: the operands that it reads off, and an error where the same operands
would not give the two numbers back. -/
theorem operandTexts_carried (hp : Narrow p) : operandTexts (carried p) f = .ok ss ↔
    spread f (operandsOf p f) = some p ∧ canonicalTexts f (operandsOf p f) = ss := by
  obtain ⟨a, x⟩ := p
  obtain ⟨⟨h₁, h₂⟩, h₃, h₄⟩ := hp
  obtain ⟨a, rfl⟩ := Int.eq_ofNat_of_zero_le h₁
  obtain ⟨x, rfl⟩ := Int.eq_ofNat_of_zero_le h₃
  have hcarried : carried ((a : Int), (x : Int)) = ⟨a, x / 512, x % 512, x⟩ := by
    simp only [carried, mk.injEq] at h₂ h₄ ⊢
    omega
  rw [hcarried]
  cases f <;> simp [operandTexts, spread, operandsOf, canonicalTexts, Format.kinds, operandText_eq,
    text, sbx, jumpBias] <;> split_ifs <;> simp_all <;> omega

theorem packWord_of_fits (hn : n < 64) (h : List.Forall₂ OperandKind.Fits f.kinds ns) :
    ∃ w, packWord n ns f = .ok w ∧ 0 ≤ w ∧ w < 0x100000000 ∧ operationNumber w = n ∧
      operandTexts (ofWord w) f = .ok (canonicalTexts f ns) := by
  obtain ⟨p, hp, hspread, rfl⟩ := exists_narrow_of_fits h
  obtain ⟨hop, hfields⟩ := ofWord_spreadWord hn p
  obtain ⟨h0, h32⟩ := hp.word hn
  refine ⟨_, packWord_eq_ok_iff.mpr ⟨p, hspread, rfl⟩, h0, h32, hop, ?_⟩
  rw [hfields]
  exact (operandTexts_carried hp).mpr ⟨hspread, rfl⟩

theorem exists_operands_of_texts (h0 : 0 ≤ w) (h32 : w < 0x100000000)
    (h : operandTexts (ofWord w) f = .ok ss) :
    ∃ ns, List.Forall₂ OperandKind.Fits f.kinds ns ∧ ss = canonicalTexts f ns ∧
      packWord (operationNumber w) ns f = .ok w := by
  obtain ⟨n, p, hn, hp, rfl⟩ := exists_layout h0 h32
  obtain ⟨hop, hfields⟩ := ofWord_spreadWord hn p
  rw [hfields] at h
  obtain ⟨hspread, hss⟩ := (operandTexts_carried hp).mp h
  rw [hop]
  exact ⟨_, fits_operandsOf hp, hss.symm, packWord_eq_ok_iff.mpr ⟨p, hspread, rfl⟩⟩

/-! ### Lines of words -/

/-- The line for an instruction word. -/
def wordLine (w : Int) : Except Fault String := do
  let some m := Mnemonic.ofNumber? (operationNumber w) | throw .unknownOperation
  m.line w

/-- The instruction word for a line. -/
def readWordOf (line : String) : Except Fault Int :=
  (readInstruction line.toList).map (·.word)

def IsInstructionWord (w : Int) : Prop :=
  0 ≤ w ∧ w < 0x100000000 ∧ ∃ s, wordLine w = .ok s

/-- Is it the canonical line of an operation with operands in their ranges? -/
def IsCanonicalLine (s : String) : Prop :=
  ∃ (m : Mnemonic) (ns : List Int),
    List.Forall₂ OperandKind.Fits m.format.kinds ns ∧ s = canonicalLine m ns

theorem line_eq_ok_iff :
    m.line w = .ok s ↔
      ∃ ss, operandTexts (ofWord w) m.format = .ok ss ∧ s = instructionLine m ss := by
  rw [line]
  cases operandTexts (ofWord w) m.format with
  | error fault => exact ⟨fun h => (by cases h), fun ⟨ss, h, _⟩ => (by cases h)⟩
  | ok ss =>
    constructor
    · intro h
      cases h
      exact ⟨ss, rfl, rfl⟩
    · rintro ⟨_, h, rfl⟩
      cases h
      rfl

theorem wordLine_eq_ok_iff :
    wordLine w = .ok s ↔ ∃ m : Mnemonic, m.number = operationNumber w ∧ m.line w = .ok s := by
  rw [wordLine]
  cases hm : ofNumber? (operationNumber w) with
  | none =>
    refine ⟨fun h => (by cases h), fun ⟨m, hnum, _⟩ => ?_⟩
    rw [← hnum, ofNumber?_number] at hm
    cases hm
  | some m =>
    refine ⟨fun h => ⟨m, number_of_ofNumber? hm, h⟩, fun ⟨m', hnum, h⟩ => ?_⟩
    rw [← hnum, ofNumber?_number] at hm
    obtain rfl : m' = m := Option.some.inj hm
    exact h

theorem readWordOf_line (h0 : 0 ≤ w) (h32 : w < 0x100000000) (hnum : m.number = operationNumber w)
    (h : m.line w = .ok s) : IsCanonicalLine s ∧ readWordOf s = .ok w := by
  obtain ⟨ss, htexts, rfl⟩ := line_eq_ok_iff.mp h
  obtain ⟨ns, hfit, rfl, hpack⟩ := exists_operands_of_texts h0 h32 htexts
  refine ⟨⟨m, ns, hfit, rfl⟩, ?_⟩
  have hread := readInstruction_of_spelled (spelled_zipWith_text hfit)
  rw [hnum, hpack] at hread
  rw [readWordOf, canonicalTexts, hread]
  rfl

theorem readWordOf_spelled (h : Spelled m.format.kinds ns ss) :
    ∃ w, readWordOf (instructionLine m ss) = .ok w ∧ 0 ≤ w ∧ w < 0x100000000 ∧
      operationNumber w = m.number ∧ m.line w = .ok (canonicalLine m ns) := by
  have hfit : List.Forall₂ OperandKind.Fits m.format.kinds ns := by
    generalize m.format.kinds = ks at h
    induction h with
    | nil => exact .nil
    | cons hfit _ _ ih => exact .cons hfit ih
  have hnum := m.number_lt
  obtain ⟨w, hpack, h0, h32, hop, htexts⟩ :=
    packWord_of_fits (by omega : m.number < 64) hfit
  refine ⟨w, ?_, h0, h32, hop, line_eq_ok_iff.mpr ⟨_, htexts, rfl⟩⟩
  rw [readWordOf, readInstruction_of_spelled h, hpack]
  rfl

theorem line_of_ofWord {ks : List Constant} {d : Description}
    (h : Description.ofWord ks w = .ok d) :
    ∃ m : Mnemonic, m.number = operationNumber w ∧ m.line w = .ok d.line ∧
      describe (ofWord w) ks m = .ok (d.text, d.flow, d.distance) := by
  rw [Description.ofWord] at h
  cases hm : ofNumber? (operationNumber w) with
  | none => rw [hm] at h; cases h
  | some m =>
    rw [hm] at h
    cases hline : m.line w with
    | error fault => simp only [hline] at h; cases h
    | ok line =>
      simp only [hline] at h
      cases hd : describe (ofWord w) ks m with
      | error fault => simp only [hd] at h; cases h
      | ok t =>
        simp only [hd] at h
        cases h
        exact ⟨m, number_of_ofNumber? hm, hline, hd⟩

/-- **The instruction codec.** The line of every described word of 32 bits is read as that word;
every spelling of operands in their ranges is read as a word of 32 bits that the operation shows
by the canonical line of the same operands; and words with a line and canonical lines are in
bijection, reading being the inverse. -/
theorem instruction_codec :
    (∀ (w : Int) (ks : List Constant) (d : Description), 0 ≤ w → w < 0x100000000 →
      Description.ofWord ks w = .ok d → readWordOf d.line = .ok w) ∧
    (∀ (m : Mnemonic) (ns : List Int) (ss : List String), Spelled m.format.kinds ns ss →
      ∃ w, readWordOf (instructionLine m ss) = .ok w ∧ 0 ≤ w ∧ w < 0x100000000 ∧
        operationNumber w = m.number ∧ m.line w = .ok (canonicalLine m ns)) ∧
    Set.BijOn wordLine {w | IsInstructionWord w} (Except.ok '' {s | IsCanonicalLine s}) ∧
    (∀ w s, IsInstructionWord w → wordLine w = .ok s → readWordOf s = .ok w) := by
  have hback : ∀ w s, IsInstructionWord w → wordLine w = .ok s →
      IsCanonicalLine s ∧ readWordOf s = .ok w := by
    rintro w s ⟨h0, h32, -⟩ hline
    obtain ⟨m, hnum, hm⟩ := wordLine_eq_ok_iff.mp hline
    exact readWordOf_line h0 h32 hnum hm
  refine ⟨?_, fun m ns ss h => readWordOf_spelled h, ⟨?_, ?_, ?_⟩, fun w s h hs => (hback w s h hs).2⟩
  · intro w ks d h0 h32 hd
    obtain ⟨m, hnum, hline, -⟩ := line_of_ofWord hd
    exact (readWordOf_line h0 h32 hnum hline).2
  · rintro w ⟨h0, h32, s, hs⟩
    exact ⟨s, (hback w s ⟨h0, h32, s, hs⟩ hs).1, hs.symm⟩
  · rintro w₁ ⟨h0, h32, s, hs⟩ w₂ hw₂ heq
    have h₁ := (hback w₁ s ⟨h0, h32, s, hs⟩ hs).2
    have h₂ := (hback w₂ s hw₂ (heq ▸ hs)).2
    exact Except.ok.inj (h₁.symm.trans h₂)
  · rintro _ ⟨s, ⟨m, ns, hfit, rfl⟩, rfl⟩
    obtain ⟨w, -, h0, h32, hop, hline⟩ := readWordOf_spelled (spelled_zipWith_text hfit)
    have hw : wordLine w = .ok (canonicalLine m ns) :=
      wordLine_eq_ok_iff.mpr ⟨m, hop.symm, hline⟩
    exact ⟨w, ⟨h0, h32, _, hw⟩, hw⟩

/-- The codec at a table access whose key is the fourth constant: the described word is read back
from its line, and the key may also be written as the number 259. -/
theorem instruction_codec_getTable :
    (∃ d, Description.ofWord [.nil, .nil, .nil, .text "key"] 0x40c006 = .ok d ∧
      readWordOf d.line = .ok 0x40c006) ∧
    ∃ w, readWordOf "GetTable  0 0 259" = .ok w ∧
      Mnemonic.getTable.line w = .ok "GetTable  0 0 #3" := by
  refine ⟨⟨_, rfl, instruction_codec.1 _ [.nil, .nil, .nil, .text "key"] _ (by decide)
    (by decide) rfl⟩, ?_⟩
  have hspelled : Spelled Mnemonic.getTable.format.kinds [0, 0, 259] ["0", "0", "259"] :=
    .cons (by decide) (.number .register 0) (.cons (by decide) (.number .either 0)
      (.cons (by decide) (.number .either 259) .nil))
  obtain ⟨w, hread, -, -, -, hline⟩ := instruction_codec.2.1 _ _ _ hspelled
  exact ⟨w, hread, hline⟩

end ApkWorkshop.Bytecode
