import ApkWorkshop.Proofs.LineEntries

/-!
# Operands Beyond Their Fields

The assembler adds up shifted operands and looks only at the sum: a line is refused if the sum is not a
word of 32 bits, but no operand is compared with the field that it is meant for. What is left of an
operand that does not fit its field is added to the field above, so that a line can be taken for
another instruction than the one it shows.
-/

namespace ApkWorkshop.Bytecode

open Text List OperandKind

variable {number : Nat} {ns ns' : List Int} {f : Format} {p : Int × Int} {m : Mnemonic}

theorem fits_of_spread_sbx (hp : spread .sbx ns = some p) (hnumber : number < 64)
    (h0 : 0 ≤ spreadWord number p) (h32 : spreadWord number p < 0x100000000) :
    List.Forall₂ OperandKind.Fits (Format.kinds .sbx) ns := by
  rcases ns with _ | ⟨x, _ | ⟨y, ns⟩⟩
  · cases hp
  · obtain rfl : (0, x + jumpBias) = p := Option.some.inj hp
    simp only [spreadWord, jumpBias] at h0 h32
    refine .cons ?_ .nil
    simp only [OperandKind.Fits, OperandKind.range]
    omega
  · cases hp

/-! ### Canonical lines tell operands apart -/

theorem text_injective (k : OperandKind) {n n' : Int} (h : k.text n = k.text n') : n = n' := by
  have hn := (k.spells_text n).readOperand
  rw [h, (k.spells_text n').readOperand] at hn
  exact (Except.ok.inj hn).symm

theorem zipWith_text_injective {ks : List OperandKind} (hn : ns.length = ks.length)
    (hn' : ns'.length = ks.length) (h : List.zipWith text ks ns = List.zipWith text ks ns') :
    ns = ns' := by
  induction ks generalizing ns ns' with
  | nil => rw [length_eq_zero_iff.mp hn, length_eq_zero_iff.mp hn']
  | cons k ks ih =>
    obtain ⟨n, ns, rfl⟩ := exists_cons_of_length_eq_add_one hn
    obtain ⟨n', ns', rfl⟩ := exists_cons_of_length_eq_add_one hn'
    rw [zipWith_cons_cons, zipWith_cons_cons, List.cons.injEq] at h
    rw [text_injective k h.1, ih (Nat.succ.inj hn) (Nat.succ.inj hn') h.2]

theorem isOperandWord_canonicalTexts : ∀ s ∈ canonicalTexts f ns, IsOperandWord s.toList := by
  intro s hs
  obtain ⟨k, n, -, rfl⟩ : ∃ k n, (k, n) ∈ f.kinds.zip ns ∧ text k n = s := by
    rw [canonicalTexts, ← map_uncurry_zip_eq_zipWith] at hs
    obtain ⟨⟨k, n⟩, hmem, rfl⟩ := mem_map.mp hs
    exact ⟨k, n, hmem, rfl⟩
  exact (k.spells_text n).isOperandWord

theorem canonicalLine_injective (hn : ns.length = m.format.kinds.length)
    (hn' : ns'.length = m.format.kinds.length) (h : canonicalLine m ns = canonicalLine m ns') :
    ns = ns' := by
  have hjoined : (joinWith " " (canonicalTexts m.format ns)).toList =
      (joinWith " " (canonicalTexts m.format ns')).toList := by
    have hchars := congrArg String.toList h
    rw [canonicalLine, canonicalLine, toList_instructionLine, toList_instructionLine] at hchars
    simpa using hchars
  have hsplit := congrArg (splitSpaces []) hjoined
  rw [splitSpaces_joinWith isOperandWord_canonicalTexts,
    splitSpaces_joinWith isOperandWord_canonicalTexts] at hsplit
  exact zipWith_text_injective hn hn' (map_inj_right (fun _ _ => String.toList_injective) |>.mp hsplit)

theorem length_of_spread (h : spread f ns = some p) : ns.length = f.kinds.length := by
  rcases ns with _ | ⟨a, _ | ⟨b, _ | ⟨c, _ | ⟨d, ns⟩⟩⟩⟩ <;> cases f <;> first | rfl | cases h

/-- **When operands are given back**: the word that operands add up to shows them exactly if each of them
fits its field. -/
theorem line_eq_canonicalLine_iff (hp : spread m.format ns = some p)
    (h0 : 0 ≤ spreadWord m.number p) (h32 : spreadWord m.number p < 0x100000000) :
    m.line (spreadWord m.number p) = .ok (canonicalLine m ns) ↔
      List.Forall₂ OperandKind.Fits m.format.kinds ns := by
  have hnumber : m.number < 64 := m.number_lt.trans (by decide)
  constructor
  · intro hline
    obtain ⟨ss, htexts, hss⟩ := line_eq_ok_iff.mp hline
    obtain ⟨ns', hfits, rfl, -⟩ := exists_operands_of_texts h0 h32 htexts
    obtain rfl : ns = ns' :=
      canonicalLine_injective (length_of_spread hp) hfits.length_eq.symm hss
    exact hfits
  · intro hfits
    obtain ⟨w, hpack, -, -, -, htexts⟩ := packWord_of_fits hnumber hfits
    obtain ⟨p', hp', rfl⟩ := packWord_eq_ok_iff.mp hpack
    obtain rfl : p = p' := Option.some.inj (hp.symm.trans hp')
    exact line_eq_ok_iff.mpr ⟨_, htexts, rfl⟩

end ApkWorkshop.Bytecode

namespace ApkWorkshop.Listing

open Bytecode
open Text

/-! ### Code lines -/

/-- The instruction on a code line names an operation, and these are the operands written behind it. -/
def ShowsOperation (l : List Char) (m : Mnemonic) (ns : List Int) : Prop :=
  ∃ text name operands, codeOf? (trimEnd l) = some text ∧
    findInstruction? (trim text) = some (name, operands) ∧
    (splitSpaces [] operands).mapM readOperand = .ok ns ∧
    Mnemonic.ofName? (String.ofList name) = some m

theorem readInstruction_eq_ok_iff {text : List Char} {read : ReadLine} :
    readInstruction text = .ok read ↔ ∃ name operands m ns w,
      findInstruction? (trim text) = some (name, operands) ∧
      (splitSpaces [] operands).mapM readOperand = .ok ns ∧
      Mnemonic.ofName? (String.ofList name) = some m ∧
      packWord m.number ns m.format = .ok w ∧ read = ⟨String.ofList name, ns, w⟩ := by
  cases hfound : findInstruction? (trim text) with
  | none => simp [readInstruction, hfound]
  | some found =>
    obtain ⟨name, operands⟩ := found
    cases hoperands : (splitSpaces [] operands).mapM readOperand with
    | error fault => simp [readInstruction, hfound, hoperands, bind, Except.bind]
    | ok ns =>
      cases hm : Mnemonic.ofName? (String.ofList name) with
      | none => simp [readInstruction, hfound, hoperands, hm, bind, Except.bind]
      | some m =>
        cases hword : packWord m.number ns m.format with
        | error fault =>
          simp [readInstruction, hfound, hoperands, hm, hword, bind, Except.bind]
        | ok w =>
          simp [readInstruction, hfound, hoperands, hm, hword, bind, Except.bind, pure,
            Except.pure, eq_comm]

/-- **Which code lines are taken**: those that show an operation with as many operands as its format has,
if they add up to a word of 32 bits. -/
theorem takes_code_iff {l : List Char} {a a' : Assembling} (hkind : lineKind (trimEnd l) = .code) :
    Takes l a a' ↔ ∃ m ns p, ShowsOperation l m ns ∧ spread m.format ns = some p ∧
      (0 ≤ spreadWord m.number p ∧ spreadWord m.number p < 0x100000000) ∧
      a' = a.enter (.code (spreadWord m.number p).toNat) := by
  rw [Takes, takeLine, hkind]
  constructor
  · intro h
    obtain ⟨text, read, htext, hread, hword, ha'⟩ := takeCode_iff.mp h
    obtain ⟨name, operands, m, ns, w, hfound, hoperands, hm, hpack, rfl⟩ :=
      readInstruction_eq_ok_iff.mp hread
    obtain ⟨p, hp, rfl⟩ := packWord_eq_ok_iff.mp hpack
    exact ⟨m, ns, p, ⟨text, name, operands, htext, hfound, hoperands, hm⟩, hp, hword, ha'⟩
  · rintro ⟨m, ns, p, ⟨text, name, operands, htext, hfound, hoperands, hm⟩, hp, hword, ha'⟩
    have hpack : packWord m.number ns m.format = .ok (spreadWord m.number p) :=
      packWord_eq_ok_iff.mpr ⟨p, hp, rfl⟩
    have hread : readInstruction text = .ok ⟨String.ofList name, ns, spreadWord m.number p⟩ :=
      readInstruction_eq_ok_iff.mpr ⟨name, operands, m, ns, _, hfound, hoperands, hm, hpack, rfl⟩
    exact takeCode_iff.mpr ⟨text, _, htext, hread, hword, ha'⟩

theorem ShowsOperation.unique {l : List Char} {m m' : Mnemonic} {ns ns' : List Int}
    (h : ShowsOperation l m ns) (h' : ShowsOperation l m' ns') : m = m' ∧ ns = ns' := by
  obtain ⟨text, name, operands, htext, hfound, hoperands, hm⟩ := h
  obtain ⟨text', name', operands', htext', hfound', hoperands', hm'⟩ := h'
  obtain rfl : text = text' := Option.some.inj (htext.symm.trans htext')
  obtain ⟨rfl, rfl⟩ := Prod.mk.inj (Option.some.inj (hfound.symm.trans hfound'))
  exact ⟨Option.some.inj (hm.symm.trans hm'), Except.ok.inj (hoperands.symm.trans hoperands')⟩

/-- What becomes of the operands of an operation in a word of code. -/
structure StoresOperands (m : Mnemonic) (ns : List Int) (w : Nat) : Prop where
  /-- The word is one of 32 bits. -/
  bounded : w < 0x100000000
  /-- It has the number of the operation. -/
  number : operationNumber w = m.number
  /-- It has the operands in its fields, and in each field what was carried from the one below. -/
  fields : ∃ p, spread m.format ns = some p ∧ Fields.ofWord w = carried p
  /-- It is shown with these operands exactly if each of them fits its field. -/
  shown : m.line w = .ok (canonicalLine m ns) ↔ List.Forall₂ OperandKind.Fits m.format.kinds ns

theorem storesOperands_spreadWord {m : Mnemonic} {ns : List Int} {p : Int × Int}
    (hp : spread m.format ns = some p)
    (hword : 0 ≤ spreadWord m.number p ∧ spreadWord m.number p < 0x100000000) :
    StoresOperands m ns (spreadWord m.number p).toNat := by
  obtain ⟨hnumber, hfields⟩ := ofWord_spreadWord (m.number_lt.trans (by decide)) p
  have hcast : ((spreadWord m.number p).toNat : Int) = spreadWord m.number p :=
    Int.toNat_of_nonneg hword.1
  constructor
  · omega
  · rw [hcast, hnumber]
  · rw [hcast]
    exact ⟨p, hp, hfields⟩
  · rw [hcast]
    exact line_eq_canonicalLine_iff hp hword.1 hword.2

/-- **Operands and their fields.** A code line that is taken adds one word, in which the operands stand in
their fields and what is too much for `A` or `C` is carried into the field above; so the operands are
given back exactly if all of them fit. No operand is checked for that: a line is refused if there are too
many operands or too few, or if the whole sum is no word of 32 bits. Operands that fit are never refused,
and jumps that do not fit always are. -/
theorem operands_of_code_line (l : List Char) (a : Assembling)
    (hkind : lineKind (trimEnd l) = .code) :
    (∀ a', Takes l a a' → ∃ m ns w, ShowsOperation l m ns ∧ StoresOperands m ns w ∧
      a' = { a with code := a.code ++ [w] }) ∧
    ∀ m ns, ShowsOperation l m ns → ((∃ a', Takes l a a') ↔ ∃ p, spread m.format ns = some p ∧
        0 ≤ spreadWord m.number p ∧ spreadWord m.number p < 0x100000000) ∧
      (List.Forall₂ OperandKind.Fits m.format.kinds ns → ∃ a', Takes l a a') ∧
      (m.format = .sbx → (∃ a', Takes l a a') →
        List.Forall₂ OperandKind.Fits m.format.kinds ns) := by
  constructor
  · intro a' h
    obtain ⟨m, ns, p, hshows, hp, hword, rfl⟩ := (takes_code_iff hkind).mp h
    exact ⟨m, ns, _, hshows, storesOperands_spreadWord hp hword, rfl⟩
  · intro m ns hshows
    have hnumber : m.number < 64 := m.number_lt.trans (by decide)
    have htaken : (∃ a', Takes l a a') ↔ ∃ p, spread m.format ns = some p ∧
        0 ≤ spreadWord m.number p ∧ spreadWord m.number p < 0x100000000 := by
      constructor
      · rintro ⟨a', h⟩
        obtain ⟨m', ns', p, hshows', hp, hword, -⟩ := (takes_code_iff hkind).mp h
        obtain ⟨rfl, rfl⟩ := hshows.unique hshows'
        exact ⟨p, hp, hword⟩
      · rintro ⟨p, hp, hword⟩
        exact ⟨_, (takes_code_iff hkind).mpr ⟨m, ns, p, hshows, hp, hword, rfl⟩⟩
    refine ⟨htaken, ?_, ?_⟩
    · intro hfits
      obtain ⟨p, hp, hspread, -⟩ := exists_narrow_of_fits hfits
      exact htaken.mpr ⟨p, hspread, hp.word hnumber⟩
    · intro hformat h
      obtain ⟨p, hp, h0, h32⟩ := htaken.mp h
      rw [hformat] at hp ⊢
      exact fits_of_spread_sbx hp hnumber h0 h32

/-- The largest operands of their fields are stored. -/
theorem operands_of_constant_line :
    lineKind (trimEnd " ; LoadK  255 262143".toList) = .code ∧
      ∃ w, StoresOperands .loadK [255, 262143] w ∧
        Takes " ; LoadK  255 262143".toList {} { code := [w] } := by
  have hshows : ShowsOperation " ; LoadK  255 262143".toList .loadK [255, 262143] :=
    ⟨"LoadK  255 262143".toList, "LoadK".toList, "255 262143".toList, by decide, by decide,
      by rfl, by decide⟩
  obtain ⟨htakes, hothers⟩ :=
    operands_of_code_line " ; LoadK  255 262143".toList {} (by decide)
  obtain ⟨a', h⟩ := (hothers _ _ hshows).2.1 (by decide)
  obtain ⟨m, ns, w, hshows', hstores, rfl⟩ := htakes a' h
  obtain ⟨rfl, rfl⟩ := hshows.unique hshows'
  exact ⟨by decide, w, hstores, h⟩

/-- **A register too large** is no fault: a listing with a line that loads the first constant into register
256 is assembled, and the chunk loads the second constant into register 0 instead. -/
theorem register_carried_into_constant :
    ShowsOperation " ; LoadK  256 0".toList .loadK [256, 0] ∧
      ¬ List.Forall₂ OperandKind.Fits (Mnemonic.format .loadK).kinds [256, 0] ∧
      assemble ("FUNC [0: 0] (0, 0, 0, 0, 2, 2) ;; main\n".toList ++
          " ; LoadK  256 0\n ; Return  0 1\nFUNCS_NUM: 0\n".toList) =
        (.ok (), encodeChunk (.mk none ⟨0, 0, 0, 0, 2, 2⟩ [0x4001, plainReturn] [] [] {})) ∧
      Mnemonic.line .loadK 0x4001 = .ok (canonicalLine .loadK [0, 1]) := by
  refine ⟨⟨"LoadK  256 0".toList, "LoadK".toList, "256 0".toList, ?_, ?_, ?_, ?_⟩, ?_, ?_, ?_⟩
  · decide
  · decide
  · rfl
  · decide
  · decide
  · decide +kernel
  · decide

end ApkWorkshop.Listing
