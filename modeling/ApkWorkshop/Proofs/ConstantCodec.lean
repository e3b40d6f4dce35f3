import ApkWorkshop.Proofs.FunctionListing
import ApkWorkshop.Proofs.RecordReading

/-!
# The Codec of Constants

A constant passes through four hands: it is read from its record, shown on a line of the listing, read
from that line by the assembler, and written as a record again. Truth values, finite numbers and texts
come back as they were, with the tag they had. Two kinds of constants do not:

* an infinity or a value that is no number is shown by a name that the assembler does not know
  (`evaluate_of_not_finite`), so its line is refused;
* a text record of length zero is shown like `nil`, so it comes back as `nil`, with another tag.

`constant_codec` says this of every constant that can be read.
-/

namespace ApkWorkshop.Listing

open Bytecode
open Text

theorem evaluate_of_not_finite {k : Constant} (h : ¬ FiniteNumber k) (line : List Char) :
    evaluate line k.shown.toList = .error .unknownName := by
  simp only [FiniteNumber, not_forall] at h
  obtain ⟨x, rfl, hx⟩ := h
  cases hvalue : x.value with
  | finite negative u => exact absurd ⟨negative, u, hvalue⟩ hx
  | infinite negative =>
    rw [Constant.shown, Double.text, hvalue]
    cases negative <;> rfl
  | notANumber =>
    rw [Constant.shown, Double.text, hvalue]
    rfl

theorem takeLine_constantLine_of_not_finite {k : Constant} (h : ¬ FiniteNumber k) (i : Nat)
    (a : Assembling) :
    (takeLine (trimEnd (constantLine k i).toList)).run.run a = (.error .unknownName, a) := by
  rw [trimEnd_constantLine, takeLine, lineKind_constantLine]
  simp only [takeConstant, constantValue?_constantLine, evaluate_of_not_finite h]
  rfl

theorem line_of_readConstants {o : Options} (ho : o.constants = true) {r r' : Reading}
    {ks : List Constant} (h : Ends (readConstants o) r ks r') (hr : r.onConsole = false) :
    ∃ ls, r'.listing.toList = r.listing.toList ++ unlines ls ∧ (∀ l ∈ ls, Plain l) ∧
      ls.length = ks.length ∧ ∀ i k, ks[i]? = some k → ls[i]? = some (constantLine k i).toList := by
  obtain ⟨-, ls, hlisting, rfl⟩ := writes_readConstants ho r ks r' h hr
  refine ⟨_, hlisting, fun l hl => ?_, by simp, fun i k hk => by simp [hk]⟩
  obtain ⟨p, -, rfl⟩ := List.mem_map.mp hl
  exact plain_constantLine p.1 p.2

/-- **The codec of constants.** Let a constant be read from the front of some bytes, and let it stand
at a place of a table.

A listing with constants has exactly one line for it. The line of an infinity or of a value that is no
number is refused because of its name. Any other line adds one constant to those that the assembler
will write, and its record is read again as that constant, in front of any bytes. It is the constant
itself, with the tag that was read, unless the record was a text of length zero: then the tag was four
and `nil` is written. -/
theorem constant_codec {r r' : Reading} {k : Constant} (h : Ends readConstant r k r') (i : Nat) :
    (∀ o : Options, o.constants = true → ∀ q ks q', Ends (readConstants o) q ks q' →
      q.onConsole = false → ks[i]? = some k →
      ∃ ls, q'.listing.toList = q.listing.toList ++ unlines ls ∧ (∀ l ∈ ls, Plain l) ∧
        ls.length = ks.length ∧ ls[i]? = some (constantLine k i).toList) ∧
    (¬ FiniteNumber k → ∀ a : Assembling,
      (takeLine (trimEnd (constantLine k i).toList)).run.run a = (.error .unknownName, a)) ∧
    (FiniteNumber k → ∃ k',
      (∀ a, Takes (constantLine k i).toList a { a with constants := a.constants ++ [k'] }) ∧
      Reads readConstant (encodeConstant k') (encodeConstant k').length k' ∧
      (k ≠ .absent → k' = k ∧ (encodeConstant k').head? = r.rest.head?) ∧
      (k = .absent → r.rest.head? = some 4 ∧ k' = .nil ∧ encodeConstant k' = [0])) := by
  obtain ⟨htag, hfits⟩ := tag_of_readConstant h
  refine ⟨fun o ho q ks q' hks hq hk => ?_, fun hk => takeLine_constantLine_of_not_finite hk i,
    fun hk => ⟨k.stripped, takes_constantLine hk i, reads_readConstant fun s hs => ?_,
      fun hne => ?_, ?_⟩⟩
  · obtain ⟨ls, hlisting, hplain, hlength, hline⟩ := line_of_readConstants ho hks hq
    exact ⟨ls, hlisting, hplain, hlength, hline i k hk⟩
  · refine hfits s ?_
    cases k <;> first | exact hs | cases hs
  · have hsame : k.stripped = k := by
      cases k <;> first | rfl | exact absurd rfl hne
    exact ⟨hsame, by rw [hsame, htag, head?_encodeConstant]⟩
  · rintro rfl
    exact ⟨htag, rfl, rfl⟩

/-- A text of a quote and a line feed comes back from its record and its line. -/
theorem constant_codec_quote_lineFeed :
    Ends readConstant { rest := [4, 3, 0, 0, 0, 39, 10, 0] } (.text "'\n")
      { rest := [], offset := 8 } ∧
    Takes "CONST 7 \"'\\n\"".toList {} { constants := [.text "'\n"] } ∧
    encodeConstant (.text "'\n") = [4, 3, 0, 0, 0, 39, 10, 0] := by
  have hread : Ends readConstant { rest := [4, 3, 0, 0, 0, 39, 10, 0] } (.text "'\n")
      { rest := [], offset := 8 } := by
    refine @reads_readConstant (.text "'\n") (fun s hs => ?_) _ [] (by decide +kernel)
    obtain rfl := Constant.text.inj hs
    rw [FitsRecord]
    decide +kernel
  have hline : (constantLine (.text "'\n") 7).toList = "CONST 7 \"'\\n\"".toList := by
    decide +kernel
  obtain ⟨k', htakes, -, hsame, -⟩ := (constant_codec hread 7).2.2 (by simp [FiniteNumber])
  obtain ⟨rfl, -⟩ := hsame (by simp)
  have hempty := htakes {}
  rw [hline] at hempty
  exact ⟨hread, hempty, by decide +kernel⟩

/-- The record of an infinity is read, but its line is refused; and a text record of length zero comes
back with the tag of `nil`. -/
theorem infinity_refused_and_absent_text_retagged :
    (Ends readConstant { rest := [3, 0, 0, 0, 0, 0, 0, 0xF0, 0x7F] }
        (.number ⟨0x7FF0000000000000⟩) { rest := [], offset := 9 } ∧
      ¬ ∃ a, Takes (constantLine (.number ⟨0x7FF0000000000000⟩) 0).toList {} a) ∧
    (Ends readConstant { rest := [4, 0, 0, 0, 0] } .absent { rest := [], offset := 5 } ∧
      Takes (constantLine .absent 0).toList {} { constants := [.nil] } ∧
      (encodeConstant .nil).head? ≠ some 4) := by
  refine ⟨⟨@reads_readConstant (.number ⟨0x7FF0000000000000⟩) (by simp) _ [] (by decide +kernel), ?_⟩,
    @reads_readConstant .absent (by simp) _ [] rfl, takes_constantLine (by simp [FiniteNumber]) 0 {},
    by decide⟩
  rintro ⟨a, htakes⟩
  have hinfinite : ¬ FiniteNumber (.number ⟨0x7FF0000000000000⟩) := by
    intro hfinite
    obtain ⟨negative, u, hvalue⟩ := hfinite _ rfl
    cases hvalue
  rw [Takes, Ends, takeLine_constantLine_of_not_finite hinfinite] at htakes
  cases htakes

end ApkWorkshop.Listing
