import ApkWorkshop.Proofs.LineCensus

/-!
# What Stripping Keeps

A function that is stripped loses its source name and its debug records, and missing texts among its
constants become `nil`. Nothing that a listing shows about constants and code can tell.
-/

namespace ApkWorkshop.Bytecode

open List

theorem strippedAll_eq_map (fs : List Function) : strippedAll fs = fs.map Function.stripped := by
  induction fs with
  | nil => rw [strippedAll, map_nil]
  | cons f fs ih => rw [strippedAll, map_cons, ih]

theorem encodeAll_eq_flatMap (fs : List Function) : encodeAll fs = fs.flatMap Function.encode := by
  induction fs with
  | nil => rw [encodeAll, flatMap_nil]
  | cons f fs ih => rw [encodeAll, flatMap_cons, ih]

/-! ### Descriptions -/

theorem get?_map_stripped (ks : List Constant) (i : Int) :
    Position.get? (ks.map Constant.stripped) i = (Position.get? ks i).map Constant.stripped := by
  simp only [Position.get?, length_map, Option.map_bind, getElem?_map, Function.comp_def]

theorem constantAt_map_stripped_bind {α : Type} {f : Constant → Except Fault α}
    (hf : f .nil = f .absent) (ks : List Constant) (i : Int) :
    (constantAt (ks.map Constant.stripped) i >>= f) = (constantAt ks i >>= f) := by
  rw [constantAt, constantAt, get?_map_stripped]
  cases Position.get? ks i with
  | none => rfl
  | some k =>
    cases k with
    | absent => exact hf
    | nil | truth b | number x | text s => rfl

theorem operandShown_map_stripped (ks : List Constant) (n : Nat) :
    operandShown (ks.map Constant.stripped) n = operandShown ks n := by
  rw [operandShown, operandShown, constantAt_map_stripped_bind rfl]

theorem describe_map_stripped (f : Fields) (ks : List Constant) (m : Mnemonic) :
    describe f (ks.map Constant.stripped) m = describe f ks m := by
  cases m with
  | loadK => exact constantAt_map_stripped_bind rfl ks _
  | getGlobal | setGlobal =>
    rw [describe, describe, globalName, globalName, constantAt_map_stripped_bind rfl]
  | getTable => rw [describe, describe, readKey, readKey, constantAt_map_stripped_bind rfl]
  | setTable =>
    rw [describe, describe, writeKey, writeKey, constantAt_map_stripped_bind rfl,
      operandShown_map_stripped]
  | self => rw [describe, describe, methodName, methodName, constantAt_map_stripped_bind rfl]
  | add | sub | mul | div | mod | pow =>
    simp only [describe, describeArithmetic, operandShown_map_stripped]
  | equal | less | lessEqual =>
    simp only [describe, describeComparison, operandShown_map_stripped]
  | move | loadBool | loadNil | getUpvalue | setUpvalue | newTable | negate | not | length | concat
  | jump | test | testSet | call | tailCall | return_ | forLoop | forPrep | forIn | setList | close
  | closure | varArg => rfl

end ApkWorkshop.Bytecode

namespace ApkWorkshop.Listing

open Bytecode
open Text

/-! ### Texts that are shown as they stand -/

theorem bareTextOf?_map_stripped (ks : List Constant) (w : Nat) :
    bareTextOf? (ks.map Constant.stripped) w = bareTextOf? ks w := by
  have htext : ∀ i, textAt? (ks.map Constant.stripped) i = textAt? ks i := by
    intro i
    rw [textAt?, textAt?, get?_map_stripped]
    cases Position.get? ks i with
    | none => rfl
    | some k => cases k <;> rfl
  simp only [bareTextOf?, bareText?, htext]

theorem plainTexts_iff {f : Function} : PlainTexts f ↔
    (∀ w ∈ f.code, ∀ s ∈ bareTextOf? f.constants w, Plain s.toList) ∧
      ∀ g ∈ f.inner, PlainTexts g := by
  constructor
  · exact fun h => ⟨h f (.self f), fun g hg => h.inner hg⟩
  · rintro ⟨hown, hinner⟩ g hg
    rcases within_iff.mp hg with rfl | ⟨k, hk, hg⟩
    · exact hown
    · exact hinner k hk g hg

mutual

/-- **A stripped function** shows the same texts as they stand. -/
theorem plainTexts_stripped (f : Function) : PlainTexts f.stripped ↔ PlainTexts f := by
  cases f with
  | mk source p code ks inner debug =>
    rw [plainTexts_iff, plainTexts_iff, Function.stripped]
    simp only [Function.code, Function.constants, Function.inner, bareTextOf?_map_stripped,
      plainTexts_strippedAll inner]

theorem plainTexts_strippedAll (fs : List Function) :
    (∀ g ∈ strippedAll fs, PlainTexts g) ↔ ∀ g ∈ fs, PlainTexts g := by
  cases fs with
  | nil => rw [strippedAll]
  | cons f fs =>
    rw [strippedAll, List.forall_mem_cons, List.forall_mem_cons, plainTexts_stripped f,
      plainTexts_strippedAll fs]

end

end ApkWorkshop.Listing
