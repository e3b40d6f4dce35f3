import ApkWorkshop.Proofs.ChunkRoundTrip
import ApkWorkshop.Proofs.LineEntries

/-!
# The Nesting Stack Is Exact

A listing is flat: it has a block of lines for every function, each with the number of functions in
it, and the assembler keeps a stack of how many are still to come. This module says which sequences of
blocks it accepts and what it writes for them. The sequences are those that arise from a forest of
functions written in preorder (`blocksAll`).
-/

namespace ApkWorkshop.Bytecode

/-- What a listing says about a function in one piece: all but its inner functions, of which it gives
the number. -/
structure Block where
  parameters : Parameters
  code : List Nat
  constants : List Constant
  count : Nat
deriving DecidableEq

namespace Block

def encode (b : Block) : List UInt8 :=
  encodeText none ++ encodeParameters b.parameters ++ encodeList encodeWord b.code
    ++ encodeList encodeConstant b.constants ++ encodeWord b.count

def toFunction (b : Block) (inner : List Function) : Function :=
  .mk none b.parameters b.code b.constants inner {}

end Block

mutual

/-- The blocks of a function and of all functions in it, in preorder. -/
def Function.blocks : Function → List Block
  | .mk _ parameters code constants inner _ =>
    ⟨parameters, code, constants.map Constant.stripped, inner.length⟩ :: blocksAll inner

def blocksAll : List Function → List Block
  | [] => []
  | f :: rest => f.blocks ++ blocksAll rest

end

theorem Block.blocks_toFunction {b : Block} {inner : List Function}
    (hcount : inner.length = b.count)
    (hconstants : b.constants.map Constant.stripped = b.constants) :
    (b.toFunction inner).blocks = b :: blocksAll inner := by
  rw [Block.toFunction, Function.blocks, hcount, hconstants]

end ApkWorkshop.Bytecode

namespace ApkWorkshop.Listing

open Bytecode Assembling List
open Text

variable {bs : List Block} {n : Nat} {ls : List (List Char)} {b : Block}

/-! ### From a forest to the stack -/

/-- The state behind a block: its records are written, and what is finished is closed. -/
def Assembling.addBlock (a : Assembling) (b : Block) : Assembling :=
  { written := a.written ++ b.encode ++ (closeFinished ⟨b.count, decimal b.count⟩ a.levels).1
    levels := (closeFinished ⟨b.count, decimal b.count⟩ a.levels).2 }

mutual

/-- **The blocks of a function** are written as its encoding, whichever functions are open. -/
theorem foldl_addBlock_blocks (f : Function) (written : List UInt8) (levels : List OpenFunction) :
    f.blocks.foldl addBlock ⟨written, [], [], levels⟩ =
      ⟨written ++ f.stripped.encode ++ (finish levels).1, [], [], (finish levels).2⟩ := by
  cases f with
  | mk source p code ks inner debug =>
    rw [Function.blocks, foldl_cons, addBlock]
    rw [foldl_addBlock_inner inner]
    simp [Block.encode, Function.stripped, Function.encode, length_strippedAll, emptyDebug]

theorem foldl_addBlock_inner (fs : List Function) (written : List UInt8)
    (levels : List OpenFunction) :
    (blocksAll fs).foldl addBlock
      ⟨written ++ (closeFinished ⟨fs.length, decimal fs.length⟩ levels).1, [], [],
        (closeFinished ⟨fs.length, decimal fs.length⟩ levels).2⟩ =
      ⟨written ++ encodeAll (strippedAll fs) ++ emptyDebug ++ (finish levels).1, [], [],
        (finish levels).2⟩ := by
  cases fs with
  | nil =>
    rw [length_nil, closeFinished_zero, strippedAll, encodeAll, blocksAll]
    simp
  | cons f fs =>
    rw [length_cons, closeFinished_succ, strippedAll, encodeAll, blocksAll, foldl_append,
      append_nil, foldl_addBlock_blocks f]
    have hrest := foldl_addBlock_inner fs (written ++ f.stripped.encode) levels
    simpa [finish, OpenFunction.countDown] using hrest

end

theorem foldl_addBlock_blocksAll (forest : List Function) (written : List UInt8) :
    (blocksAll forest).foldl addBlock ⟨written, [], [], []⟩ =
      ⟨written ++ encodeAll (strippedAll forest), [], [], []⟩ := by
  induction forest generalizing written with
  | nil => simp [blocksAll, strippedAll, encodeAll]
  | cons f forest ih =>
    rw [blocksAll, foldl_append, foldl_addBlock_blocks, finish, strippedAll, encodeAll,
      append_nil, ih, append_assoc]

/-! ### From the stack to a forest -/

def stillOpen (counts : List Nat) (levels : List OpenFunction) : List OpenFunction :=
  counts.foldl (fun levels n => (closeFinished ⟨n, decimal n⟩ levels).2) levels

theorem levels_foldl_addBlock (bs : List Block) (a : Assembling) :
    (bs.foldl addBlock a).levels = stillOpen (bs.map (·.count)) a.levels := by
  induction bs generalizing a with
  | nil => rfl
  | cons b bs ih => exact ih (a.addBlock b)

/-- **Behind a count line**: if nothing is open in the end, the blocks begin with those of as many
functions as were announced, and the others follow as if the function around them were complete. -/
theorem exists_forest_of_stillOpen (hbs : ∀ b ∈ bs, b.constants.map Constant.stripped = b.constants)
    {levels : List OpenFunction}
    (h : stillOpen (bs.map (·.count)) (closeFinished ⟨n, decimal n⟩ levels).2 = []) :
    ∃ forest rest, forest.length = n ∧ bs = blocksAll forest ++ rest ∧
      stillOpen (rest.map (·.count)) (finish levels).2 = [] := by
  -- A block is followed by its own inner functions, then by its siblings: both lists are shorter.
  induction hlength : bs.length using Nat.strong_induction_on generalizing bs n levels with
  | _ length ih =>
    cases n with
    | zero => exact ⟨[], bs, rfl, by simp [blocksAll], by rwa [closeFinished_zero] at h⟩
    | succ n =>
      rw [closeFinished_succ] at h
      cases bs with
      | nil => cases h
      | cons b bs =>
        obtain ⟨inner, siblings, hinner, rfl, hsiblings⟩ :=
          @ih bs.length (by simp [← hlength]) bs b.count (fun c hc => hbs c (by simp [hc]))
            (⟨n + 1, decimal (n + 1)⟩ :: levels) h rfl
        obtain ⟨forest, rest, hforest, rfl, hrest⟩ :=
          @ih siblings.length (by simp [← hlength]) siblings n
            (fun c hc => hbs c (by simp [hc])) levels hsiblings rfl
        refine ⟨b.toFunction inner :: forest, rest, by simp [hforest], ?_, hrest⟩
        rw [blocksAll, Block.blocks_toFunction hinner (hbs b (by simp)), cons_append,
          cons_append, append_assoc]

theorem exists_forest (hbs : ∀ b ∈ bs, b.constants.map Constant.stripped = b.constants)
    (h : stillOpen (bs.map (·.count)) [] = []) : ∃ forest, blocksAll forest = bs := by
  induction hlength : bs.length using Nat.strong_induction_on generalizing bs with
  | _ length ih =>
    cases bs with
    | nil => exact ⟨[], rfl⟩
    | cons b bs =>
      obtain ⟨inner, rest, hinner, rfl, hrest⟩ :=
        @exists_forest_of_stillOpen bs b.count (fun c hc => hbs c (by simp [hc])) [] h
      obtain ⟨forest, hforest⟩ := @ih rest.length (by simp [← hlength]) rest
        (fun c hc => hbs c (by simp [hc])) hrest rfl
      refine ⟨b.toFunction inner :: forest, ?_⟩
      rw [blocksAll, Block.blocks_toFunction hinner (hbs b (by simp)), hforest, cons_append]

/-- **The stack is exact**: nothing is open behind counts exactly if they are those of a forest. -/
theorem stillOpen_eq_nil_iff {counts : List Nat} :
    stillOpen counts [] = [] ↔ ∃ forest, (blocksAll forest).map (·.count) = counts := by
  constructor
  · intro h
    have hcounts : (counts.map fun n => (⟨⟨0, 0, 0, 0, 0, 0⟩, [], [], n⟩ : Block)).map (·.count) =
        counts := by
      simp [Function.comp_def]
    obtain ⟨forest, hforest⟩ := @exists_forest (counts.map fun n => ⟨⟨0, 0, 0, 0, 0, 0⟩, [], [], n⟩)
      (by simp) (by rwa [hcounts])
    exact ⟨forest, by rw [hforest, hcounts]⟩
  · rintro ⟨forest, rfl⟩
    have hlevels := levels_foldl_addBlock (blocksAll forest) {}
    rw [foldl_addBlock_blocksAll] at hlevels
    exact hlevels.symm

/-! ### Listings of blocks -/

section

variable [Evaluator]

/-- Lines that spell a block: any skipped lines, a function line, lines with constants and with
instructions, mixed with skipped ones, and the line with the count. -/
inductive Spells : List (List Char) → Block → Prop
  | mk {before body : List (List Char)} {head last : List Char} {es : List Entry} {p : Parameters}
      {n : Nat} (hbefore : ∀ l ∈ before, StandsFor l .skipped)
      (hhead : StandsFor head (.function p))
      (hbody : List.Forall₂ StandsFor body es)
      (hinBody : ∀ e ∈ es, e.inBody = true) (hlast : StandsFor last (.count ⟨n, decimal n⟩)) :
      Spells (before ++ head :: (body ++ [last]))
        ⟨p, es.filterMap Entry.word?, es.filterMap Entry.constant?, n⟩

/-- **One block**: between blocks nothing is collected, and the lines of a block add it. -/
theorem takesAll_block (h : Spells ls b) (written : List UInt8) (levels : List OpenFunction) :
    TakesAll ls ⟨written, [], [], levels⟩ (addBlock ⟨written, [], [], levels⟩ b) := by
  cases h with
  | mk hbefore hhead hbody hinBody hlast =>
    refine takesAll_append.mpr ⟨_, takesAll_of_standsFor_skipped hbefore _, ?_⟩
    refine takesAll_cons.mpr ⟨_, takes_iff.mpr ⟨_, hhead, rfl⟩, ?_⟩
    refine takesAll_append.mpr ⟨_, takesAll_iff.mpr ⟨_, hbody, rfl⟩, ?_⟩
    refine takesAll_cons.mpr ⟨_, takes_iff.mpr ⟨_, hlast, rfl⟩, ?_⟩
    rw [foldl_enter_body hinBody]
    simp [addBlock, enter, Block.encode]

theorem takesAll_blocks {lss : List (List (List Char))} (h : List.Forall₂ Spells lss bs)
    (written : List UInt8) (levels : List OpenFunction) :
    TakesAll lss.flatten ⟨written, [], [], levels⟩
      (bs.foldl addBlock ⟨written, [], [], levels⟩) := by
  induction h generalizing written levels with
  | nil => simp
  | cons hb _ ih => exact takesAll_append.mpr ⟨_, takesAll_block hb written levels, ih _ _⟩

theorem Spells.stripped_constants (h : Spells ls b) :
    b.constants.map Constant.stripped = b.constants := by
  cases h with
  | mk _ _ hbody hinBody _ =>
    clear hinBody
    induction hbody with
    | nil => rfl
    | cons hl _ ih =>
      rename_i e _ _ _
      cases e with
      | constant k => simpa [Entry.constant?, hl.stripped_eq] using ih
      | function | code | count | skipped => exact ih

end

/-- The lines of a small function with the given number of inner functions. -/
def smallBlock (n : Nat) : List (List Char) :=
  ["FUNC [0: 0] (0, 0, 0, 0, 2, 2) ;; f\n".toList, "\t# a comment\n".toList,
    "0. ; Return  0 1\n".toList, "CONST 0 'k'\n".toList, (countLine n).toList ++ ['\n']]

def smallFunction (inner : List Function) : Function :=
  .mk none ⟨0, 0, 0, 0, 2, 2⟩ [plainReturn] [.text "k"] inner {}

theorem spells_smallBlock (hn : n < 0x100000000) :
    Spells (smallBlock n) ⟨⟨0, 0, 0, 0, 2, 2⟩, [plainReturn], [.text "k"], n⟩ := by
  have hhead : StandsFor "FUNC [0: 0] (0, 0, 0, 0, 2, 2) ;; f\n".toList
      (.function ⟨0, 0, 0, 0, 2, 2⟩) :=
    @StandsFor.function _ _ "0, 0, 0, 0, 2, 2".toList (.list ([0, 0, 0, 0, 2, 2].map Scalar.whole)) _
      (by decide) (by decide) (by decide) (by decide)
  have hcomment : StandsFor "\t# a comment\n".toList .skipped := .skipped (Or.inl (by decide))
  have hcode : StandsFor "0. ; Return  0 1\n".toList (.code plainReturn) :=
    @StandsFor.code _ _ "Return  0 1".toList ⟨"Return", [0, 1], plainReturn⟩ (by decide) (by decide)
      (by decide +kernel) (by decide)
  have hconstant : StandsFor "CONST 0 'k'\n".toList (.constant (.text "k")) :=
    @StandsFor.constant _ _ "'k'".toList (.single (.text ['k'])) _ (by decide) (by decide) (by decide)
      (by decide)
  have hlast : StandsFor ((countLine n).toList ++ ['\n']) (.count ⟨n, decimal n⟩) := by
    refine @StandsFor.count _ _ (.whole n) n ?_ ?_ (fitting_whole hn)
    · rw [trimEnd_newline, trimEnd_countLine, lineKind_countLine]
    · rw [trimEnd_newline, trimEnd_countLine, toList_countLine, drop_left, ← toList_decimal]
      exact evaluate_of_readLiteral (readLiteral_decimal n) _
  exact @Spells.mk _ [] _ _ _ [.skipped, .code plainReturn, .constant (.text "k")] _ n (by simp) hhead
    (.cons hcomment (.cons hcode (.cons hconstant .nil))) (by simp [Entry.inBody]) hlast

end ApkWorkshop.Listing
