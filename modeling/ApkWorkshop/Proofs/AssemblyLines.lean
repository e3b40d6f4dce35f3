import ApkWorkshop.Listing.Assembly
import ApkWorkshop.Listing.Disassembly
import ApkWorkshop.Proofs.InstructionCodec
import ApkWorkshop.Proofs.NumberLiteral
import ApkWorkshop.Proofs.PlainText
import ApkWorkshop.Proofs.Steps

/-!
# Lines of a Listing

The assembler reads a listing line by line. This module says what it does with each kind of line
that a disassembly writes, `Takes l a a'` being one line:

* `assemble_of_takesAll` — what an assembly comes to, if all lines are taken;
* `takes_comment`, `takes_nil` — comments and blank lines change nothing;
* `takes_functionLine`, `takes_constantLine`, `takes_countLine`, `takes_codeLine` — the other lines
  write or collect exactly what they show.
-/

namespace ApkWorkshop.Bytecode

/-- A constant as a listing keeps it: a missing text is shown like `nil`. -/
def Constant.stripped : Constant → Constant
  | .absent => .nil
  | k => k

end ApkWorkshop.Bytecode

namespace ApkWorkshop.Listing

open Bytecode List
open Text

variable {a a' a'' : Assembling} {ls : List (List Char)} {margin cs rest pattern : List Char}
  {n : Nat} {p : Parameters} {k : Constant} {s : String} {c : Char}

/-! ### Taking a line -/

theorem trimEnd_append_cons {xs ys : List Char} {c : Char} (hc : isBlank c = false) :
    trimEnd (xs ++ c :: ys) = xs ++ c :: trimEnd ys := by
  have hstop : (ys.reverse ++ c :: xs.reverse).dropWhile isBlank =
      ys.reverse.dropWhile isBlank ++ c :: xs.reverse := by
    rw [dropWhile_append]
    split
    · rename_i hempty
      rw [isEmpty_iff.mp hempty, dropWhile_cons_of_neg (by simp [hc]), nil_append]
    · rfl
  simp [trimEnd, hstop]

theorem trimEnd_newline (l : List Char) : trimEnd (l ++ ['\n']) = trimEnd l := by
  simp [trimEnd, isBlank]

section

variable [Evaluator]

/-- One line is assembled. -/
def Takes (l : List Char) (a a' : Assembling) : Prop :=
  Ends (takeLine (trimEnd l)) a () a'

/-- Lines are assembled one after the other. -/
def TakesAll (ls : List (List Char)) (a a' : Assembling) : Prop :=
  Ends (ls.forM fun l => takeLine (trimEnd l)) a () a'

@[simp] theorem takesAll_nil : TakesAll [] a a' ↔ a' = a := ends_forM_nil

theorem takesAll_cons {l : List Char} :
    TakesAll (l :: ls) a a'' ↔ ∃ a', Takes l a a' ∧ TakesAll ls a' a'' :=
  ends_forM_cons

theorem takesAll_append {ms : List (List Char)} :
    TakesAll (ls ++ ms) a a'' ↔ ∃ a', TakesAll ls a a' ∧ TakesAll ms a' a'' :=
  ends_forM_append

theorem takesAll_of_skipped (h : ∀ l ∈ ls, ∀ a, Takes l a a) (a : Assembling) :
    TakesAll ls a a := by
  induction ls with
  | nil => simp
  | cons l ls ih =>
    exact takesAll_cons.mpr ⟨a, h l (by simp) a, ih fun m hm => h m (by simp [hm])⟩

theorem takesAll_map {f : List Char → List Char} (hf : ∀ l, trimEnd (f l) = trimEnd l) :
    TakesAll (ls.map f) a a' ↔ TakesAll ls a a' := by
  induction ls generalizing a with
  | nil => rfl
  | cons l ls ih =>
    rw [map_cons, takesAll_cons, takesAll_cons]
    simp only [Takes, hf, ih]

theorem takes_comment (hm : margin = [] ∨ margin = ['\t']) (cs : List Char) (a : Assembling) :
    Takes (margin ++ '#' :: cs) a a := by
  have hkind : lineKind (margin ++ '#' :: trimEnd cs) = .comment := by
    rcases hm with rfl | rfl <;> simp [lineKind, trimStart, isBlank, isPrefixOf]
  rw [Takes, trimEnd_append_cons (by decide), takeLine, hkind]
  exact ends_pure.mpr ⟨rfl, rfl⟩

theorem takes_nil (a : Assembling) : Takes [] a a :=
  ends_pure.mpr ⟨rfl, rfl⟩

theorem assemble_of_takesAll {listing : List Char}
    (h : TakesAll (lines (unifyNewlines listing)) { written := chunkHeader } a) :
    assemble listing = (if a.levels = [] then .ok ()
      else .error (.openFunctions (a.levels.reverse.map (·.shown))), a.written) := by
  have hrun : ((takeLines (lines (unifyNewlines listing))).run {}).run =
      (if a.levels = [] then .ok ()
        else .error (.openFunctions (a.levels.reverse.map (·.shown))), a) := by
    refine (Ends.run_bind (a := ⟨⟩) (ends_modify.mpr rfl)).trans ((Ends.run_bind h).trans ?_)
    refine (Ends.run_bind (ends_get.mpr ⟨rfl, rfl⟩)).trans ?_
    cases a.levels with
    | nil => rfl
    | cons f above => rfl
  rw [assemble, hrun]

end

theorem evaluate_of_readLiteral {text : List Char} {literal : Literal}
    (h : readLiteral text = .ok literal) (line : List Char) :
    evaluate line text = .ok literal := by
  rw [← h, evaluate, instEvaluator]
  dsimp only
  split
  · rename_i word hword
    rw [readLiteral, hword] at h
    cases h
  · rfl

/-! ### The parts of a line -/

@[simp] theorem behind?_append (start rest : List Char) :
    behind? start (start ++ rest) = some rest := by
  simp [behind?]

theorem beforeLast?_append (before : List Char) (hthere : pattern.isPrefixOf (c :: cs) = true)
    (hlast : beforeLast? pattern cs = none) :
    beforeLast? pattern (before ++ c :: cs) = some before := by
  induction before with
  | nil => simp [beforeLast?, hlast, hthere]
  | cons b before ih => rw [cons_append, beforeLast?, ih]

theorem beforeLast?_semicolon (h : ';' ∉ cs) : beforeLast? [';'] cs = none := by
  induction cs with
  | nil => rfl
  | cons c cs ih =>
    have hc : ¬ ';' = c := fun he => h (he ▸ mem_cons_self)
    rw [beforeLast?, ih fun hm => h (by simp [hm])]
    simp [isPrefixOf, hc]

theorem holds_append (before after : List Char) :
    holds pattern (before ++ (pattern ++ after)) = true := by
  induction before with
  | nil =>
    cases hp : pattern with
    | nil => cases after <;> simp [holds]
    | cons p ps =>
      rw [nil_append, cons_append, holds, Bool.or_eq_true]
      exact Or.inl (List.isPrefixOf_iff_prefix.mpr ⟨after, rfl⟩)
  | cons b before ih => simp [holds, ih]

theorem constantValue?_append {digits : List Char} (hne : digits ≠ [])
    (hdigits : ∀ c ∈ digits, isDigit c = true) (hrest : ∀ c ∈ rest.head?, isDigit c = false) :
    constantValue? ("CONST ".toList ++ (digits ++ rest)) = do
      let value ← behind? [' '] rest
      guard (value ≠ [])
      return value := by
  obtain ⟨htake, hdrop⟩ := span_append hdigits hrest
  rw [constantValue?, behind?_append]
  simp only [Option.bind_eq_bind, Option.bind_some, htake, hdrop, guard, ne_eq, hne,
    not_false_eq_true, if_true, Option.pure_def]

theorem functionParameters?_append {label : List Char} (hne : label ≠ [])
    (hlabel : ∀ c ∈ label, isLabelChar c = true) :
    functionParameters? ("FUNC [".toList ++ (label ++ ']' :: rest)) = do
      let rest ← behind? "] (".toList (']' :: rest)
      let parameters ← beforeLast? ") ;; ".toList rest
      guard (parameters ≠ [])
      return parameters := by
  obtain ⟨htake, hdrop⟩ := @span_append _ _ label (']' :: rest) hlabel (by rintro _ ⟨⟩; decide)
  rw [functionParameters?, behind?_append]
  simp only [Option.bind_eq_bind, Option.bind_some, htake, hdrop, guard, ne_eq, hne,
    not_false_eq_true, if_true, Option.pure_def]

theorem codeOf?_append {right : List Char} (left : List Char) (hright : ';' ∉ right) :
    codeOf? (left ++ (" ; ".toList ++ right)) = do
      guard (instructionHere? (right.dropWhile (· == ' '))).isSome
      return right.dropWhile (· == ' ') := by
  have hbefore : beforeLast? [';'] (left ++ (" ; ".toList ++ right)) = some (left ++ [' ']) := by
    have := @beforeLast?_append (' ' :: right) [';'] ';' (left ++ [' ']) (by simp)
      (beforeLast?_semicolon (by simp [hright]))
    simpa using this
  have hafter : (left ++ (" ; ".toList ++ right)).drop ((left ++ [' ']).length + 1) =
      ' ' :: right := by
    rw [show left ++ (" ; ".toList ++ right) = (left ++ [' ', ';']) ++ (' ' :: right) by simp]
    exact drop_left' (by simp)
  simp only [codeOf?, hbefore, Option.bind_eq_bind, Option.bind_some, hafter]
  simp

/-! ### Function lines -/

/-- The six numbers at the head of a function fit into their records. -/
def InRecords (p : Parameters) : Prop :=
  p.firstLine < 0x100000000 ∧ p.lastLine < 0x100000000 ∧ p.upvalues < 0x100 ∧
    p.parameters < 0x100 ∧ p.varArg < 0x100 ∧ p.registers < 0x100

/-- The label of a function as characters without its brackets. -/
def labelChars (begun : Nat) (path : List Nat) : List Char :=
  Nat.toDigits 10 begun ++ (':' :: ' ' :: (joinWith ", " (path.map decimal)).toList)

theorem isLabelChar_joinWith (ns : List Nat) :
    ∀ c ∈ (joinWith ", " (ns.map decimal)).toList, isLabelChar c = true := by
  have hdigit : ∀ n : Nat, ∀ c ∈ Nat.toDigits 10 n, isLabelChar c = true := fun n c hc => by
    simp [isLabelChar, isDigit_of_isDigit (isDigit_of_mem_toDigits hc)]
  induction ns with
  | nil => simp [joinWith]
  | cons n ns ih =>
    intro c hc
    rcases eq_or_ne ns [] with rfl | hne
    · exact hdigit n c (by simpa [joinWith] using hc)
    · rw [map_cons, toList_joinWith_cons (by simpa using hne), toList_decimal] at hc
      rcases mem_append.mp hc with hc | hc
      · exact hdigit n c hc
      · rcases mem_append.mp hc with hc | hc
        · rcases (by simpa using hc : c = ',' ∨ c = ' ') with rfl | rfl <;> decide
        · exact ih c hc

theorem isLabelChar_labelChars (begun : Nat) (path : List Nat) :
    ∀ c ∈ labelChars begun path, isLabelChar c = true := by
  intro c hc
  rcases mem_append.mp hc with hc | hc
  · simp [isLabelChar, isDigit_of_isDigit (isDigit_of_mem_toDigits hc)]
  · rcases mem_cons.mp hc with rfl | hc
    · decide
    · rcases mem_cons.mp hc with rfl | hc
      · decide
      · exact isLabelChar_joinWith path c hc

def parameterNumbers (p : Parameters) : List Nat :=
  [p.firstLine, p.lastLine, p.upvalues, p.parameters, p.varArg, p.registers]

def functionLegend : String :=
  "#upvalues, #parameters, 1=VARARG_HASARG|2=VARARG_ISVARARG|4=VARARG_NEEDSARG, #registers"

theorem toList_functionLine (begun : Nat) (path : List Nat) (p : Parameters) :
    (functionLine begun path p).toList =
      "FUNC [".toList ++ (labelChars begun path ++ ("] (".toList ++
        ((joinWith ", " ((parameterNumbers p).map decimal)).toList ++
          (") ;; ".toList ++ functionLegend.toList)))) := by
  rw [functionLine, functionLabel, parenthesized,
    show " ;; #upvalues, #parameters, 1=VARARG_HASARG|2=VARARG_ISVARARG|4=VARARG_NEEDSARG, #registers" =
      " ;; " ++ functionLegend from rfl]
  simp only [String.toList_append, append_assoc, toList_decimal, labelChars, parameterNumbers]
  rfl

theorem plain_functionLine (begun : Nat) (path : List Nat) (p : Parameters) :
    Plain (functionLine begun path p).toList := by
  have hlabel : Plain (labelChars begun path) := by
    intro c hc
    have := isLabelChar_labelChars begun path c hc
    exact ⟨fun h => absurd (h ▸ this) (by decide), fun h => absurd (h ▸ this) (by decide)⟩
  have hparams : Plain (joinWith ", " ((parameterNumbers p).map decimal)).toList :=
    plain_joinWith (by simp) (by simp)
  have hlegend : Plain functionLegend.toList := by simp [functionLegend]
  rw [toList_functionLine]
  simp [hlabel, hparams, hlegend]

theorem functionParameters?_functionLine (begun : Nat) (path : List Nat) (p : Parameters) :
    functionParameters? (functionLine begun path p).toList =
      some (joinWith ", " ((parameterNumbers p).map decimal)).toList := by
  have hlabel := isLabelChar_labelChars begun path
  have hne : labelChars begun path ≠ [] := by simp [labelChars, Nat.toDigits_ne_nil]
  have hlast : beforeLast? ") ;; ".toList
      ((joinWith ", " ((parameterNumbers p).map decimal)).toList ++
        (") ;; ".toList ++ functionLegend.toList)) =
        some (joinWith ", " ((parameterNumbers p).map decimal)).toList :=
    beforeLast?_append _ (by decide) (by decide +kernel)
  have hparams : (joinWith ", " ((parameterNumbers p).map decimal)).toList ≠ [] := by
    rw [parameterNumbers, map_cons, toList_joinWith_cons (by simp)]
    simp [Nat.toDigits_ne_nil]
  rw [toList_functionLine]
  generalize (joinWith ", " ((parameterNumbers p).map decimal)).toList = params at *
  have hparts := @functionParameters?_append
    (" (".toList ++ (params ++ (") ;; ".toList ++ functionLegend.toList))) _ hne hlabel
  rw [show ∀ cs, ']' :: (" (".toList ++ cs) = "] (".toList ++ cs from fun _ => rfl,
    behind?_append] at hparts
  rw [hparts]
  simp only [Option.bind_eq_bind, Option.bind_some, hlast]
  simp [hparams]

theorem fitting_whole {limit : Nat} (hn : n < limit) : fitting limit (.whole n) = .ok n := by
  rw [fitting, Scalar.whole?]
  simp only
  rw [if_pos ⟨Int.natCast_nonneg n, by exact_mod_cast hn⟩, Int.toNat_natCast]

theorem parametersOf_numbers (h : InRecords p) :
    parametersOf (.list ((parameterNumbers p).map fun k : Nat => .whole k)) = .ok p := by
  obtain ⟨h1, h2, h3, h4, h5, h6⟩ := h
  simp only [parameterNumbers, map_cons, map_nil, parametersOf, fitting_whole h1,
    fitting_whole h2, fitting_whole h3, fitting_whole h4, fitting_whole h5, fitting_whole h6]
  rfl

theorem trimEnd_functionLine (begun : Nat) (path : List Nat) (p : Parameters) :
    trimEnd (functionLine begun path p).toList = (functionLine begun path p).toList := by
  refine trimEnd_eq_self fun c hc => ?_
  have hne : functionLegend.toList ≠ [] := by decide
  have hend : functionLegend.toList.getLast? = some 's' := by decide +kernel
  rw [toList_functionLine, getLast?_append_of_ne_nil _ (by simp),
    getLast?_append_of_ne_nil _ (by simp), getLast?_append_of_ne_nil _ (by simp),
    getLast?_append_of_ne_nil _ (by simp), getLast?_append_of_ne_nil _ hne, hend] at hc
  obtain rfl : 's' = c := by simpa using hc
  decide

theorem lineKind_function (cs : List Char) : lineKind ("FUNC ".toList ++ cs) = .function := by
  rw [lineKind, if_pos (List.isPrefixOf_iff_prefix.mpr ⟨cs, rfl⟩)]

theorem lineKind_functionLine (begun : Nat) (path : List Nat) (p : Parameters) :
    lineKind (functionLine begun path p).toList = .function := by
  rw [toList_functionLine]
  exact lineKind_function _

/-- **A function line** writes the empty source name and the six numbers. -/
theorem takes_functionLine (h : InRecords p) (begun : Nat) (path : List Nat) (a : Assembling) :
    Takes (functionLine begun path p).toList a
      { a with written := a.written ++ (encodeText none ++ encodeParameters p) } := by
  have hliteral := @readLiteral_wholes p.firstLine
    [p.lastLine, p.upvalues, p.parameters, p.varArg, p.registers] (by simp)
  rw [Takes, trimEnd_functionLine, takeLine, lineKind_functionLine]
  simp only [takeFunction, functionParameters?_functionLine]
  exact Ends.liftM_bind (evaluate_of_readLiteral hliteral _)
    (Ends.liftM_bind (parametersOf_numbers h) (ends_modify.mpr rfl))

/-! ### Constant lines -/

def FiniteNumber (k : Constant) : Prop :=
  ∀ x, k = .number x → ∃ negative units, x.value = .finite negative units

theorem constantOf_shown (h : FiniteNumber k) :
    ∃ literal, readLiteral k.shown.toList = .ok literal ∧ constantOf literal = .ok k.stripped := by
  cases k with
  | nil | absent => exact ⟨.single .none, by decide, rfl⟩
  | truth b =>
    refine ⟨.single (.truth b), ?_, rfl⟩
    cases b <;> decide
  | number x =>
    obtain ⟨negative, u, hx⟩ := h x rfl
    exact ⟨.single (.real x), readLiteral_double hx, rfl⟩
  | text s =>
    refine ⟨.single (.text s.toList), ?_, by simp [constantOf, Constant.stripped]⟩
    rw [Constant.shown, quoted, String.toList_ofList]
    exact readLiteral_quotedChars s.toList

theorem getLast?_shown (k : Constant) :
    k.shown.toList ≠ [] ∧ ∀ c ∈ k.shown.toList.getLast?, isBlank c = false := by
  have hliteral : ∀ s : String, s.toList ≠ [] ∧ (s.toList.all (!isBlank ·)) = true →
      s.toList ≠ [] ∧ ∀ c ∈ s.toList.getLast?, isBlank c = false := fun s ⟨hne, hall⟩ =>
    ⟨hne, fun c hc => by simpa using all_eq_true.mp hall c (mem_of_mem_getLast? hc)⟩
  cases k with
  | nil | absent => exact hliteral "None" (by decide)
  | truth b =>
    cases b
    · exact hliteral "False" (by decide)
    · exact hliteral "True" (by decide)
  | number x =>
    refine hliteral x.text ?_
    cases h : x.value with
    | finite negative u =>
      obtain ⟨p, htext, -⟩ := Double.exists_parts h
      rw [htext]
      refine ⟨by simp [Double.Parts.chars, p.whole_ne_nil], all_eq_true.mpr fun c hc => ?_⟩
      rw [Bool.not_eq_true']
      rcases mem_append.mp hc with hc | hc
      · cases negative
        · simp [Double.signChars] at hc
        · obtain rfl : c = '-' := by simpa [Double.signChars] using hc
          decide
      · rcases Double.mem_chars hc with hd | hd
        · exact isBlank_of_isDigit hd
        · simp only [mem_cons, not_mem_nil, or_false] at hd
          rcases hd with rfl | rfl | rfl | rfl <;> decide
    | infinite negative =>
      rw [Double.text, h]
      cases negative <;> decide
    | notANumber =>
      rw [Double.text, h]
      decide
  | text s =>
    rw [Constant.shown, quoted, String.toList_ofList, quotedChars]
    refine ⟨by simp, fun c hc => ?_⟩
    rw [getLast?_append_of_ne_nil _ (by simp)] at hc
    obtain rfl : quoteFor s.toList = c := by simpa using hc
    rcases isQuote_quoteFor s.toList with h | h <;> rw [h] <;> decide

def constantLine (k : Constant) (i : Nat) : String :=
  "CONST " ++ decimal i ++ " " ++ k.shown

theorem toList_constantLine (k : Constant) (i : Nat) : (constantLine k i).toList =
    "CONST ".toList ++ (Nat.toDigits 10 i ++ ' ' :: k.shown.toList) := by
  simp [constantLine]

theorem trimEnd_constantLine (k : Constant) (i : Nat) :
    trimEnd (constantLine k i).toList = (constantLine k i).toList := by
  obtain ⟨hne, hlast⟩ := getLast?_shown k
  refine trimEnd_eq_self fun c hc => ?_
  obtain ⟨d, ds, hds⟩ := exists_cons_of_ne_nil hne
  rw [toList_constantLine, getLast?_append_of_ne_nil _ (by simp),
    getLast?_append_of_ne_nil _ (by simp), hds, getLast?_cons_cons, ← hds] at hc
  exact hlast c hc

theorem lineKind_constant (cs : List Char) : lineKind ("CONST ".toList ++ cs) = .constant := by
  rw [lineKind, if_neg (by simp [isPrefixOf]), if_pos (List.isPrefixOf_iff_prefix.mpr ⟨cs, rfl⟩)]

theorem lineKind_constantLine (k : Constant) (i : Nat) :
    lineKind (constantLine k i).toList = .constant := by
  rw [toList_constantLine, lineKind_constant]

theorem constantValue?_constantLine (k : Constant) (i : Nat) :
    constantValue? (constantLine k i).toList = some k.shown.toList := by
  obtain ⟨hne, -⟩ := getLast?_shown k
  have hdigit : ∀ c ∈ Nat.toDigits 10 i, isDigit c = true :=
    fun c hc => isDigit_of_isDigit (isDigit_of_mem_toDigits hc)
  rw [toList_constantLine, constantValue?_append Nat.toDigits_ne_nil hdigit (by simp; decide)]
  simp [behind?, hne]

theorem takes_constantLine (h : FiniteNumber k) (i : Nat) (a : Assembling) :
    Takes (constantLine k i).toList a { a with constants := a.constants ++ [k.stripped] } := by
  obtain ⟨literal, hread, hconst⟩ := constantOf_shown h
  rw [Takes, trimEnd_constantLine, takeLine, lineKind_constantLine]
  simp only [takeConstant, constantValue?_constantLine]
  exact Ends.liftM_bind (evaluate_of_readLiteral hread _)
    (Ends.liftM_bind hconst (ends_modify.mpr rfl))

/-! ### Count lines -/

def countLine (n : Nat) : String :=
  "FUNCS_NUM: " ++ decimal n

theorem toList_countLine (n : Nat) :
    (countLine n).toList = "FUNCS_NUM: ".toList ++ Nat.toDigits 10 n := by
  simp [countLine]

theorem trimEnd_countLine (n : Nat) : trimEnd (countLine n).toList = (countLine n).toList := by
  refine trimEnd_eq_self fun c hc => ?_
  rw [toList_countLine, getLast?_append_of_ne_nil _ Nat.toDigits_ne_nil] at hc
  exact isBlank_of_isDigit (isDigit_of_mem_toDigits (mem_of_mem_getLast? hc))

theorem lineKind_countLine (n : Nat) : lineKind (countLine n).toList = .count := by
  rw [toList_countLine, lineKind, if_neg, if_neg]
  · rfl
  · simp [isPrefixOf]
  · simp [isPrefixOf]

/-- **A count line** writes what was collected and the count, and closes what is finished. -/
theorem takes_countLine (hn : n < 0x100000000) (a : Assembling) :
    Takes (countLine n).toList a
      { written := a.written ++ encodeList encodeWord a.code ++ encodeList encodeConstant a.constants
          ++ encodeWord n ++ (closeFinished ⟨n, decimal n⟩ a.levels).1
        code := []
        constants := []
        levels := (closeFinished ⟨n, decimal n⟩ a.levels).2 } := by
  have hread : readLiteral (Nat.toDigits 10 n) = .ok (.single (.whole n)) := by
    have := readLiteral_decimal n
    rwa [toList_decimal] at this
  rw [Takes, trimEnd_countLine, takeLine, lineKind_countLine]
  simp only [toList_countLine, drop_left, takeCount]
  refine Ends.liftM_bind (evaluate_of_readLiteral hread _) (Ends.bind (ends_get.mpr ⟨rfl, rfl⟩) ?_)
  refine Ends.modify_bind (Ends.modify_bind (Ends.modify_bind ?_))
  refine Ends.liftM_bind (fitting_whole hn) (Ends.modify_bind (Ends.bind (ends_get.mpr ⟨rfl, rfl⟩) ?_))
  exact Ends.modify_bind (ends_modify.mpr rfl)

/-! ### Code lines -/

theorem canonicalLine_chars (h : IsCanonicalLine s) :
    (instructionHere? s.toList).isSome ∧ (∀ c ∈ s.toList.getLast?, isBlank c = false) ∧
      (∃ c cs, s.toList = c :: cs ∧ c ≠ ' ') ∧ ';' ∉ s.toList ∧ Plain s.toList := by
  obtain ⟨m, ns, hfit, rfl⟩ := h
  have hspelled := spelled_zipWith_text hfit
  have hwords := hspelled.isOperandWord
  obtain ⟨hname, hword⟩ := m.name_chars
  refine ⟨?_, getLast?_instructionLine m hwords hspelled.ne_nil, ?_, ?_⟩
  · have hhere := instructionHere?_instructionLine m hwords hspelled.ne_nil
    exact Option.isSome_iff_exists.mpr ⟨_, hhere⟩
  · obtain ⟨c, cs, hcs⟩ := exists_cons_of_ne_nil hname
    refine ⟨c, cs ++ _, by rw [canonicalLine, toList_instructionLine, hcs]; rfl, fun hc => ?_⟩
    have := (hword c (by simp [hcs])).2
    rw [hc] at this
    exact absurd this (by decide)
  · have hmem : ∀ c ∈ (canonicalLine m ns).toList, isWordChar c = true ∨ isOperandChar c = true := by
      intro c hc
      rw [canonicalLine, toList_instructionLine] at hc
      rcases mem_append.mp hc with hc | hc
      · exact Or.inl (hword c hc).1
      · rcases mem_cons.mp hc with rfl | hc
        · decide
        · rcases mem_cons.mp hc with rfl | hc
          · decide
          · exact Or.inr (isOperandChar_joinWith hwords c hc)
    have hnot : ∀ d : Char, isWordChar d = false → isOperandChar d = false →
        d ∉ (canonicalLine m ns).toList := by
      intro d hw ho hd
      rcases hmem d hd with h | h
      · rw [hw] at h; cases h
      · rw [ho] at h; cases h
    refine ⟨hnot ';' (by decide) (by decide), fun c hc => ⟨?_, ?_⟩⟩
    · rintro rfl
      exact hnot '\n' (by decide) (by decide) hc
    · rintro rfl
      exact hnot '\r' (by decide) (by decide) hc

/-- The margin of a code line: spaces and then a character with which no other kind of line
begins. -/
def IsMargin (cs : List Char) : Prop :=
  ∃ k c rest, cs = List.replicate k ' ' ++ c :: rest ∧
    isBlank c = false ∧ c ≠ '#' ∧ c ≠ 'F' ∧ c ≠ 'C'

theorem lineKind_code (h : IsMargin margin) (code : List Char) :
    lineKind (margin ++ (" ; ".toList ++ code)) = .code := by
  obtain ⟨k, c, rest, rfl, hblank, hcomment, hF, hC⟩ := h
  have hcode : holds " ; ".toList
      (replicate k ' ' ++ c :: rest ++ (" ; ".toList ++ code)) = true := holds_append _ _
  have htrim : trimStart (replicate k ' ' ++ c :: rest ++ (" ; ".toList ++ code)) =
      c :: rest ++ (" ; ".toList ++ code) := by
    rw [trimStart, append_assoc, dropWhile_append_of_pos]
    · simp [hblank]
    · intro d hd
      rw [eq_of_mem_replicate hd]
      decide
  rw [lineKind, htrim, hcode]
  cases k with
  | zero => simp [isPrefixOf, hF.symm, hC.symm, hcomment]
  | succ k => simp [isPrefixOf, replicate_succ, hcomment]

/-- **A code line** adds the word whose canonical line it ends with. -/
theorem takes_codeLine (hmargin : IsMargin margin) {m : Mnemonic} {w : Nat} (hw : w < 0x100000000)
    (hnum : m.number = operationNumber w) (hline : m.line w = .ok s) (a : Assembling) :
    Takes (margin ++ (" ; ".toList ++ s.toList)) a { a with code := a.code ++ [w] } := by
  obtain ⟨hcanonical, hread⟩ :=
    readWordOf_line (by omega) (by exact_mod_cast hw) hnum hline
  obtain ⟨hhere, hlast, ⟨c, cs, hcs, hc⟩, hsemi, -⟩ := canonicalLine_chars hcanonical
  have hne : s.toList ≠ [] := by simp [hcs]
  have hend : trimEnd (margin ++ (" ; ".toList ++ s.toList)) =
      margin ++ (" ; ".toList ++ s.toList) := by
    refine trimEnd_eq_self fun d hd => hlast d ?_
    rwa [getLast?_append_of_ne_nil _ (by simp), getLast?_append_of_ne_nil _ hne] at hd
  have hcode : codeOf? (margin ++ (" ; ".toList ++ s.toList)) = some s.toList := by
    have hskip : s.toList.dropWhile (· == ' ') = s.toList := by
      simp [hcs, hc]
    rw [codeOf?_append margin hsemi, hskip, hhere]
    rfl
  obtain ⟨read, hinstruction, hword⟩ : ∃ read, readInstruction s.toList = .ok read ∧
      read.word = w := by
    rw [readWordOf] at hread
    cases hr : readInstruction s.toList with
    | error fault => rw [hr] at hread; cases hread
    | ok read => rw [hr] at hread; exact ⟨read, rfl, Except.ok.inj hread⟩
  rw [Takes, hend, takeLine, lineKind_code hmargin]
  simp only [takeCode, hcode]
  refine Ends.liftM_bind hinstruction ?_
  rw [hword, if_pos ⟨by omega, by exact_mod_cast hw⟩]
  exact ends_modify.mpr rfl

end ApkWorkshop.Listing
