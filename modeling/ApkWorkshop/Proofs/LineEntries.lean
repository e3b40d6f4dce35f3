import ApkWorkshop.Proofs.AssemblyLines

/-!
# The Entries of a Listing

What the assembler does with a line depends on the line alone: it finds an entry on it, or a fault, and
the entry says how the state changes. `StandsFor` relates a line to its entry, and `Assembling.enter`
makes the change:

* `takes_iff` — a line is taken exactly if it stands for an entry, and then the entry is entered;
* `takesAll_iff` — a run over lines is a run over their entries;
* `foldl_enter_body` — constants and instructions are collected in the order of their lines, and the two
  kinds may be mixed.
-/

namespace ApkWorkshop.Listing

open Bytecode Assembling
open Text

/-- What a line stands for. -/
inductive Entry
  | function (p : Parameters)
  | constant (k : Constant)
  | code (word : Nat)
  | count (f : OpenFunction)
  | skipped
deriving DecidableEq

def Entry.word? : Entry → Option Nat
  | .code word => some word
  | _ => none

def Entry.constant? : Entry → Option Constant
  | .constant k => some k
  | _ => none

def Entry.kinds : Entry → List LineKind
  | .function _ => [.function]
  | .constant _ => [.constant]
  | .code _ => [.code]
  | .count _ => [.count]
  | .skipped => [.comment, .blank]

/-- May the entry stand between a function line and its count line? -/
def Entry.inBody : Entry → Bool
  | .function _ | .count _ => false
  | .constant _ | .code _ | .skipped => true

/-- The line stands for the entry: it is of the right kind, and its parts can be read. -/
inductive StandsFor [Evaluator] (l : List Char) : Entry → Prop
  | function {text : List Char} {literal : Literal} {p : Parameters}
      (hkind : lineKind (trimEnd l) = .function) (htext : functionParameters? (trimEnd l) = some text)
      (hliteral : evaluate (trimEnd l) text = .ok literal) (hp : parametersOf literal = .ok p) :
      StandsFor l (.function p)
  | constant {text : List Char} {literal : Literal} {k : Constant}
      (hkind : lineKind (trimEnd l) = .constant) (htext : constantValue? (trimEnd l) = some text)
      (hliteral : evaluate (trimEnd l) text = .ok literal) (hk : constantOf literal = .ok k) :
      StandsFor l (.constant k)
  | code {text : List Char} {read : ReadLine} (hkind : lineKind (trimEnd l) = .code)
      (htext : codeOf? (trimEnd l) = some text) (hread : readInstruction text = .ok read)
      (hword : 0 ≤ read.word ∧ read.word < 0x100000000) : StandsFor l (.code read.word.toNat)
  | count {scalar : Scalar} {n : Nat} (hkind : lineKind (trimEnd l) = .count)
      (hliteral : evaluate (trimEnd l) ((trimEnd l).drop "FUNCS_NUM: ".toList.length) =
        .ok (.single scalar))
      (hn : fitting 0x100000000 scalar = .ok n) : StandsFor l (.count ⟨n, scalar.shown⟩)
  | skipped (hkind : lineKind (trimEnd l) = .comment ∨ lineKind (trimEnd l) = .blank) :
      StandsFor l .skipped

def Assembling.enter (a : Assembling) : Entry → Assembling
  | .function p => { a with written := a.written ++ (encodeText none ++ encodeParameters p) }
  | .constant k => { a with constants := a.constants ++ [k] }
  | .code word => { a with code := a.code ++ [word] }
  | .count f => {
      written := a.written ++ encodeList encodeWord a.code ++ encodeList encodeConstant a.constants
        ++ encodeWord f.left ++ (closeFinished f a.levels).1
      code := []
      constants := []
      levels := (closeFinished f a.levels).2 }
  | .skipped => a

/-! ### One line -/

section

variable {σ α β : Type} {s s' : σ} {b : β}

theorem ends_liftM_bind {x : Except Fault α} {f : α → ExceptT Fault (StateM σ) β} :
    Ends (liftM x >>= f) s b s' ↔ ∃ a, x = .ok a ∧ Ends (f a) s b s' := by
  rw [ends_bind]
  constructor
  · rintro ⟨a, s₁, hlift, hf⟩
    obtain ⟨hx, rfl⟩ := ends_liftM.mp hlift
    exact ⟨a, hx, hf⟩
  · rintro ⟨a, hx, hf⟩
    exact ⟨a, s, ends_liftM.mpr ⟨hx, rfl⟩, hf⟩

theorem ends_modify_bind {g : σ → σ} {f : PUnit → ExceptT Fault (StateM σ) β} :
    Ends (modify g >>= f) s b s' ↔ Ends (f ⟨⟩) (g s) b s' := by
  rw [ends_bind]
  constructor
  · rintro ⟨_, s₁, hg, hf⟩
    obtain rfl := ends_modify.mp hg
    exact hf
  · exact fun hf => ⟨⟨⟩, g s, ends_modify.mpr rfl, hf⟩

theorem ends_get_bind {f : σ → ExceptT Fault (StateM σ) β} :
    Ends (get >>= f) s b s' ↔ Ends (f s) s b s' := by
  rw [ends_bind]
  constructor
  · rintro ⟨_, s₁, hget, hf⟩
    obtain ⟨rfl, rfl⟩ := ends_get.mp hget
    exact hf
  · exact fun hf => ⟨s, s, ends_get.mpr ⟨rfl, rfl⟩, hf⟩

end

theorem constantOf_ne_absent (literal : Literal) : constantOf literal ≠ .ok .absent := by
  fun_cases constantOf literal <;> simp

section

variable [Evaluator] {line l : List Char} {a a' : Assembling} {ls : List (List Char)}

theorem takeFunction_iff :
    Ends (takeFunction line) a () a' ↔ ∃ text literal p, functionParameters? line = some text ∧
      evaluate line text = .ok literal ∧ parametersOf literal = .ok p ∧
      a' = a.enter (.function p) := by
  rw [takeFunction]
  cases functionParameters? line with
  | none => simp
  | some text => simp [ends_liftM_bind, writeBytes, enter]

theorem takeConstant_iff :
    Ends (takeConstant line) a () a' ↔ ∃ text literal k, constantValue? line = some text ∧
      evaluate line text = .ok literal ∧ constantOf literal = .ok k ∧
      a' = a.enter (.constant k) := by
  rw [takeConstant]
  cases constantValue? line with
  | none => simp
  | some text => simp [ends_liftM_bind, enter]

theorem takeCount_iff : Ends (takeCount line) a () a' ↔ ∃ scalar n,
      evaluate line (line.drop "FUNCS_NUM: ".toList.length) = .ok (.single scalar) ∧
      fitting 0x100000000 scalar = .ok n ∧ a' = a.enter (.count ⟨n, scalar.shown⟩) := by
  rw [takeCount]
  simp only [ends_liftM_bind, ends_get_bind, writeBytes, ends_modify_bind]
  constructor
  · rintro ⟨literal, hread, h⟩
    cases literal with
    | list items => exact absurd h not_ends_throw
    | single scalar =>
      simp only [ends_liftM_bind, ends_get_bind, ends_modify_bind] at h
      obtain ⟨n, hn, h⟩ := h
      obtain rfl := ends_modify.mp h
      exact ⟨scalar, n, hread, hn, rfl⟩
  · rintro ⟨scalar, n, hread, hn, rfl⟩
    refine ⟨_, hread, ?_⟩
    simp only [ends_liftM_bind, ends_get_bind, ends_modify_bind]
    exact ⟨n, hn, ends_modify.mpr rfl⟩

omit [Evaluator] in
theorem takeCode_iff :
    Ends (takeCode line) a () a' ↔ ∃ text read, codeOf? line = some text ∧
      readInstruction text = .ok read ∧ (0 ≤ read.word ∧ read.word < 0x100000000) ∧
      a' = a.enter (.code read.word.toNat) := by
  rw [takeCode]
  cases codeOf? line with
  | none => simp
  | some text =>
    simp only [ends_liftM_bind, Option.some.injEq, exists_eq_left', exists_and_left]
    refine exists_congr fun read => and_congr_right fun _ => ?_
    split
    · rename_i hword
      simp [hword, enter]
    · rename_i hword
      simp [hword]

/-- **What one line does**: it is taken exactly if it stands for an entry, which is then entered. -/
theorem takes_iff : Takes l a a' ↔ ∃ e, StandsFor l e ∧ a' = a.enter e := by
  rw [Takes, takeLine]
  constructor
  · intro h
    cases hkind : lineKind (trimEnd l) <;> rw [hkind] at h
    case function =>
      obtain ⟨text, literal, p, htext, hliteral, hp, ha'⟩ := takeFunction_iff.mp h
      exact ⟨_, .function hkind htext hliteral hp, ha'⟩
    case constant =>
      obtain ⟨text, literal, k, htext, hliteral, hk, ha'⟩ := takeConstant_iff.mp h
      exact ⟨_, .constant hkind htext hliteral hk, ha'⟩
    case count =>
      obtain ⟨scalar, n, hliteral, hn, ha'⟩ := takeCount_iff.mp h
      exact ⟨_, .count hkind hliteral hn, ha'⟩
    case comment => exact ⟨_, .skipped (Or.inl hkind), (ends_pure.mp h).2.symm⟩
    case blank => exact ⟨_, .skipped (Or.inr hkind), (ends_pure.mp h).2.symm⟩
    case code =>
      obtain ⟨text, read, htext, hread, hword, ha'⟩ := takeCode_iff.mp h
      exact ⟨_, .code hkind htext hread hword, ha'⟩
    case stray => exact absurd h not_ends_throw
  · rintro ⟨e, he, rfl⟩
    cases he with
    | function hkind htext hliteral hp =>
      rw [hkind]
      exact takeFunction_iff.mpr ⟨_, _, _, htext, hliteral, hp, rfl⟩
    | constant hkind htext hliteral hk =>
      rw [hkind]
      exact takeConstant_iff.mpr ⟨_, _, _, htext, hliteral, hk, rfl⟩
    | code hkind htext hread hword =>
      rw [hkind]
      exact takeCode_iff.mpr ⟨_, _, htext, hread, hword, rfl⟩
    | count hkind hliteral hn =>
      rw [hkind]
      exact takeCount_iff.mpr ⟨_, _, hliteral, hn, rfl⟩
    | skipped hkind =>
      rcases hkind with hkind | hkind <;> rw [hkind] <;> exact ends_pure.mpr ⟨rfl, rfl⟩

theorem StandsFor.lineKind_mem {e : Entry} (h : StandsFor l e) :
    lineKind (trimEnd l) ∈ e.kinds := by
  cases h with
  | function hkind => simp [Entry.kinds, hkind]
  | constant hkind => simp [Entry.kinds, hkind]
  | code hkind => simp [Entry.kinds, hkind]
  | count hkind => simp [Entry.kinds, hkind]
  | skipped hkind => rcases hkind with hkind | hkind <;> simp [Entry.kinds, hkind]

theorem StandsFor.stripped_eq {k : Constant} (h : StandsFor l (.constant k)) : k.stripped = k := by
  cases h with
  | constant hkind htext hliteral hk =>
    cases k with
    | absent => exact absurd hk (constantOf_ne_absent _)
    | nil | truth | number | text => rfl

/-! ### Many lines -/

/-- **What a run does**: lines are taken exactly if they stand for entries, which are then entered one
after the other. -/
theorem takesAll_iff :
    TakesAll ls a a' ↔ ∃ es, List.Forall₂ StandsFor ls es ∧ a' = es.foldl enter a := by
  induction ls generalizing a with
  | nil => simp
  | cons l ls ih =>
    rw [takesAll_cons]
    constructor
    · rintro ⟨b, hl, hls⟩
      obtain ⟨e, he, rfl⟩ := takes_iff.mp hl
      obtain ⟨es, hes, ha'⟩ := ih.mp hls
      exact ⟨e :: es, .cons he hes, ha'⟩
    · rintro ⟨es, hes, ha'⟩
      cases hes with
      | cons he hes => exact ⟨_, takes_iff.mpr ⟨_, he, rfl⟩, ih.mpr ⟨_, hes, ha'⟩⟩

theorem takesAll_of_standsFor_skipped (h : ∀ l ∈ ls, StandsFor l .skipped) (a : Assembling) :
    TakesAll ls a a :=
  takesAll_of_skipped (fun l hl _ => takes_iff.mpr ⟨_, h l hl, rfl⟩) a

end

theorem foldl_enter_body {es : List Entry} (h : ∀ e ∈ es, e.inBody = true) (a : Assembling) :
    es.foldl enter a =
      { a with
        code := a.code ++ es.filterMap Entry.word?
        constants := a.constants ++ es.filterMap Entry.constant? } := by
  induction es generalizing a with
  | nil => simp
  | cons e es ih =>
    rw [List.foldl_cons, ih (fun e' he' => h e' (by simp [he']))]
    cases e with
    | function p => simp [Entry.inBody] at h
    | count f => simp [Entry.inBody] at h
    | constant k => simp [enter, List.filterMap_cons, Entry.word?, Entry.constant?]
    | code word => simp [enter, List.filterMap_cons, Entry.word?, Entry.constant?]
    | skipped => simp [enter, List.filterMap_cons, Entry.word?, Entry.constant?]

end ApkWorkshop.Listing
