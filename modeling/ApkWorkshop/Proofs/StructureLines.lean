import ApkWorkshop.Proofs.PassOrder
import ApkWorkshop.Proofs.PlainText

/-!
# What the Passes Leave Alone

The passes that find loops and conditions rewrite the lines of a function: they raise indents and put
marks before texts, and comments are put above lines. None of that touches the canonical line of an
instruction, from which a listing is read back. One relation between a line before and after says so
(`LineKept`); every pass keeps all lines in their order:

* `kept_modify` — changing one line in a way that keeps it keeps all lines;
* `kept_of_turn` — so does a turn of a pass, if its marks are plain;
* `kept_ofLines` — so do the six passes together.
-/

namespace ApkWorkshop.Listing

open Bytecode
open Text

/-! ### Lines before and after -/

/-- A comment that reading a listing skips: nothing, an empty line, or a tab and a plain comment. -/
def SkippedComment (comment : Option String) : Prop :=
  ∀ c ∈ comment, c = "" ∨ ∃ t : String, c = "\t# " ++ t ∧ Plain t.toList

/-- A line and what became of it: the canonical line is the same, a plain text is still plain, and a
comment that is skipped is still skipped. -/
structure LineKept (l l' : CodeLine) : Prop where
  line : l'.line = l.line
  text : Plain l.text.toList → Plain l'.text.toList
  comment : SkippedComment l.comment → SkippedComment l'.comment

abbrev Kept : List CodeLine → List CodeLine → Prop :=
  List.Forall₂ LineKept

theorem LineKept.refl (l : CodeLine) : LineKept l l := ⟨rfl, id, id⟩

theorem LineKept.trans {l₁ l₂ l₃ : CodeLine} (h : LineKept l₁ l₂) (h' : LineKept l₂ l₃) :
    LineKept l₁ l₃ :=
  ⟨h'.line.trans h.line, fun hp => h'.text (h.text hp), fun hc => h'.comment (h.comment hc)⟩

theorem Kept.refl (ls : List CodeLine) : Kept ls ls :=
  List.forall₂_same.mpr fun l _ => LineKept.refl l

theorem Kept.trans {ls₁ ls₂ ls₃ : List CodeLine} (h : Kept ls₁ ls₂) (h' : Kept ls₂ ls₃) :
    Kept ls₁ ls₃ := by
  induction h generalizing ls₃ with
  | nil => exact h'
  | cons hl _ ih =>
    cases h' with
    | cons hl' hrest => exact .cons (hl.trans hl') (ih hrest)

instance : Trans Kept Kept Kept := ⟨Kept.trans⟩

/-! ### Outcomes that keep the lines -/

section Outcome

variable {α β : Type} (view : β → List CodeLine)

def KeepsLines (ls : List CodeLine) (x : Except Fault β) : Prop :=
  ∀ b, x = .ok b → Kept ls (view b)

variable {view} {ls : List CodeLine}

theorem keepsLines_pure {b : β} (h : Kept ls (view b)) :
    KeepsLines view ls (pure b : Except Fault β) := by
  intro b' hb
  cases hb
  exact h

theorem keepsLines_bind {x : Except Fault α} {f : α → Except Fault β}
    (h : ∀ a, x = .ok a → KeepsLines view ls (f a)) : KeepsLines view ls (x >>= f) := by
  cases x with
  | error fault =>
    intro b hb
    cases hb
  | ok a => exact h a rfl

theorem keepsLines_foldlM {f : β → α → Except Fault β}
    (hstep : ∀ b a, KeepsLines view (view b) (f b a)) (xs : List α) (b : β) :
    KeepsLines view (view b) (xs.foldlM f b) := by
  induction xs generalizing b with
  | nil => exact keepsLines_pure (Kept.refl _)
  | cons x xs ih =>
    exact keepsLines_bind fun b' hb' b'' hb'' => (hstep b x b' hb').trans (ih b' b'' hb'')

end Outcome

theorem kept_modify {f : CodeLine → CodeLine} (hf : ∀ l, LineKept l (f l)) (ls : List CodeLine)
    (n : Nat) : Kept ls (ls.modify n f) := by
  induction ls generalizing n with
  | nil => simp
  | cons l ls ih =>
    cases n with
    | zero => exact .cons (hf l) (Kept.refl ls)
    | succ n => exact .cons (LineKept.refl l) (ih n)

theorem kept_changeLine {lines : List CodeLine} (i : Int) {f : CodeLine → CodeLine}
    (hf : ∀ l, LineKept l (f l)) : KeepsLines id lines (changeLine lines i f) := by
  intro lines' h
  rw [changeLine] at h
  split at h
  · rename_i ls hls
    cases h
    obtain ⟨n, -, rfl⟩ := Option.map_eq_some_iff.mp hls
    exact kept_modify hf lines n
  · cases h

/-! ### The passes -/

abbrev shapeLines (s : Shape) : List CodeLine := s.lines

theorem kept_editAll {es : List Edit} (h : ∀ e ∈ es, ∀ l, LineKept l (e.change.apply l))
    (ls : List CodeLine) : Kept ls (editAll ls es) := by
  induction es generalizing ls with
  | nil => exact .refl ls
  | cons e es ih =>
    rw [List.forall_mem_cons] at h
    exact (kept_modify h.1 ls e.place).trans (ih h.2 _)

/-- **A turn of a pass** keeps all lines, if its marks are plain. -/
theorem kept_of_turn {s : Shape} {x : Except Fault Shape} {turn? : Option Turn} {least : Int}
    {M : Nat → String → Prop} (h : x.toOption = turn?.map s.enter)
    (hmarks : ∀ t, turn? = some t → ∀ e ∈ t.edits, e.Marks least M)
    (hM : ∀ place m, M place m → Plain m.toList) : KeepsLines shapeLines s.lines x := by
  rintro s' rfl
  obtain ⟨t, ht, rfl⟩ := Option.map_eq_some_iff.mp h.symm
  refine kept_editAll (fun e he l => ?_) _
  have hchange := hmarks t ht e he
  obtain ⟨place, c⟩ := e
  cases c with
  | shift n => exact ⟨rfl, id, id⟩
  | mark m => exact ⟨rfl, fun htext => by simp [Change.apply, hM place m hchange, htext], id⟩
  | comment c => exact hchange.elim

theorem kept_ofLines (order : Enumeration) (lines : List CodeLine) :
    KeepsLines shapeLines lines (Shape.ofLines order lines) := by
  have hfold : ∀ {step : Shape → Nat → Except Fault Shape},
      (∀ s i, KeepsLines shapeLines s.lines (step s i)) → ∀ (places : List Nat) s s',
      places.foldlM step s = .ok s' → Kept s.lines s'.lines :=
    fun hstep places s s' h => @keepsLines_foldlM _ _ shapeLines _ hstep places s s' h
  have halternative : ∀ m : String, m = "IF-TRUE-ELSE: " ∨ m ∈ loweredMarks → Plain m.toList := by
    simp [loweredMarks]
  refine keepsLines_bind fun s₁ h₁ => keepsLines_bind fun _ _ => keepsLines_bind fun s₂ h₂ =>
    keepsLines_bind fun s₃ h₃ => keepsLines_bind fun s₄ h₄ => keepsLines_bind fun s₅ h₅ => ?_
  intro s₆ h₆
  calc Kept lines s₁.lines := hfold (fun s i => kept_of_turn (takeForLoop_turn s i)
        (fun t ht => (marks_of_forLoopTurn ht).2) fun _ _ => False.elim) _ _ _ h₁
    Kept _ s₂.lines := hfold (fun s i => kept_of_turn (takeForIn_turn s i)
      (fun t ht => (marks_of_forInTurn ht).2) (by simp)) _ _ _ h₂
    Kept _ s₃.lines := hfold (fun s i => kept_of_turn (takeBackJump_turn s i)
      (fun t ht => (marks_of_backJumpTurn ht).2) (by
        rintro _ _ ⟨repeats, _, hm⟩
        cases repeats <;> simp [hm, loopMark])) _ _ _ h₃
    Kept _ s₄.lines := hfold (fun s i => keepsLines_foldlM (fun s loop =>
      kept_of_turn (takeBreakOf_turn s i loop) (fun t ht => (marks_of_breakOfTurn ht).2)
        (by simp)) s.loops s) _ _ _ h₄
    Kept _ s₅.lines := hfold (fun s i => kept_of_turn
      ((takeCondition_turn s i).trans Option.map_bind.symm) (fun t ht =>
        (Option.bind_eq_some_iff.mp ht).elim fun _ h => marks_of_conditionTurn h.2)
      fun _ _ => False.elim) _ _ _ h₅
    Kept _ s₆.lines := hfold (fun s i => kept_of_turn (takeAlternative_turn s i)
      (fun t ht => (marks_of_alternativeTurn ht).2) fun _ m hm =>
        halternative m (mem_of_alternativeMark hm)) _ _ _ h₆

end ApkWorkshop.Listing
