import ApkWorkshop.Proofs.ListingWrites
import ApkWorkshop.Proofs.StructureLines

/-!
# The Listing of a Function

A disassembled function is listed as a function line, its constants, its code and the count of its
inner functions, with comments in between. Here each of these parts is brought together with what the
assembler makes of its lines.
-/

namespace ApkWorkshop.Listing

open Bytecode List
open Text

variable {start l : List Char} {ls : List (List Char)} {a a' : Assembling}

def Skipped (l : List Char) : Prop :=
  Plain l ∧ ∀ a, Takes l a a

theorem skipped_nil : Skipped [] := ⟨plain_nil, takes_nil⟩

theorem skipped_comment {start rest : String} (hstart : start.toList.head? = some '#')
    (h : Plain (start ++ rest).toList) : Skipped (start ++ rest).toList := by
  refine ⟨h, ?_⟩
  obtain ⟨cs, hcs⟩ := head?_eq_some_iff.mp hstart
  rw [String.toList_append, hcs]
  exact takes_comment (Or.inl rfl) _

/-- What the lines about the source name and the debug records begin with. -/
def debugStarts : List String :=
  ["#func_name:", "#source_line_positions:", "#local_vars:", "#upvalues:"]

/-- Does the line begin like one about the source name or the debug records? -/
def isDebugLine (l : List Char) : Bool :=
  debugStarts.any fun start => start.toList.isPrefixOf l

theorem isDebugLine_append (h : isDebugLine start = true) (rest : List Char) :
    isDebugLine (start ++ rest) = true := by
  obtain ⟨word, hword, hbegins⟩ := any_eq_true.mp h
  refine any_eq_true.mpr ⟨word, hword, ?_⟩
  rw [ isPrefixOf_iff_prefix] at hbegins ⊢
  exact hbegins.trans (prefix_append start rest)

/-- Does the beginning of a line differ from that of all lines about debug records? -/
def isOtherStart (start : List Char) : Bool :=
  debugStarts.all fun word => !word.toList.isPrefixOf start && !start.isPrefixOf word.toList

theorem isDebugLine_append_eq_false (h : isOtherStart start = true) (rest : List Char) :
    isDebugLine (start ++ rest) = false := by
  refine any_eq_false.mpr fun word hword hword' => ?_
  have hother := all_eq_true.mp h word hword
  simp only [Bool.and_eq_true, Bool.not_eq_true', ← Bool.not_eq_true, isPrefixOf_iff_prefix]
    at hother
  rw [ isPrefixOf_iff_prefix] at hword'
  rcases prefix_or_prefix_of_prefix hword' (prefix_append start rest) with h' | h'
  · exact hother.1 h'
  · exact hother.2 h'

theorem isDebugLine_of_head? (h : l.head? ≠ some '#') : isDebugLine l = false := by
  cases l with
  | nil => decide
  | cons c cs =>
    have hc : ('#' == c) = false := beq_eq_false_iff_ne.mpr fun hc => h (by rw [hc]; rfl)
    simp [isDebugLine, debugStarts, List.isPrefixOf, hc]

def IsNote (l : List Char) : Prop :=
  Skipped l ∧ isDebugLine l = false

def IsDebugNote (l : List Char) : Prop :=
  Skipped l ∧ isDebugLine l = true

/-- Lines that are plain and that the assembler takes from one state to another. -/
def Assembles (ls : List (List Char)) (a a' : Assembling) : Prop :=
  (∀ l ∈ ls, Plain l) ∧ TakesAll ls a a'

theorem assembles_append {ms : List (List Char)} {a'' : Assembling} (h : Assembles ls a a')
    (h' : Assembles ms a' a'') : Assembles (ls ++ ms) a a'' := by
  refine ⟨fun l hl => ?_, takesAll_append.mpr ⟨a', h.2, h'.2⟩⟩
  rcases mem_append.mp hl with hl | hl
  · exact h.1 l hl
  · exact h'.1 l hl

theorem assembles_of_skipped (h : ∀ l ∈ ls, Skipped l) (a : Assembling) : Assembles ls a a :=
  ⟨fun l hl => (h l hl).1, takesAll_of_skipped (fun l hl => (h l hl).2) a⟩

theorem assembles_singleton (hl : Plain l) (h : Takes l a a') : Assembles [l] a a' :=
  ⟨by simpa using hl, takesAll_cons.mpr ⟨a', h, by simp⟩⟩

/-! ### Constants -/

theorem plain_constantLine (k : Constant) (i : Nat) : Plain (constantLine k i).toList := by
  simp [constantLine]

theorem plain_countLine (n : Nat) : Plain (countLine n).toList := by
  simp [countLine]

theorem assembles_constantLines {ks : List Constant} (h : ∀ k ∈ ks, FiniteNumber k) (first : Nat)
    (a : Assembling) :
    Assembles ((ks.zipIdx first).map fun p => (constantLine p.1 p.2).toList) a
      { a with constants := a.constants ++ ks.map Constant.stripped } := by
  induction ks generalizing first a with
  | nil => exact ⟨by simp, by simp⟩
  | cons k ks ih =>
    refine assembles_append (assembles_singleton (plain_constantLine k first)
      (takes_constantLine (h k (by simp)) first a)) ?_
    have hrest := ih (fun k' hk' => h k' (by simp [hk'])) (first + 1)
      { a with constants := a.constants ++ [k.stripped] }
    simpa using hrest

theorem writes_readConstants {o : Options} (ho : o.constants = true) :
    Writes (readConstants o) fun ks ls =>
      ls = ks.zipIdx.map fun p => (constantLine p.1 p.2).toList := by
  refine (onlyReads_readList onlyReads_readConstant).silent.bind fun ks _ => ?_
  rw [if_pos ho]
  refine writes_bind (writes_forIn_lines fun p => ?_) fun _ ls hls => writes_pure (by simpa using hls)
  exact writes_writeLine_bind (writes_pure ⟨rfl, rfl⟩)

/-! ### Annotations -/

theorem kept_commentLine (lines : List CodeLine) (i : Int) {comment : String}
    (h : SkippedComment (some comment)) : KeepsLines id lines (commentLine lines i comment) :=
  kept_changeLine i fun _ => ⟨rfl, id, fun _ => h⟩

/-- The step writes only lines of a kind, and `keeps` holds of its value. -/
def WritesOnly {α : Type} (kind : List Char → Prop) (m : Disassembly α) (keeps : α → Prop) : Prop :=
  Writes m fun a ls => keeps a ∧ ∀ l ∈ ls, kind l

section WritesOnly

variable {α β : Type} {kind : List Char → Prop} {keeps : α → Prop} {keeps' : β → Prop}
  {m : Disassembly α} {c : Prop}

theorem Silent.writesOnly (h : Silent m keeps) : WritesOnly kind m keeps :=
  h.mono fun _ _ ⟨hls, ha⟩ => ⟨ha, by simp [hls]⟩

theorem writesOnly_pure {a : α} (h : keeps a) : WritesOnly kind (pure a) keeps :=
  writes_pure ⟨h, by simp⟩

theorem writesOnly_writeLine {s : String} (h : kind s.toList) :
    WritesOnly kind (writeLine s) fun _ => True :=
  writes_writeLine ⟨trivial, by simpa using h⟩

theorem writesOnly_bind {f : α → Disassembly β} (hm : WritesOnly kind m keeps)
    (hf : ∀ a, keeps a → WritesOnly kind (f a) keeps') : WritesOnly kind (m >>= f) keeps' := by
  refine writes_bind hm fun a ls ⟨ha, hls⟩ => (hf a ha).mono fun b ms ⟨hb, hms⟩ => ⟨hb, ?_⟩
  intro l hl
  rcases mem_append.mp hl with hl | hl
  · exact hls l hl
  · exact hms l hl

theorem writesOnly_when [Decidable c] {m : Disassembly Unit} {f : Unit → Disassembly β}
    (hm : WritesOnly kind m fun _ => True) (hf : WritesOnly kind (f ()) keeps') :
    WritesOnly kind (if c then m >>= f else f ()) keeps' := by
  split
  · exact writesOnly_bind hm fun _ _ => hf
  · exact hf

end WritesOnly

/-! What is shown about the structure of a body is made of numbers and quoted texts. -/

theorem plain_bracketed {ss : List String} (h : ∀ s ∈ ss, Plain s.toList) :
    Plain (bracketed ss).toList := by
  have hjoin : Plain (joinWith ", " ss).toList := plain_joinWith (by simp) h
  simp [bracketed, hjoin]

@[simp] theorem plain_groupText (g : Group) : Plain g.text.toList := by
  induction g with
  | leaf line => simp [Group.text]
  | into left right ihl ihr => simp [Group.text, ihl, ihr]
  | beside left right ihl ihr => simp [Group.text, ihl, ihr]

@[simp] theorem plain_branchText (b : Branch) : Plain b.text.toList :=
  plain_bracketed (by simp)

@[simp] theorem plain_branchesText (stack : List Branch) : Plain (branchesText stack).toList :=
  plain_bracketed (by simp)

@[simp] theorem plain_conditionsText (conditions : List (Nat × Int)) :
    Plain (conditionsText conditions).toList := by
  refine plain_bracketed fun s hs => ?_
  obtain ⟨p, -, rfl⟩ := mem_map.mp hs
  exact plain_parenthesized (by simp)

theorem plain_loopsText (loops : List (Int × Int)) :
    Plain (bracketed ((sortPairs loops).map fun p =>
    bracketed [decimalInt p.1, decimalInt p.2])).toList := by
  refine plain_bracketed fun s hs => ?_
  obtain ⟨p, -, rfl⟩ := mem_map.mp hs
  exact plain_bracketed (by simp)

@[simp] theorem plain_openJumpsText (jumps : List (String × List Nat)) :
    Plain (openJumpsText jumps).toList := by
  have hplaces : ∀ places : List Nat, Plain (placesText places).toList := by
    intro places
    have hjoin : Plain (joinWith ", " ((places.mergeSort (· ≤ ·)).map decimal)).toList :=
      plain_joinWith (by simp) (by simp)
    simp [placesText, hjoin]
  have hjoin : Plain (joinWith ", " (jumps.map fun p =>
      quoted p.1 ++ ": " ++ placesText p.2)).toList := by
    refine plain_joinWith (by simp) fun s hs => ?_
    obtain ⟨p, -, rfl⟩ := mem_map.mp hs
    simp [hplaces]
  simp [openJumpsText, hjoin]

/-- What remarks begin with: comments in the listing, and the trace of merged conditions. -/
def remarkStarts : List String :=
  ["# ", "#blocks: ", "#stack:  ", "#stack2: ", "#gotoes: ", "\t# ", "STACK: ", "ОбъединяемX: ",
    "ОбъединяемY: ", "   --->      "]

/-- What the notes on a body begin with. -/
def noteStarts : List String :=
  ["# ", "#blocks: ", "#stack:  ", "#stack2: ", "#gotoes: "]

/-- A judgement on steps, with what holds of their values, that extends to all that annotations are put
together from: values, outcomes and remarks, one after the other. -/
structure Remarking (J : ∀ α : Type, Disassembly α → (α → Prop) → Prop) : Prop where
  value : ∀ {α : Type} {a : α} {keeps : α → Prop}, keeps a → J α (pure a) keeps
  lifted : ∀ {α : Type} {x : Except Fault α} {keeps : α → Prop}, (∀ a, x = .ok a → keeps a) →
    J α (liftM x) keeps
  chain : ∀ {α β : Type} {m : Disassembly α} {f : α → Disassembly β} {keeps : α → Prop}
    {keeps' : β → Prop}, J α m keeps → (∀ a, keeps a → J β (f a) keeps') → J β (m >>= f) keeps'
  traced : ∀ {start t : String}, start ∈ remarkStarts → Plain t.toList →
    J Unit (writeConsole (start ++ t)) fun _ => True
  noted : ∀ {start t : String}, start ∈ noteStarts → Plain t.toList →
    J Unit (writeLine (start ++ t)) fun _ => True

theorem skippedComment_branch (b : Branch) :
    SkippedComment (some ("\t# " ++ decimalInt b.target ++ ": " ++ b.group.text)) := by
  intro c hc
  obtain rfl := Option.mem_some_iff.mp hc
  exact Or.inr ⟨decimalInt b.target ++ ": " ++ b.group.text, by simp [String.append_assoc], by simp⟩

namespace Remarking

variable {J : ∀ α : Type, Disassembly α → (α → Prop) → Prop} {α β γ : Type} {a : α} {c : Prop}
  {keeps : α → Prop} {keeps' : β → Prop} {lines : List CodeLine} {order : Enumeration}

theorem when [Decidable c] (hJ : Remarking J) {m : Disassembly Unit} {f : Unit → Disassembly β}
    (hm : J Unit m fun _ => True) (hf : J β (f ()) keeps') :
    J β (if c then m >>= f else f ()) keeps' := by
  split
  · exact hJ.chain hm fun _ _ => hf
  · exact hf

theorem changed [Decidable c] (hJ : Remarking J) {x : Except Fault α} {f : α → Disassembly β}
    (ha : keeps a) (hx : ∀ b, x = .ok b → keeps b) (hf : ∀ b, keeps b → J β (f b) keeps') :
    J β (if c then liftM x >>= f else f a) keeps' := by
  split
  · exact hJ.chain (hJ.lifted hx) hf
  · exact hf a ha

theorem loop (hJ : Remarking J) {f : γ → α → Disassembly (ForInStep α)} {xs : List γ}
    (hbody : ∀ x a, keeps a → J _ (f x a) fun step => ∃ b, step = .yield b ∧ keeps b)
    (ha : keeps a) : J α (forIn xs a f) keeps := by
  induction xs generalizing a with
  | nil => exact hJ.value ha
  | cons x xs ih =>
    rw [forIn_cons]
    refine hJ.chain (hbody x a ha) fun step hstep => ?_
    obtain ⟨b, rfl, hb⟩ := hstep
    exact ih hb

theorem merges (hJ : Remarking J) (ms : List Merge) : J _ (ms.forM writeMerge) fun _ => True := by
  induction ms with
  | nil => exact hJ.value trivial
  | cons m ms ih =>
    have hmerge : J Unit (writeMerge m) fun _ => True := by
      refine hJ.chain (hJ.traced ?_ (by simp)) fun _ _ => hJ.traced (by decide) (by simp)
      cases m.rule <;> decide
    exact hJ.chain hmerge fun _ _ => ih

/-- **Annotating** a body makes remarks, and sets nothing but comments that are skipped. -/
theorem annotate (hJ : Remarking J) {keeps : List CodeLine → Prop}
    (hshape : ∀ s, Shape.ofLines order lines = .ok s → keeps s.lines)
    (hcomment : ∀ {ls i c ls'}, keeps ls → SkippedComment (some c) →
      commentLine ls i c = .ok ls' → keeps ls') (o : Options) :
    J _ (annotate o order lines) keeps := by
  have hempty : SkippedComment (some "") := by simp [SkippedComment]
  have hloops : ∀ loops ls ls', keeps ls → commentLoops loops ls = .ok ls' → keeps ls' := by
    intro loops ls ls' hls h
    induction loops generalizing ls with
    | nil =>
      cases h
      exact hls
    | cons p loops ih =>
      rw [commentLoops, foldlM_cons] at h
      cases h₁ : commentLine ls p.1 "" with
      | error fault => simp only [h₁] at h; cases h
      | ok ls₁ =>
        cases h₂ : commentLine ls₁ (p.2 + 1) "" with
        | error fault => simp only [h₁, bind, Except.bind, h₂] at h; cases h
        | ok ls₂ =>
          simp only [h₁, bind, Except.bind, h₂] at h
          exact ih ls₂ (hcomment (hcomment hls hempty h₁) hempty h₂) h
  refine hJ.chain (hJ.lifted hshape) fun s hs => ?_
  refine hJ.when (hJ.traced (by decide) (by simp)) ?_
  refine hJ.when (hJ.merges _) ?_
  refine hJ.changed hs (fun ls hls => hloops _ _ ls hs hls) fun ls₁ h₁ => ?_
  refine hJ.chain (hJ.loop (fun b ls hls => ?_) h₁) fun ls₂ h₂ => ?_
  · refine hJ.changed hls (fun ls' hls' => hcomment hls hempty hls') fun ls' hls' => ?_
    exact hJ.when (hJ.noted (by decide) (by simp)) (hJ.value ⟨ls', rfl, hls'⟩)
  refine hJ.chain (hJ.loop (fun b ls hls => ?_) h₂) fun ls₃ h₃ => ?_
  · exact hJ.changed hls (fun ls' hls' => hcomment hls (skippedComment_branch b) hls')
      fun ls' hls' => hJ.value ⟨ls', rfl, hls'⟩
  split
  · refine hJ.chain (hJ.noted (by decide) (plain_loopsText s.loops)) fun _ _ => ?_
    refine hJ.chain (hJ.noted (by decide) (by simp)) fun _ _ => ?_
    refine hJ.chain (hJ.noted (by decide) (by simp)) fun _ _ => ?_
    exact hJ.when (hJ.noted (by decide) (by simp)) (hJ.value h₃)
  · exact hJ.when (hJ.noted (by decide) (by simp)) (hJ.value h₃)

end Remarking

section

variable {start rest : String} {code : List Nat} {ds : List Description} {lines : List CodeLine}
  {l : CodeLine} {w : Nat} {o : Options}

theorem writesOnly_debugNote (hhead : start.toList.head? = some '#')
    (hdebug : isDebugLine start.toList = true) (hplain : Plain (start ++ rest).toList) :
    WritesOnly IsDebugNote (writeLine (start ++ rest)) fun _ => True := by
  refine writesOnly_writeLine ⟨skipped_comment hhead hplain, ?_⟩
  rw [String.toList_append]
  exact isDebugLine_append hdebug _

theorem remarking_writesOnly : Remarking fun _ => WritesOnly IsNote where
  value := writesOnly_pure
  lifted h := (silent_liftM h).writesOnly
  chain := writesOnly_bind
  traced _ _ := (silent_writeConsole _).writesOnly
  noted {start t} hstart ht := by
    have hnotes : ∀ start ∈ noteStarts, start.toList.head? = some '#' ∧
        isOtherStart start.toList = true ∧ '\n' ∉ start.toList ∧ '\r' ∉ start.toList := by decide
    obtain ⟨hhead, hother, hn, hr⟩ := hnotes start hstart
    have hplain : Plain start.toList := fun c hc =>
      ⟨ne_of_mem_of_not_mem hc hn, ne_of_mem_of_not_mem hc hr⟩
    refine writesOnly_writeLine ⟨skipped_comment hhead ?_, ?_⟩
    · rw [String.toList_append]
      exact plain_append.mpr ⟨hplain, ht⟩
    rw [String.toList_append]
    exact isDebugLine_append_eq_false hother _

theorem writes_annotate (o : Options) (order : Enumeration) (lines : List CodeLine) :
    WritesOnly IsNote (annotate o order lines) fun lines' => Kept lines lines' :=
  remarking_writesOnly.annotate (kept_ofLines order lines)
    (fun hkept hc h => hkept.trans (kept_commentLine _ _ hc _ h)) o

/-! ### Code -/

/-- The line shows the word: it has its canonical line, a plain text and a comment that is
skipped. -/
structure Shows (w : Nat) (l : CodeLine) : Prop where
  line : ∃ m : Mnemonic, m.number = operationNumber w ∧ m.line w = .ok l.line
  text : Plain l.text.toList
  comment : SkippedComment l.comment

theorem shows_of_kept {ks : List Constant}
    (hds : List.Forall₂ (fun (w : Nat) d => Description.ofWord ks w = .ok d) code ds)
    (hbare : ∀ w ∈ code, ∀ m : Mnemonic, m.number = operationNumber (w : Int) →
      ∀ s, bareText? (Fields.ofWord w) ks m = some s → Plain s.toList)
    (hkept : Kept (codeLines ds) lines) : List.Forall₂ Shows code lines := by
  have hgen : ∀ first, Kept ((ds.zipIdx first).map fun p => CodeLine.ofDescription p.2 p.1) lines →
      List.Forall₂ Shows code lines := by
    intro first hkept
    clear * - hds hbare hkept
    induction hds generalizing first lines with
    | nil =>
      cases hkept
      exact .nil
    | cons hd _ ih =>
      cases hkept with
      | cons hl hrest =>
        obtain ⟨m, hnum, hline, htext⟩ := line_of_ofWord hd
        refine .cons ⟨⟨m, hnum, by rw [hl.line]; exact hline⟩, hl.text ?_, hl.comment ?_⟩
          (ih (fun w hw => hbare w (by simp [hw])) (first + 1) hrest)
        · exact plain_describe (hbare _ (by simp) m hnum) _ htext
        · intro c hc
          cases hc
  exact hgen 0 hkept

theorem skippedComment_of_kept (hkept : Kept (codeLines ds) lines) :
    ∀ l ∈ lines, SkippedComment l.comment := by
  have hnone : ∀ l ∈ codeLines ds, SkippedComment l.comment := by
    intro l hl
    obtain ⟨p, -, rfl⟩ := mem_map.mp hl
    intro comment hcomment
    cases hcomment
  generalize codeLines ds = ls at hkept hnone
  induction hkept with
  | nil => simp
  | cons hl _ ih =>
    rw [forall_mem_cons] at hnone ⊢
    exact ⟨hl.comment hnone.1, ih hnone.2⟩

theorem isMargin_padStart {width : Nat} {s : String} {c : Char} {cs : List Char}
    (hs : s.toList = c :: cs) (hblank : isBlank c = false) (hcomment : c ≠ '#') (hF : c ≠ 'F')
    (hC : c ≠ 'C') (rest : List Char) : IsMargin ((padStart width ' ' s).toList ++ rest) :=
  ⟨width - s.length, c, cs ++ rest, by simp [padStart, hs], hblank, hcomment, hF, hC⟩

/-- The characters of a full line without the canonical line. -/
def fullMargin (place : Nat) (l : CodeLine) : List Char :=
  (padStart 3 ' ' (decimal place)).toList ++ (".  ".toList ++ ((padEnd 8 l.flow.label).toList ++
    (" ".toList ++ ((padStart 3 ' ' (match l.target with
      | some t => decimalInt t
      | none => "")).toList ++ ("   ".toList ++ ((times l.indent ".   ").toList ++
        (padEnd 60 l.text).toList))))))

theorem toList_fullLine (place : Nat) (l : CodeLine) :
    (fullLine place l).toList = fullMargin place l ++ (" ; ".toList ++ l.line.toList) := by
  cases ht : l.target <;>
    simp only [fullLine, fullMargin, ht, String.toList_append, append_assoc]

theorem isMargin_fullMargin (place : Nat) (l : CodeLine) : IsMargin (fullMargin place l) := by
  obtain ⟨c, cs, hcs⟩ := exists_cons_of_ne_nil (@Nat.toDigits_ne_nil place 10)
  have hc : c.isDigit = true := isDigit_of_mem_toDigits (n := place) (by simp [hcs])
  exact isMargin_padStart (by simpa using hcs) (isBlank_of_isDigit hc) (ne_of_isDigit hc (by decide))
    (ne_of_isDigit hc (by decide)) (ne_of_isDigit hc (by decide)) _

theorem plain_fullMargin (place : Nat) (h : Plain l.text.toList) : Plain (fullMargin place l) := by
  have hspace : Plain [' '] := by simp
  have htarget : Plain (match l.target with
      | some t => decimalInt t
      | none => "").toList := by
    split <;> simp
  have hlabel : Plain l.flow.label.toList := by
    cases l.flow <;> simp [Flow.label]
  simp only [fullMargin, plain_append]
  exact ⟨plain_padStart hspace (by simp), by simp, plain_padEnd hlabel, by simp,
    plain_padStart hspace htarget, by simp, plain_times (by simp), plain_padEnd h⟩

/-- The hexadecimal offset and word that can stand before a code line. -/
def hexMargin (offset word : Nat) : String :=
  padStart 5 ' ' (hex offset) ++ " " ++ padStart 8 ' ' (hex word) ++ " "

theorem isMargin_hexMargin (offset word : Nat) (rest : List Char) :
    IsMargin ((hexMargin offset word).toList ++ rest) := by
  obtain ⟨ds, hds, hlt, -⟩ := exists_digits (by decide : 1 < 16) offset
  have hne : ds ≠ [] := by
    rintro rfl
    exact Nat.toDigits_ne_nil hds
  obtain ⟨d, ds, rfl⟩ := exists_cons_of_ne_nil hne
  have hfirst : (hex offset).toList = Nat.digitChar d :: ds.map Nat.digitChar := by
    simp [hex, hds]
  have hd : d < 16 := hlt d (by simp)
  have hchar : isBlank (Nat.digitChar d) = false ∧ Nat.digitChar d ≠ '#' ∧
      Nat.digitChar d ≠ 'F' ∧ Nat.digitChar d ≠ 'C' := by
    interval_cases d <;> decide
  obtain ⟨hblank, hcomment, hF, hC⟩ := hchar
  simp only [hexMargin, String.toList_append, append_assoc]
  exact isMargin_padStart hfirst hblank hcomment hF hC _

theorem plain_hexMargin (offset word : Nat) : Plain (hexMargin offset word).toList := by
  have hpad : ∀ width n, Plain (padStart width ' ' (hex n)).toList := fun width n =>
    plain_padStart (by simp) (plain_hex n)
  simp [hexMargin, hpad]

theorem skipped_of_skippedComment {comment : String} (h : SkippedComment (some comment)) :
    Skipped comment.toList := by
  rcases h comment rfl with rfl | ⟨t, rfl, ht⟩
  · exact skipped_nil
  · have hchars : ("\t# " ++ t).toList = ['\t'] ++ '#' :: (' ' :: t.toList) := by simp
    rw [hchars]
    exact ⟨by simp [ht], takes_comment (Or.inr rfl) _⟩

theorem assembles_codeLine (hw : w < 0x100000000) (h : Shows w l) {margin : List Char}
    (hmargin : IsMargin margin) (hplain : Plain margin) (a : Assembling) :
    Assembles [margin ++ (" ; ".toList ++ l.line.toList)] a { a with code := a.code ++ [w] } := by
  obtain ⟨m, hnum, hline⟩ := h.line
  obtain ⟨hcanonical, -⟩ := readWordOf_line (by omega) (by exact_mod_cast hw) hnum hline
  obtain ⟨-, -, -, -, hplain'⟩ := canonicalLine_chars hcanonical
  exact assembles_singleton (by simp [hplain, hplain']) (takes_codeLine hmargin hw hnum hline a)

/-- What stands in a code line before the canonical line, with or without the offset and the word. -/
def codeMargin (o : Options) (offset i w : Nat) (l : CodeLine) : List Char :=
  (if o.hexadecimal then (hexMargin (offset + 4 * i) w).toList else []) ++ fullMargin i l

theorem isMargin_codeMargin (o : Options) (offset i w : Nat) (l : CodeLine) :
    IsMargin (codeMargin o offset i w l) := by
  rw [codeMargin]
  by_cases hhex : o.hexadecimal = true
  · rw [if_pos hhex]
    exact isMargin_hexMargin _ _ _
  · rw [if_neg hhex, nil_append]
    exact isMargin_fullMargin i l

theorem plain_codeMargin (o : Options) (offset i w : Nat) (h : Plain l.text.toList) :
    Plain (codeMargin o offset i w l) := by
  refine plain_append.mpr ⟨?_, plain_fullMargin i h⟩
  split
  · exact plain_hexMargin _ _
  · exact plain_nil

/-- The lines of one instruction: its comment, if it has one, and its code line. -/
def codeBlock (o : Options) (offset i w : Nat) (l : CodeLine) : List (List Char) :=
  l.comment.toList.map String.toList ++ [codeMargin o offset i w l ++ (" ; ".toList ++ l.line.toList)]

theorem writes_codeBlock (ho : o.concise = false) (offset i w : Nat) (l : CodeLine) :
    Writes (if o.concise then writeLine (times l.indent "   " ++ l.text)
      else do
        if let some comment := l.comment then writeLine comment
        if o.hexadecimal then
          writeListing (padStart 5 ' ' (hex (offset + 4 * i)) ++ " " ++ padStart 8 ' ' (hex w)
            ++ " ")
        writeLine (fullLine i l)) fun _ ls => ls = codeBlock o offset i w l := by
  have hcode : Writes (if o.hexadecimal then
        writeListing (hexMargin (offset + 4 * i) w) >>= fun _ => writeLine (fullLine i l)
      else writeLine (fullLine i l)) fun _ ls =>
      ls = [codeMargin o offset i w l ++ (" ; ".toList ++ l.line.toList)] := by
    rw [codeMargin]
    split
    · exact writes_writeListing_writeLine (by rw [toList_fullLine, append_assoc])
    · exact writes_writeLine (by rw [toList_fullLine, nil_append])
  rw [if_neg (by simp [ho])]
  cases hc : l.comment with
  | none => exact hcode.mono fun _ ls hls => by simp [codeBlock, hc, hls]
  | some comment =>
    refine writes_writeLine_bind (hcode.mono fun _ ls hls => ?_)
    simp [codeBlock, hc, hls]

theorem assembles_codeBlock (o : Options) (offset i : Nat) (hw : w < 0x100000000) (h : Shows w l)
    (a : Assembling) : Assembles (codeBlock o offset i w l) a { a with code := a.code ++ [w] } := by
  have hcode := assembles_codeLine hw h (isMargin_codeMargin o offset i w l)
    (plain_codeMargin o offset i w h.text) a
  cases hc : l.comment with
  | none => simpa [codeBlock, hc] using hcode
  | some comment =>
    have hskip := skipped_of_skippedComment (hc ▸ h.comment)
    have hboth := assembles_append (assembles_singleton hskip.1 (hskip.2 a)) hcode
    simpa [codeBlock, hc] using hboth

theorem isDebugLine_codeBlock (o : Options) (offset i w : Nat) (h : SkippedComment l.comment) :
    ∀ m ∈ codeBlock o offset i w l, isDebugLine m = false := by
  intro m hm
  rcases mem_append.mp hm with hm | hm
  · obtain ⟨comment, hmem, rfl⟩ := mem_map.mp hm
    rcases h comment (Option.mem_toList.mp hmem) with rfl | ⟨t, rfl, -⟩
    · rfl
    · exact isDebugLine_of_head? (by simp)
  · obtain ⟨n, c, cs, hmargin, -, hc, -⟩ := isMargin_codeMargin o offset i w l
    rw [mem_singleton.mp hm, hmargin]
    refine isDebugLine_of_head? ?_
    cases n with
    | zero => simpa using hc
    | succ n => simp [replicate_succ]

def codeBlocks (o : Options) (offset : Nat) (code : List Nat) (lines : List CodeLine) :
    List (List Char) :=
  (code.zip lines).zipIdx.flatMap fun p => codeBlock o offset p.2 p.1.1 p.1.2

/-- **The code** of a function is written instruction by instruction. -/
theorem writes_writeCode (ho : o.concise = false) (offset : Nat) (code : List Nat)
    (lines : List CodeLine) :
    Writes (writeCode o offset code lines) fun _ ls => ls = codeBlocks o offset code lines := by
  have hblocks : ∀ p ∈ (code.zip lines).zipIdx, Writes _ fun _ ls =>
      ls = codeBlock o offset p.2 p.1.1 p.1.2 := fun p _ => writes_codeBlock ho offset p.2 p.1.1 p.1.2
  refine (writes_forM hblocks).mono fun _ ls hls => ?_
  obtain ⟨lss, hlss, rfl⟩ := hls
  rw [codeBlocks, List.flatMap]
  generalize (code.zip lines).zipIdx = ps at hlss
  induction hlss with
  | nil => rfl
  | cons h _ ih => rw [flatten_cons, map_cons, flatten_cons, h, ih]

/-- **The lines of the code** are read back as its words, if they show them. -/
theorem assembles_codeBlocks (o : Options) (offset : Nat) (hcode : ∀ w ∈ code, w < 0x100000000)
    (hshows : List.Forall₂ Shows code lines) (a : Assembling) :
    Assembles (codeBlocks o offset code lines) a { a with code := a.code ++ code } := by
  have hgen : ∀ i a, Assembles
      (((code.zip lines).zipIdx i).flatMap fun p => codeBlock o offset p.2 p.1.1 p.1.2) a
      { a with code := a.code ++ code } := by
    induction hshows with
    | nil => exact fun i a => ⟨by simp, by simp⟩
    | @cons w l code lines hl _ ih =>
      intro i a
      rw [forall_mem_cons] at hcode
      have hfirst := assembles_codeBlock o offset i hcode.1 hl a
      have hrest := ih hcode.2 (i + 1) { a with code := a.code ++ [w] }
      simpa using assembles_append hfirst hrest
  exact hgen 0 a

end

/-! ### Debug records -/

theorem plain_optionalText (s : Option String) : Plain (optionalText s).toList := by
  cases s <;> simp [optionalText]

theorem onlyReads_readLocal : OnlyReads (do
      let name ← readText
      let first ← readWord
      let stop ← readWord
      return ({ name, first, stop } : LocalVariable)) fun _ => True :=
  onlyReads_readText.bind fun _ _ => onlyReads_readWord.bind fun _ _ =>
    onlyReads_readWord.bind fun _ _ => onlyReads_pure trivial

/-- **Debug records** are written as comments that can be told by their first word. -/
theorem writes_readDebug : WritesOnly IsDebugNote readDebug fun _ => True := by
  refine (onlyReads_readList onlyReads_readWord).silent.bind fun lines _ => ?_
  refine writesOnly_when (writesOnly_debugNote rfl (by decide) ?_) ?_
  · simp [plain_bracketed]
  refine (onlyReads_readList onlyReads_readLocal).silent.bind fun locals _ => ?_
  refine writesOnly_when (writesOnly_debugNote rfl (by decide) ?_) ?_
  · have hlocals : ∀ v : LocalVariable, Plain
        (parenthesized [optionalText v.name, decimal v.first, decimal v.stop]).toList :=
      fun v => plain_parenthesized (by simp [plain_optionalText])
    simp [plain_bracketed, hlocals]
  refine (onlyReads_readList onlyReads_readText).silent.bind fun upvalues _ => ?_
  refine writesOnly_when (writesOnly_debugNote rfl (by decide) ?_) (writesOnly_pure trivial)
  simp [plain_bracketed, plain_optionalText]

end ApkWorkshop.Listing
