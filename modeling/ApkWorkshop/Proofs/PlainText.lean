import ApkWorkshop.Bytecode.Description
import ApkWorkshop.Proofs.DoubleText
import ApkWorkshop.Proofs.QuotedLiteral

/-!
# Texts Without Line Breaks

A listing is found again line by line only if no line holds a line break of its own. Numbers, quoted
texts and registers never do; the description of an instruction does so only where it shows a text
of the chunk as it stands, which are the names of globals and the keys and methods of tables.
-/

namespace ApkWorkshop.Listing

open Bytecode List
open Text

variable {cs : List Char} {ls : List (List Char)} {width n : Nat} {s separator sign : String}
  {ss : List String} {ks : List Constant} {i : Int}

/-! ### Splitting into lines -/

def Plain (cs : List Char) : Prop :=
  ∀ c ∈ cs, c ≠ '\n' ∧ c ≠ '\r'

@[simp] theorem plain_nil : Plain [] := by simp [Plain]

@[simp] theorem plain_cons {c : Char} : Plain (c :: cs) ↔ (c ≠ '\n' ∧ c ≠ '\r') ∧ Plain cs := by
  simp [Plain]

@[simp] theorem plain_append {xs ys : List Char} : Plain (xs ++ ys) ↔ Plain xs ∧ Plain ys := by
  simp only [Plain, mem_append, or_imp, forall_and]
  tauto

def unlines (ls : List (List Char)) : List Char :=
  ls.flatMap (· ++ ['\n'])

@[simp] theorem unlines_nil : unlines [] = [] := rfl

@[simp] theorem unlines_append (ls ms : List (List Char)) :
    unlines (ls ++ ms) = unlines ls ++ unlines ms := by
  simp [unlines]

theorem linesFrom_append (h : Plain cs) (line rest : List Char) :
    linesFrom line (cs ++ rest) = linesFrom (cs.reverse ++ line) rest := by
  induction cs generalizing line with
  | nil => rfl
  | cons c cs ih =>
    obtain ⟨⟨hn, -⟩, hcs⟩ := plain_cons.mp h
    rw [cons_append, linesFrom.eq_3 _ _ _ (by simp [hn]), ih hcs]
    simp

theorem unifyNewlines_unlines (h : ∀ l ∈ ls, Plain l) :
    unifyNewlines (unlines ls) = unlines ls := by
  refine unifyNewlines_of_not_mem fun hmem => ?_
  obtain ⟨l, hl, hmem⟩ := mem_flatMap.mp hmem
  have hplain : '\r' ∉ l := fun hr => (h l hl '\r' hr).2 rfl
  simp [hplain] at hmem

/-- **Lines are found again**: unifying line breaks and splitting gives back plain lines. -/
theorem lines_unlines (h : ∀ l ∈ ls, Plain l) :
    lines (unifyNewlines (unlines ls)) = ls.map (· ++ ['\n']) := by
  rw [unifyNewlines_unlines h, lines]
  induction ls with
  | nil => rfl
  | cons l ls ih =>
    have hrest := ih fun m hm => h m (by simp [hm])
    rw [unlines] at hrest ⊢
    rw [flatMap_cons, append_assoc, linesFrom_append (h l (by simp)), singleton_append,
      linesFrom.eq_2, hrest]
    simp

@[simp] theorem plain_ite {p : Prop} [Decidable p] {t : String} :
    Plain (if p then s else t).toList ↔ (p → Plain s.toList) ∧ (¬ p → Plain t.toList) := by
  split <;> simp [*]

/-! ### Written numbers and quoted texts -/

theorem plain_of_isDigit (h : ∀ c ∈ cs, c.isDigit = true) : Plain cs :=
  fun c hc => ⟨ne_of_isDigit (h c hc) (by decide), ne_of_isDigit (h c hc) (by decide)⟩

@[simp] theorem plain_toDigits (n : Nat) : Plain (Nat.toDigits 10 n) :=
  plain_of_isDigit fun _ hc => isDigit_of_mem_toDigits hc

@[simp] theorem plain_decimalInt (z : Int) : Plain (decimalInt z).toList := by
  intro c hc
  rcases mem_decimalInt hc with rfl | hd
  · decide
  · exact ⟨ne_of_isDigit hd (by decide), ne_of_isDigit hd (by decide)⟩

@[simp] theorem plain_hex (n : Nat) : Plain (hex n).toList := by
  obtain ⟨ds, hds, hlt, -⟩ := exists_digits (by decide : 1 < 16) n
  rw [hex, String.toList_ofList, hds]
  intro c hc
  obtain ⟨d, hd, rfl⟩ := mem_map.mp hc
  have := hlt d hd
  interval_cases d <;> decide

theorem plain_padStart {fill : Char} (hfill : Plain [fill]) (hs : Plain s.toList) :
    Plain (padStart width fill s).toList := by
  rw [padStart, String.toList_append, String.toList_ofList, plain_append]
  refine ⟨fun c hc => ?_, hs⟩
  rw [eq_of_mem_replicate hc]
  exact hfill fill (by simp)

theorem plain_padEnd (h : Plain s.toList) : Plain (padEnd width s).toList := by
  rw [padEnd, String.toList_append, String.toList_ofList, plain_append]
  refine ⟨h, fun c hc => ?_⟩
  rw [eq_of_mem_replicate hc]
  decide

theorem plain_times {count : Int} (h : Plain s.toList) : Plain (times count s).toList := by
  intro c hc
  rw [times, String.toList_join] at hc
  obtain ⟨t, ht, hct⟩ := mem_flatMap.mp hc
  rw [eq_of_mem_replicate ht] at hct
  exact h c hct

theorem plain_joinWith (hsep : Plain separator.toList) (h : ∀ s ∈ ss, Plain s.toList) :
    Plain (joinWith separator ss).toList := by
  induction ss with
  | nil => simp [joinWith]
  | cons s ss ih =>
    rcases eq_or_ne ss [] with rfl | hne
    · simpa [joinWith] using h s (by simp)
    · rw [toList_joinWith_cons hne, plain_append, plain_append]
      exact ⟨h s (by simp), hsep, ih fun t ht => h t (by simp [ht])⟩

theorem plain_quotedChar {q : Char} (hq : IsQuote q) (c : Char) : Plain (quotedChar q c) := by
  have hhex : ∀ width n, Plain (hexPadded width n).toList := fun width n =>
    plain_padStart (by simp) (plain_hex n)
  rw [quotedChar]
  split
  · rename_i h
    rcases (by simpa using h : c = q ∨ c = '\\') with rfl | rfl
    · rcases hq with rfl | rfl <;> simp
    · simp
  split
  · simp
  split
  · simp
  split
  · simp
  split
  · rename_i hn hr _ _
    simp [hn, hr]
  · rw [codeEscape]
    split
    · simp [hhex]
    split <;> simp [hhex]

@[simp] theorem plain_quoted (s : String) : Plain (quoted s).toList := by
  have hq := isQuote_quoteFor s.toList
  have hquote : Plain [quoteFor s.toList] := by
    rcases hq with h | h <;> simp [h]
  have hbody : Plain (s.toList.flatMap (quotedChar (quoteFor s.toList))) := by
    intro c hc
    obtain ⟨d, -, hd⟩ := mem_flatMap.mp hc
    exact plain_quotedChar hq d c hd
  rw [quoted, String.toList_ofList, quotedChars, cons_append, ← singleton_append,
    plain_append, plain_append]
  exact ⟨hquote, hbody, hquote⟩

@[simp] theorem plain_text (x : Double) : Plain x.text.toList := by
  cases h : x.value with
  | finite negative u =>
    obtain ⟨p, htext, -⟩ := Double.exists_parts h
    rw [htext, plain_append]
    refine ⟨by cases negative <;> simp [Double.signChars], fun c hc => ?_⟩
    rcases Double.mem_chars hc with hd | hd
    · exact plain_of_isDigit (fun e he => by rwa [mem_singleton.mp he]) c (by simp)
    · simp only [mem_cons, not_mem_nil, or_false] at hd
      rcases hd with rfl | rfl | rfl | rfl <;> decide
  | infinite negative =>
    rw [Double.text, h]
    cases negative <;> simp
  | notANumber =>
    rw [Double.text, h]
    simp

@[simp] theorem plain_shown (k : Constant) : Plain k.shown.toList := by
  cases k with
  | nil | absent => simp [Constant.shown]
  | truth b => cases b <;> simp [Constant.shown, truthText]
  | number x => exact plain_text x
  | text s => exact plain_quoted s

/-! ### Descriptions -/

def textAt? (ks : List Constant) (position : Int) : Option String :=
  match Position.get? ks position with
  | some (.text s) => some s
  | _ => none

/-- The text of the chunk that a description shows as it stands: the name of a global, the key of a
table that is read, or the name of a method. -/
def bareText? (f : Fields) (ks : List Constant) : Mnemonic → Option String
  | .getGlobal | .setGlobal => textAt? ks f.bx
  | .getTable | .self => if f.c < 256 then none else textAt? ks (f.c - 256 : Nat)
  | _ => none

/-- The outcome of a description has a plain text, if there is one. -/
def PlainOutcome (x : Except Fault (String × Flow × Int)) : Prop :=
  ∀ t, x = .ok t → Plain t.1.toList

theorem plainOutcome_pure {rest : Flow × Int} (h : Plain s.toList) :
    PlainOutcome (pure (s, rest)) := by
  intro t ht
  cases ht
  exact h

theorem plainOutcome_throw (fault : Fault) : PlainOutcome (throw fault) := by
  intro t ht
  cases ht

theorem plainOutcome_bind {α : Type} {x : Except Fault α}
    {f : α → Except Fault (String × Flow × Int)} (h : ∀ a, x = .ok a → PlainOutcome (f a)) :
    PlainOutcome (x >>= f) := by
  cases x with
  | error fault =>
    intro t ht
    cases ht
  | ok a => exact h a rfl

@[simp] theorem plain_register (n : Nat) : Plain (register n).toList := by
  simp [register]

theorem plain_parenthesized (h : ∀ s ∈ ss, Plain s.toList) : Plain (parenthesized ss).toList := by
  have hjoin : Plain (joinWith ", " ss).toList := plain_joinWith (by simp) h
  simp [parenthesized, hjoin]

theorem plain_registers (hsep : Plain separator.toList) (first stop : Nat) :
    Plain (joinWith separator (registers first stop)).toList := by
  refine plain_joinWith hsep fun s hs => ?_
  obtain ⟨n, -, rfl⟩ := mem_map.mp hs
  exact plain_register n

@[simp] theorem plain_registerList (isOpen : Bool) (first stop : Nat) :
    Plain (registerList isOpen first stop).toList := by
  rw [registerList]
  split
  · simp
  · exact plain_registers (by simp) first stop

theorem get?_of_constantAt {k : Constant} (h : constantAt ks i = .ok k) :
    Position.get? ks i = some k := by
  rw [constantAt] at h
  split at h
  · cases h; assumption
  · cases h

theorem operand_cases {shown : String} {g : Constant → Except Fault String}
    (h : (if n < 256 then .ok shown else constantAt ks (n - 256 : Nat) >>= g) = .ok s) :
    shown = s ∨ ∃ k, g k = .ok s ∧ ∀ t, k = .text t →
      (if n < 256 then none else textAt? ks (n - 256 : Nat)) = some t := by
  split at h
  · exact .inl (Except.ok.inj h)
  · rename_i hn
    cases hk : constantAt ks (n - 256 : Nat) with
    | error fault => rw [hk] at h; cases h
    | ok k =>
      rw [hk] at h
      refine .inr ⟨k, h, fun t ht => ?_⟩
      rw [if_neg hn, textAt?, get?_of_constantAt hk, ht]

theorem plain_of_operandShown (h : operandShown ks n = .ok s) : Plain s.toList := by
  obtain rfl | ⟨k, hk, -⟩ := operand_cases h
  · simp
  · cases hk
    simp

theorem textAt?_of_globalName (h : globalName ks i = .ok s) : textAt? ks i = some s := by
  rw [globalName] at h
  cases hk : constantAt ks i with
  | error fault => rw [hk] at h; cases h
  | ok k =>
    rw [hk] at h
    rw [textAt?, get?_of_constantAt hk]
    cases k with
    | text t => cases h; rfl
    | nil | absent | truth b | number x => cases h

theorem plain_textKey (h : Plain s.toList) : Plain (textKey s).toList := by
  simp [textKey, h]

theorem plain_of_readKey (h : readKey ks n = .ok s)
    (hbare : ∀ t, (if n < 256 then none else textAt? ks (n - 256 : Nat)) = some t →
      Plain t.toList) : Plain s.toList := by
  obtain rfl | ⟨k, hk, htext⟩ := operand_cases h
  · exact plain_textKey (by simp)
  · cases hk
    cases k with
    | text t => exact plain_textKey (hbare t (htext t rfl))
    | nil | absent | truth b | number x => simp [constantKey, Constant.plain]

theorem plain_of_writeKey (h : writeKey ks n = .ok s) : Plain s.toList := by
  obtain rfl | ⟨k, hk, -⟩ := operand_cases h
  · exact plain_textKey (by simp)
  cases k with
  | text t =>
    cases hk
    refine plain_textKey (plain_ite.mpr ⟨fun hall c hc => ?_, fun _ => by simp⟩)
    have hprint : isPrintable c = true := all_eq_true.mp hall c hc
    exact ⟨fun e => absurd hprint (by rw [e]; decide), fun e => absurd hprint (by rw [e]; decide)⟩
  | nil | absent | truth b | number x =>
    cases hk
    simp [constantKey, Constant.plain]

theorem plain_of_methodName (h : methodName ks n = .ok s)
    (hbare : ∀ t, (if n < 256 then none else textAt? ks (n - 256 : Nat)) = some t →
      Plain t.toList) : Plain s.toList := by
  obtain rfl | ⟨k, hk, htext⟩ := operand_cases h
  · simp
  cases k with
  | text t =>
    simp only at hk
    split at hk
    · cases hk
    · cases hk
      exact hbare s (htext s rfl)
  | nil | absent | truth b | number x => cases hk

theorem plainOutcome_describeArithmetic (hsign : Plain sign.toList) (f : Fields)
    (ks : List Constant) : PlainOutcome (describeArithmetic sign f ks) :=
  plainOutcome_bind fun b hb => plainOutcome_bind fun c hc =>
    plainOutcome_pure (by simp [plain_of_operandShown hb, plain_of_operandShown hc, hsign])

theorem plainOutcome_describeComparison {opposite : String} (hsign : Plain sign.toList)
    (hopposite : Plain opposite.toList) (f : Fields) (ks : List Constant) :
    PlainOutcome (describeComparison sign opposite f ks) := by
  refine plainOutcome_bind fun _ _ => plainOutcome_bind fun b hb => plainOutcome_bind fun c hc =>
    plainOutcome_pure ?_
  simp [plain_of_operandShown hb, plain_of_operandShown hc, hsign, hopposite]

/-- **A description is plain** if the text that it shows as it stands is plain. -/
theorem plain_describe {f : Fields} {m : Mnemonic}
    (hbare : ∀ s, bareText? f ks m = some s → Plain s.toList) : PlainOutcome (describe f ks m) := by
  cases m with
  | move | getUpvalue | setUpvalue | jump | tailCall | return_ | forLoop | forPrep | close
  | closure | varArg | negate | not | length | loadNil | concat | newTable | call =>
    exact plainOutcome_pure (by simp [plain_registers, plain_parenthesized])
  | add | sub | mul | div | mod | pow =>
    exact plainOutcome_describeArithmetic (by simp) f ks
  | equal | less | lessEqual =>
    exact plainOutcome_describeComparison (by simp) (by simp) f ks
  | loadK | test | testSet => exact plainOutcome_bind fun _ _ => plainOutcome_pure (by simp)
  | loadBool =>
    refine plainOutcome_bind fun _ _ => plainOutcome_bind fun _ _ => plainOutcome_pure ?_
    have htruth : ∀ b, Plain (truthText b).toList := by
      intro b
      cases b <;> simp [truthText]
    simp [htruth]
  | getGlobal | setGlobal =>
    refine plainOutcome_bind fun s hs => plainOutcome_pure ?_
    simp [hbare s (textAt?_of_globalName hs)]
  | getTable =>
    exact plainOutcome_bind fun key hkey =>
      plainOutcome_pure (by simp [plain_of_readKey hkey hbare])
  | setTable =>
    exact plainOutcome_bind fun key hkey => plainOutcome_bind fun new hnew =>
      plainOutcome_pure (by simp [plain_of_writeKey hkey, plain_of_operandShown hnew])
  | self =>
    exact plainOutcome_bind fun method hmethod =>
      plainOutcome_pure (by simp [plain_of_methodName hmethod hbare])
  | forIn =>
    rw [describe]
    split
    · exact plainOutcome_throw _
    · exact plainOutcome_pure (by simp [plain_registers])
  | setList =>
    simp only [describe]
    split_ifs
    · exact plainOutcome_throw _
    · exact plainOutcome_pure (by simp)
    · exact plainOutcome_pure (by simp)

end ApkWorkshop.Listing
