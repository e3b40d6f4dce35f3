import ApkWorkshop.Proofs.Workbench
import ApkWorkshop.Tool.Decoder

/-!
# What a Batch Reports

A batch processes its files, and then counts them one by one. The listener of the percentages is
called between two counters (`Tool.countFile`): the file is already counted as processed, but not
yet as failed. If the call fails, the file is counted once more, as processed and as failed.

What a listener does is not known, so it is any job, and each of its calls is recorded with the
percentage it was told and its result (`Tool.Call`, `Tool.Calls`). The counters follow from the
outcomes of the files and from these calls (`Tool.Counted`), file by file (`Tool.ends_countFile`,
`Tool.exists_counted`).

The headline is `Tool.runBatch_counts`. The numbers are right if every call returns. A failed call
makes the reported files one more than there are, a file that went wrong is reported as a success if
its call fails too, and the percentages after a failed call are too high.
-/

namespace ApkWorkshop

open List Nat

/-! ### Percentages -/

namespace Double

variable {a b m k u : Nat} {negative : Bool}

theorem roundDiv_le (h : a ≤ m * b) : roundDiv a b ≤ m := by
  rcases Nat.eq_zero_or_pos b with rfl | hb
  · obtain rfl : a = 0 := by simpa using h
    simp [roundDiv]
  have hdiv : b * (a / b) + a % b = a := div_add_mod a b
  have hle : a / b ≤ m := Nat.div_le_of_le_mul (by rwa [Nat.mul_comm])
  -- a quotient that equals the bound leaves no remainder to round up
  have hstrict : a / b = m → a % b = 0 := by
    intro heq
    rw [heq, Nat.mul_comm] at hdiv
    omega
  rw [roundDiv]
  generalize a / b = q at hle hstrict
  split
  · exact hle
  split
  · rename_i hup
    omega
  split
  · exact hle
  · have hne : q ≠ m := fun heq => by
      omega
    omega

theorem roundUnits_le (hm : m < 2 ^ 53) (h : a ≤ m * 2 ^ k * b) : roundUnits a b ≤ m * 2 ^ k := by
  have hshift : (a / b).log2 + 1 - 53 ≤ k := by
    have hquotient : a / b < 2 ^ (53 + k) := by
      have hle : a / b ≤ m * 2 ^ k := Nat.div_le_of_le_mul (by rwa [Nat.mul_comm])
      have hlt : m * 2 ^ k < 2 ^ 53 * 2 ^ k := mul_lt_mul_of_pos_right hm (by positivity)
      rw [pow_add]
      omega
    rcases Nat.eq_zero_or_pos (a / b) with h0 | h0
    · rw [h0]
      simp
    · have := (log2_lt (by omega)).mpr hquotient
      omega
  simp only [roundUnits, pow_eq]
  generalize (a / b).log2 + 1 - 53 = s at hshift
  obtain ⟨t, rfl⟩ := Nat.exists_eq_add_of_le hshift
  have hround : roundDiv a (b * 2 ^ s) ≤ m * 2 ^ t := by
    refine roundDiv_le (h.trans_eq ?_)
    ring
  calc roundDiv a (b * 2 ^ s) * 2 ^ s ≤ m * 2 ^ t * 2 ^ s := Nat.mul_le_mul_right _ hround
    _ = m * 2 ^ (s + t) := by rw [pow_add]; ring

theorem of_value_ofMagnitude {units : Nat}
    (h : (ofMagnitude false (magnitudeBits units)).value = .finite negative u) :
    negative = false ∧ u ≤ units := by
  obtain ⟨e, f, he, hf, hbits, rfl⟩ := fields_of_value h
  have hle := magnitudeBits_le units
  simp only [ofMagnitude, Nat.toUInt64, UInt64.toNat_ofNat', signBit, hiddenBit,
    Bool.false_eq_true, if_false, zero_add] at hbits hle
  cases negative with
  | true => simp only [if_true] at hbits; omega
  | false =>
    refine ⟨rfl, ?_⟩
    have hmagnitude : magnitudeBits units = e * 2 ^ 52 + f := by
      simp only [Bool.false_eq_true, if_false] at hbits
      omega
    rw [magnitudeBits, show hiddenBit = 2 ^ 52 from rfl] at hmagnitude
    simp only [pow_eq] at hmagnitude
    split at hmagnitude
    · obtain ⟨rfl, rfl⟩ : e = 0 ∧ f = units := by omega
      rfl
    split at hmagnitude
    · omega
    -- a significand with all its 53 bits, from which the bits below it are cut off
    generalize hs : units.log2 - 52 = s at hmagnitude
    have hlog : 52 ≤ units.log2 := (le_log2 (by omega)).mpr (by omega)
    have hlo : 2 ^ 52 * 2 ^ s ≤ units := by
      rw [← pow_add, show 52 + s = units.log2 by omega]
      exact log2_self_le (by omega)
    have hhi : units / 2 ^ s < 2 ^ 53 := by
      rw [div_lt_iff_lt_mul (by positivity), ← pow_add, show 53 + s = units.log2 + 1 by omega]
      exact lt_log2_self
    have hlead : 2 ^ 52 ≤ units / 2 ^ s := (le_div_iff_mul_le (by positivity)).mpr hlo
    obtain ⟨rfl, hfraction⟩ : e = s + 1 ∧ 2 ^ 52 + f = units / 2 ^ s := by omega
    rw [hfraction]
    exact div_mul_le_self units (2 ^ s)

theorem of_value_ofUnits (hm : m < 2 ^ 53) (h : a ≤ m * 2 ^ k * b)
    (hvalue : (ofUnits false a b).value = .finite negative u) : negative = false ∧ u ≤ m * 2 ^ k :=
  ⟨(of_value_ofMagnitude hvalue).1, (of_value_ofMagnitude hvalue).2.trans (roundUnits_le hm h)⟩

end Double

namespace Tool

/-- **A part is at most a hundred percent** of the whole, also after rounding. -/
theorem percent_le {done total : Nat} (h : done ≤ total) : percent done total ≤ 100 := by
  have hone : Double.one = 1 * 2 ^ 1074 := by decide +kernel
  have hhundred : (Double.ofInt 100).value = .finite false (100 * Double.one) := by decide +kernel
  rw [percent, Double.mul, hhundred]
  cases hratio : (Double.ofRatio done total).value with
  | notANumber => decide
  | infinite negative =>
    dsimp only
    cases negative <;> decide +kernel
  | finite negative units =>
    -- the quotient is at most one, and a hundred times that is at most a hundred
    have hdone : done * Double.one ≤ 1 * 2 ^ 1074 * total := by
      rw [← hone, Nat.mul_comm]
      exact mul_le_mul_left _ h
    obtain ⟨rfl, hunits⟩ := Double.of_value_ofUnits (by decide) hdone hratio
    dsimp only
    rw [bne_self_eq_false, Double.truncate?]
    have hproduct : units * (100 * Double.one) ≤ 100 * 2 ^ 1074 * Double.one := by
      rw [← mul_assoc]
      refine Nat.mul_le_mul_right _ ?_
      omega
    generalize hvalue :
      (Double.ofUnits false (units * (100 * Double.one)) Double.one).value = value
    cases value with
    | notANumber => decide
    | infinite negative => cases negative <;> decide
    | finite negative product =>
      obtain ⟨rfl, hle⟩ := Double.of_value_ofUnits (by decide) hproduct hvalue
      have hquotient : product / Double.one ≤ 100 := by
        rw [← Nat.one_mul (2 ^ 1074), ← hone] at hle
        exact Nat.div_le_of_le_mul (by rwa [Nat.mul_comm])
      simp only [Double.signed, Bool.false_eq_true, if_false, Option.getD_some]
      omega

/-! ### Calls of a listener -/

/-- A listener is told a percentage, and the call ends well or with a fault. -/
structure Call where
  percent : Int
  result : Except Fault Unit

def Call.failed (call : Call) : Bool :=
  !call.result.isOk

/-- How many calls of the listener fail. -/
def failures (calls : List Call) : Nat :=
  calls.countP Call.failed

theorem failures_cons (call : Call) (calls : List Call) :
    failures (call :: calls) = failures calls + if call.failed then 1 else 0 :=
  countP_cons

/-- Calls of a listener one after the other, each from the world that the one before has left. -/
inductive Calls (tell : Int → Job Unit) : World → List Call → World → Prop
  | nil (w : World) : Calls tell w [] w
  | cons {w w₁ w' : World} {percent : Int} {result : Except Fault Unit} {calls : List Call}
      (h : (tell percent).doneIn w = (result, w₁)) (rest : Calls tell w₁ calls w') :
      Calls tell w (⟨percent, result⟩ :: calls) w'

/-! ### Counting -/

def troubled (outcomes : List (String × Processed)) : Nat :=
  outcomes.countP (·.2.trouble.isSome)

/-- The files that go wrong while the listener fails as well. -/
def troubledTwice (outcomes : List (String × Processed)) (calls : List Call) : Nat :=
  (outcomes.zip calls).countP fun round => round.1.2.trouble.isSome && round.2.failed

/-- The outcomes have been counted, from one tally to another, with these calls of the listener. -/
structure Counted (total : Nat) (tally : Tally) (outcomes : List (String × Processed))
    (calls : List Call) (t : Tally) : Prop where
  length : calls.length = outcomes.length
  processed : t.processed = tally.processed + outcomes.length + failures calls
  failed : t.failed + troubledTwice outcomes calls =
    tally.failed + troubled outcomes + failures calls
  percents : ∀ i call, calls[i]? = some call →
    call.percent = percent (tally.processed + (i + 1) + failures (calls.take i)) total

theorem Counted.nil (total : Nat) (tally : Tally) : Counted total tally [] [] tally where
  length := rfl
  processed := rfl
  failed := rfl
  percents := by simp

theorem Counted.cons {total : Nat} {tally t₁ t : Tally} {input : String} {outcome : Processed}
    {rest : List (String × Processed)} {call : Call} {calls : List Call}
    (h : Counted total t₁ rest calls t)
    (hpercent : call.percent = percent (tally.processed + 1) total)
    (hprocessed : t₁.processed = tally.processed + 1 + if call.failed then 1 else 0)
    (hfailed : t₁.failed = tally.failed + if outcome.trouble.isSome || call.failed then 1 else 0) :
    Counted total tally ((input, outcome) :: rest) (call :: calls) t where
  length := by rw [length_cons, length_cons, h.length]
  processed := by
    have hrest := h.processed
    rw [failures_cons, length_cons]
    omega
  failed := by
    have hrest := h.failed
    rw [troubled, troubledTwice] at hrest ⊢
    rw [failures_cons, zip_cons_cons, countP_cons, countP_cons]
    cases htrouble : outcome.trouble.isSome <;> cases hcall : call.failed <;>
      simp only [htrouble, hcall, Bool.or_false, Bool.or_true, Bool.and_false, Bool.and_true,
        Bool.false_eq_true, if_true, if_false] at hfailed ⊢ <;> omega
  percents := by
    intro i later hlater
    cases i with
    | zero =>
      obtain rfl : call = later := Option.some.inj hlater
      exact hpercent
    | succ i =>
      rw [h.percents i later hlater, take_succ_cons, failures_cons]
      congr 1
      omega

/-- **One file is counted**, whatever comes of telling about it: a failed call counts the file once
more, as processed and as failed. -/
theorem ends_countFile (tell : Int → Job Unit) (total : Nat) (tally : Tally) (input : String)
    (outcome : Processed) (call : Call) {w w₁ : World}
    (hpercent : call.percent = percent (tally.processed + 1) total)
    (h : (tell call.percent).doneIn w = (call.result, w₁)) :
    ∃ t, Ends (countFile tell total tally input outcome) w t w₁ ∧
      t.processed = tally.processed + 1 + (if call.failed then 1 else 0) ∧
      t.failed = tally.failed + (if outcome.trouble.isSome || call.failed then 1 else 0) := by
  obtain ⟨told, result⟩ := call
  obtain rfl : told = _ := hpercent
  rw [countFile]
  cases result with
  | ok done =>
    have htold : Ends (tell (percent (tally.processed + 1) total)) w done w₁ := h
    cases outcome.trouble <;>
      exact ⟨_, Job.ends_orElse (htold.bind (ends_pure.mpr ⟨rfl, rfl⟩)), rfl, rfl⟩
  | error fault =>
    refine ⟨_, Job.ends_orElse_of_error (Job.doneIn_bind_error h) (ends_pure.mpr ⟨rfl, rfl⟩),
      rfl, ?_⟩
    cases outcome.trouble <;> rfl

/-- **All files are counted**, whatever comes of telling about them. -/
theorem exists_counted (tell : Int → Job Unit) (total : Nat) (tally : Tally)
    (outcomes : List (String × Processed)) (w : World) :
    ∃ calls t w', Calls tell w calls w' ∧ Ends (countFiles tell total tally outcomes) w t w' ∧
      Counted total tally outcomes calls t := by
  induction outcomes generalizing tally w with
  | nil => exact ⟨[], tally, w, .nil w, ends_pure.mpr ⟨rfl, rfl⟩, .nil total tally⟩
  | cons first rest ih =>
    obtain ⟨input, outcome⟩ := first
    generalize htold : (tell (percent (tally.processed + 1) total)).doneIn w = told
    obtain ⟨result, w₁⟩ := told
    obtain ⟨t₁, hfirst, hprocessed, hfailed⟩ := ends_countFile tell total tally input outcome
      ⟨percent (tally.processed + 1) total, result⟩ rfl htold
    obtain ⟨calls, t, w', hcalls, hrest, hcounted⟩ := ih t₁ w₁
    exact ⟨_ :: calls, t, w', .cons htold hcalls, hfirst.bind hrest,
      hcounted.cons rfl hprocessed hfailed⟩

/-! ### Reports -/

theorem length_of_ends_processAll {process : String → String → Job Processed}
    {tasks : List (String × String)} {outcomes : List (String × Processed)} {w w₁ : World}
    (h : Ends (processAll process tasks) w outcomes w₁) : outcomes.length = tasks.length := by
  rw [processAll] at h
  induction tasks generalizing outcomes w w₁ with
  | nil =>
    rw [mapM_nil, ends_pure] at h
    rw [← h.1]
    rfl
  | cons task tasks ih =>
    rw [mapM_cons] at h
    obtain ⟨first, w', -, hrest⟩ := ends_bind.mp h
    obtain ⟨rest, w'', htasks, hpure⟩ := ends_bind.mp hrest
    rw [← (ends_pure.mp hpure).1, length_cons, length_cons, ih htasks]

/-- **What a batch reports**, whatever its listener does. The files reported as successful are those
that went well, and those that went wrong while the listener failed as well. Together with the
failed ones they are as many as the files and the failed calls. Each percentage counts the files so
far and the failed calls so far, so it is at most a hundred until these are more than the files. -/
theorem runBatch_counts {id : Nat} {process : String → String → Job Processed}
    {tasks : List (String × String)} {outcomes : List (String × Processed)} {w w₁ : World}
    (hprocessed : Ends (processAll process tasks) w outcomes w₁) (tell : Int → Job Unit)
    (done reported : String) :
    ∃ calls t w₂, Calls tell w₁ calls w₂ ∧ calls.length = tasks.length ∧
      (runBatch id tell process tasks done reported).doneIn w =
        (reportBatch id tasks.length t done reported).doneIn w₂ ∧
      t.succeeded = outcomes.countP (·.2.trouble.isNone) + troubledTwice outcomes calls ∧
      t.succeeded + t.failed = tasks.length + failures calls ∧
      ∀ i call, calls[i]? = some call →
        call.percent = percent (i + 1 + failures (calls.take i)) tasks.length ∧
        (i + 1 + failures (calls.take i) ≤ tasks.length → call.percent ≤ 100) := by
  obtain ⟨calls, t, w₂, hcalls, hends, hcounted⟩ :=
    exists_counted tell tasks.length {} outcomes w₁
  have hlength := length_of_ends_processAll hprocessed
  have hall : outcomes.length = outcomes.countP (·.2.trouble.isNone) + troubled outcomes := by
    rw [length_eq_countP_add_countP (p := fun file => file.2.trouble.isNone), troubled]
    congr 1
    refine countP_congr fun file _ => ?_
    cases file.2.trouble <;> simp
  have htotal : t.processed = 0 + outcomes.length + failures calls := hcounted.processed
  have hfailed : t.failed + troubledTwice outcomes calls =
    0 + troubled outcomes + failures calls := hcounted.failed
  refine ⟨calls, t, w₂, hcalls, hcounted.length.trans hlength,
    hprocessed.run_bind.trans hends.run_bind, ?_, ?_, fun i call hcall => ?_⟩
  · rw [Tally.succeeded]
    omega
  · rw [Tally.succeeded]
    omega
  · have hpercent := hcounted.percents i call hcall
    rw [zero_add] at hpercent
    refine ⟨hpercent, fun hle => ?_⟩
    rw [hpercent]
    exact percent_le hle

/-- A folder with two Lua files, one of which has an escape that is no byte. The log and the
percentages are recorded, and the recorder of the percentages fails on two of them. -/
def grumblingDecoder : World where
  files := ⟨.folder (.cons "in" (.folder (.cons "a.lua" (.file [120])
    (.cons "b.lua" (.file (Text.encode " = \"\\300\\300\"")) .nil))) .nil), []⟩
  tools := [{
    settings := 0
    part := .decoder .inputToOutput
    log := .recorder []
    progress := .recorder [.whole 50, .whole 150]
    paths := [("input", "in"), ("output", "out")] }]

/-- The two files with the paths of what they are decoded to. -/
def grumblingTasks : List (String × String) :=
  [("in/a.lua", "out/a.lua"), ("in/b.lua", "out/b.lua")]

def grumblingOutcomes : List (String × Processed) :=
  [("in/a.lua", ⟨"a.lua", none⟩), ("in/b.lua", ⟨"b.lua", some "bytes must be in range(0, 256)"⟩)]

/-- With a listener that always fails, both files are counted as successful and as failed. -/
theorem runBatch_counts_grumblingDecoder :
    ∃ w₁, Ends (processAll Decoder.process grumblingTasks) grumblingDecoder grumblingOutcomes w₁ ∧
      ∀ fault, ∃ t w₂, (runBatch 0 (fun _ => throw fault) Decoder.process grumblingTasks
          "UTF8 decoding" "Decoded").doneIn grumblingDecoder =
        (reportBatch 0 2 t "UTF8 decoding" "Decoded").doneIn w₂ ∧
        t.succeeded = 2 ∧ t.succeeded + t.failed = 4 := by
  obtain ⟨w₁, hprocessed⟩ : ∃ w₁,
      Ends (processAll Decoder.process grumblingTasks) grumblingDecoder grumblingOutcomes w₁ :=
    ⟨_, Job.ends_of_doneIn (by decide +kernel)⟩
  refine ⟨w₁, hprocessed, fun fault => ?_⟩
  obtain ⟨calls, t, w₂, hcalls, hlength, hrun, hsucceeded, hall, -⟩ :=
    @runBatch_counts 0 _ _ _ _ _ hprocessed (fun _ => throw fault) "UTF8 decoding" "Decoded"
  refine ⟨t, w₂, hrun, ?_⟩
  obtain ⟨first, second, rfl⟩ := length_eq_two.mp hlength
  -- both calls fail
  cases hcalls with
  | cons hfirst hcalls =>
    cases hcalls with
    | cons hsecond hcalls =>
      cases hfirst
      cases hsecond
      exact ⟨hsucceeded, hall⟩

/-- **A failing listener spoils the counts**: one of two files is decoded, but two are reported as
decoded and two as failed, and the second percentage is above a hundred. -/
theorem failing_listener_is_counted : ∃ w', Ends (Decoder.decode 0) grumblingDecoder () w' ∧
    w'.journal.log.map Value.plain = [
      "🔤 Starting UTF8 decoding from in...", "📁 Files to process: 2",
      "✅ UTF8 decoding completed: 2/2 successful", "❌ Failed files: 2",
      "❌ a.lua: callback failed on 50", "❌ b.lua: callback failed on 150"] ∧
    w'.journal.progress.map Value.asWhole? = [some 50, some 150] :=
  Job.exists_ends_of_doneIn (by decide +kernel)

end Tool

end ApkWorkshop
