import ApkWorkshop.Proofs.TreeRemoval

/-!
# Processes

A process takes the next outcome and leaves its files, whatever becomes of it afterwards:

* `Job.left` — the files that a process leaves, as a function of the files before;
* `Job.began` — the world in which a process has begun;
* `Job.Ended` — **how it ended**: well under a condition on its outcome, with all its files, or with
  a fault, and then either nothing or everything was left;
* `Job.leaves_complete`, `Job.leaves_runChecked` — each way to run a process, with its condition.
-/

namespace ApkWorkshop.Job

def left (command : List String) (made : List (MadeAt × Option (List UInt8))) (files : Files) :
    Except FileFault Files :=
  made.foldlM (fun files m => leave command m files) files

theorem leaves_leave (command : List String) (made : List (MadeAt × Option (List UInt8)))
    (w : World) : Leaves (made.forM fun m => onFiles (leave command m)) w fun r w' =>
      ∃ files, w' = { w with files } ∧ (r = .ok () ∧ left command made w.files = .ok files ∨
        (∃ e, r = .error e) ∧ ∃ fault, left command made w.files = .error fault) := by
  induction made generalizing w with
  | nil => exact leaves_pure ⟨w.files, rfl, .inl ⟨rfl, rfl⟩⟩
  | cons m rest ih =>
    simp only [left, List.foldlM_cons] at ih ⊢
    refine leaves_onFiles_bind (fun files hfiles => ?_) fun fault hfault => ?_
    · rw [hfiles]
      exact ih { w with files }
    · rw [hfault]
      exact ⟨w.files, rfl, .inr ⟨⟨_, rfl⟩, fault, rfl⟩⟩

/-- The world in which a process has begun that leaves these files. -/
def began (w : World) (command : List String) (files : Files) : World :=
  { w with
    files
    journal := { w.journal with commands := w.journal.commands ++ [command] }
    outside := { w.outside with outcomes := w.outside.outcomes.tail } }

/-- How a process ended that takes the next outcome: well if it is `good`, and otherwise with a
fault. -/
structure Ended (good : Outcome → Prop) (w : World) (command : List String)
    (r : Except Fault Outcome) (files : Files) : Prop where
  ok : ∀ o, r = .ok o → o = w.outside.outcomes.headD {} ∧ good o ∧
    left command o.made w.files = .ok files
  error : ∀ e files', r = .error e →
    left command (w.outside.outcomes.headD {}).made w.files = .ok files' →
    ¬ good (w.outside.outcomes.headD {}) ∧ (files = w.files ∨ files = files')

/-- How a command ended whose words come from the settings. Without the name of a program, no
process begins. -/
def Commanded (good : Outcome → Prop) (words : List Value) (w : World) (r : Except Fault Outcome)
    (w' : World) : Prop :=
  (w' = w ∧ (∃ e, r = .error e) ∧ ∃ e, Value.commandWords words = .error e) ∨
    ∃ command files, Value.commandWords words = .ok command ∧ w' = began w command files ∧
      Ended good w command r files

section

variable {good better : Outcome → Prop} {w : World} {command : List String} {files : Files}
  {e e' : Fault} {o : Outcome}

theorem Ended.mono (h : Ended good w command (.error e) files) (hgood : ∀ o, better o → good o) :
    Ended better w command (.error e') files where
  ok := nofun
  error := fun _ files' _ hleft =>
    (h.error e files' rfl hleft).imp_left fun hnot hbetter => hnot (hgood _ hbetter)

theorem Ended.refuse (h : Ended good w command (.ok o) files) (hnot : ¬ better o) :
    Ended better w command (.error e) files where
  ok := nofun
  error := fun _ files' _ hleft => by
    obtain ⟨rfl, -, hfiles⟩ := h.ok o rfl
    exact ⟨hnot, .inr (Except.ok.inj (hfiles.symm.trans hleft))⟩

theorem Ended.accept (h : Ended good w command (.ok o) files) (hbetter : better o) :
    Ended better w command (.ok o) files where
  ok := fun o' ho => by
    cases ho
    exact ⟨(h.ok o rfl).1, hbetter, (h.ok o rfl).2.2⟩
  error := nofun

end

/-- **A process** takes the next outcome and leaves its files, unless there is no such program. -/
theorem leaves_start (command : List String) (w : World) :
    Leaves (start command) w fun r w' => ∃ files, w' = began w command files ∧
      Ended (·.refusal ≠ some .missing) w command r files := by
  generalize hhead : w.outside.outcomes.headD {} = head
  -- what follows once the outcome is taken
  have hrest (v : World) (hv : v = began w command w.files) :
      Leaves (do
        if head.refusal = some .missing then throw (.file (.missing (command.headD "")))
        head.made.forM fun m => onFiles (leave command m)
        return head : Job Outcome) v fun r w' => ∃ files, w' = began w command files ∧
          Ended (·.refusal ≠ some .missing) w command r files := by
    subst hv hhead
    split
    · rename_i hmissing
      exact leaves_throw_bind ⟨w.files, rfl, nofun, fun _ _ _ _ => ⟨not_not.mpr hmissing, .inl rfl⟩⟩
    · rename_i hmissing
      refine (leaves_leave command _ _).bind (fun _ w' h => ?_) fun e w' h => ?_
      all_goals obtain ⟨files, rfl, ⟨hr, hleft⟩ | ⟨⟨_, hr⟩, fault, hleft⟩⟩ := h <;> cases hr
      · exact leaves_pure ⟨files, rfl, fun o ho => by cases ho; exact ⟨rfl, hmissing, hleft⟩, nofun⟩
      · exact ⟨files, rfl, nofun, fun _ files' _ h => by cases hleft.symm.trans h⟩
  refine leaves_modify_bind (leaves_get_bind ?_)
  cases houtcomes : w.outside.outcomes with
  | nil =>
    obtain rfl : {} = head := by rw [← hhead, houtcomes]; rfl
    refine hrest _ ?_
    rw [began, houtcomes, List.tail_nil, ← houtcomes]
  | cons o rest =>
    obtain rfl : o = head := by rw [← hhead, houtcomes]; rfl
    refine leaves_modify_bind (hrest _ ?_)
    rw [began, houtcomes, List.tail_cons]

theorem leaves_complete (command : List String) (seconds : Option Nat) (w : World) :
    Leaves (complete command seconds) w fun r w' => ∃ files, w' = began w command files ∧
      Ended (·.refusal = none) w command r files := by
  refine (leaves_start command w).bind (fun o w' h => ?_) fun e w' h => ?_
  · obtain ⟨files, rfl, h⟩ := h
    split
    · rename_i htimeout
      exact leaves_throw_bind ⟨files, rfl, h.refuse (by simp [htimeout])⟩
    · rename_i htimeout
      refine leaves_pure ⟨files, rfl, h.accept ?_⟩
      cases hrefusal : o.refusal with
      | none => rfl
      | some refusal =>
        have hmissing := (h.ok o rfl).2.1
        cases refusal <;> contradiction
  · obtain ⟨files, rfl, h⟩ := h
    exact ⟨files, rfl, h.mono fun o ho => by simp [ho]⟩

theorem leaves_run (words : List Value) (seconds : Option Nat) (w : World) :
    Leaves (run words seconds) w (Commanded (·.refusal = none) words w) :=
  leaves_attempt_bind (fun command hcommand => (leaves_complete command seconds w).mono
    fun _ _ ⟨files, hw', h⟩ => .inr ⟨command, files, hcommand, hw', h⟩)
    fun e he => .inl ⟨rfl, ⟨e, rfl⟩, e, he⟩

theorem leaves_runChecked (words : List Value) (seconds : Option Nat) (w : World) :
    Leaves (runChecked words seconds) w
      (Commanded (fun o => o.refusal = none ∧ o.code = 0) words w) := by
  refine leaves_attempt_bind (fun command hcommand => ?_) fun e he =>
    .inl ⟨rfl, ⟨e, rfl⟩, e, he⟩
  refine (leaves_complete command seconds w).bind (fun o w' h => ?_) fun e w' h => ?_
  · obtain ⟨files, rfl, h⟩ := h
    split
    · rename_i hcode
      exact leaves_throw_bind (.inr ⟨command, files, hcommand, rfl, h.refuse fun ho => hcode ho.2⟩)
    · rename_i hcode
      exact leaves_pure (.inr ⟨command, files, hcommand, rfl,
        h.accept ⟨(h.ok o rfl).2.1, not_not.mp hcode⟩⟩)
  · obtain ⟨files, rfl, h⟩ := h
    exact .inr ⟨command, files, hcommand, rfl, h.mono fun o ho => ho.1⟩

end ApkWorkshop.Job
