import ApkWorkshop.Proofs.FolderWalks
import ApkWorkshop.Proofs.Workbench

/-!
# Compiled Files

Each Lua file is compiled by a process of its own, which writes to a temporary file; that file then
takes the place of the old compiled one. `compiledBy` tells what the processes compile, file by
file, and `standingAfter` what stands once a file is done:

* `ends_process` — one file, however its process ends;
* `ends_compileFiles` — all files, one after the other;
* `standingAfter_all_temporary`, `standingAfter_all_compiled`, `standingAfter_all_of_ne` — what
  stands in the end.
-/

namespace ApkWorkshop.Tool.Compiler

open Text List Function ApkWorkshop.Path

variable {output path : String}

/-! ### Names -/

/-- The name of a Lua file without its ending, in front of which stands the path of its folder. -/
def baseName (path : String) : String :=
  Path.withoutEnding (Path.name path)

def compiledName (path : String) : String :=
  baseName path ++ ".lu"

def temporaryName (path : String) : String :=
  compiledName path ++ ".tmp"

theorem targetPath_eq (output path : String) :
    targetPath output path = join output (compiledName path) := rfl

theorem compiledName_ne_temporaryName (a b : String) : compiledName a ≠ temporaryName b := by
  intro h
  have hlast := congrArg (fun s => s.toList.getLast?) h
  simp [temporaryName, compiledName] at hlast

theorem properName_withEnding {name ending : String} (hname : ProperName name)
    (hending : ProperName ending) (hlong : 2 < ending.length) :
    ProperName (withoutEnding name ++ ending) := by
  have hsigns : ∀ c ∈ (withoutEnding name).toList, c ∈ name.toList := by
    intro c hc
    rcases VersionName.exists_withoutEnding_eq hname.no_slash with hself | ⟨-, cs, -, -, hstart, heq⟩
    · rwa [hself] at hc
    · rw [heq, String.toList_ofList] at hc
      exact hstart.subset hc
  refine properName_append (fun h => hname.no_slash (hsigns _ h)) ?_ hending hlong
  have hzero := hname.no_zero
  rw [contains_eq_mem, decide_eq_false_iff_not] at hzero ⊢
  exact fun h => hzero (hsigns _ h)

theorem properName_compiledName (h : ProperName (name path)) : ProperName (compiledName path) :=
  properName_withEnding h (by decide) (by decide)

theorem properName_temporaryName (h : ProperName (name path)) :
    ProperName (temporaryName path) := by
  have hends : temporaryName path = withoutEnding (name path) ++ ".lu.tmp" :=
    String.append_assoc
  rw [hends]
  exact properName_withEnding h (by decide) (by decide)

theorem temporary_eq (output : String) (h : ProperName (name path)) :
    targetPath output path ++ ".tmp" = Path.join output (temporaryName path) :=
  (join_append output (properName_compiledName h).plainName ".tmp").symm

theorem targetPath_inj {a b : String} (ha : ProperName (name a)) (hb : ProperName (name b)) :
    targetPath output a = targetPath output b ↔ compiledName a = compiledName b := by
  constructor
  · intro h
    have hnames := congrArg name h
    rwa [targetPath_eq, targetPath_eq, name_entry output (properName_compiledName ha).plainName,
      name_entry output (properName_compiledName hb).plainName] at hnames
  · intro h
    rw [targetPath_eq, targetPath_eq, h]

/-! ### One file -/

/-- What stands once a file is compiled: the temporary file is gone, and the output of its process,
if there is one, is in the place of the compiled file. -/
def standingAfter (base : Files) (output : String) (s : Standing)
    (r : String × Option (List UInt8)) : Standing :=
  match r.2 with
  | some bytes => Function.update (Function.update s (base.slot output (temporaryName r.1)) none)
      (base.slot output (compiledName r.1)) (some (some bytes))
  | none => Function.update s (base.slot output (temporaryName r.1)) none

/-- No folder is in the way of a file that is to be compiled. -/
structure Free (base : Files) (output : String) (s : Standing) (path : String) : Prop where
  proper : ProperName (Path.name path)
  compiled : s (base.slot output (compiledName path)) ≠ some none
  temporary : s (base.slot output (temporaryName path)) ≠ some none

section

variable {base : Files} {output path : String} {s : Standing}

theorem slots_ne (a b : String) :
    base.slot output (compiledName a) ≠ base.slot output (temporaryName b) :=
  fun h => compiledName_ne_temporaryName a b (Files.slot_inj.mp h)

theorem standingAfter_some (bytes : List UInt8) : standingAfter base output s (path, some bytes) =
    Function.update (Function.update s (base.slot output (temporaryName path)) none)
      (base.slot output (compiledName path)) (some (some bytes)) := rfl

theorem standingAfter_none : standingAfter base output s (path, none) =
    Function.update s (base.slot output (temporaryName path)) none := rfl

theorem standing_of_standingAfter {r : String × Option (List UInt8)} {place : List String}
    (h : standingAfter base output s r place = some none) : s place = some none := by
  obtain ⟨path, compiled⟩ := r
  have hclear : Function.update s (base.slot output (temporaryName path)) none place = some none →
      s place = some none := by
    intro h
    rw [update_apply] at h
    split at h
    · cases h
    · exact h
  cases compiled with
  | none => exact hclear h
  | some bytes =>
    rw [standingAfter_some, update_apply] at h
    split at h
    · cases h
    · exact hclear h

theorem Free.standingAfter (h : Free base output s path) (r : String × Option (List UInt8)) :
    Free base output (standingAfter base output s r) path :=
  ⟨h.proper, fun hs => h.compiled (standing_of_standingAfter hs),
    fun hs => h.temporary (standing_of_standingAfter hs)⟩

/-- **The temporary file takes the place** of the compiled one, which goes first. -/
theorem Free.exists_move {w : World} {bytes : List UInt8} (hfree : Free base output s path)
    (h : Bench base output
      (Function.update s (base.slot output (temporaryName path)) (some (some bytes))) w.files) :
    ∃ files₁ files₂ s',
      Ends (clear (join output (compiledName path))) w () { w with files := files₁ } ∧
      Ends (Job.onFiles (·.move (join output (temporaryName path))
        (join output (compiledName path)))) { w with files := files₁ } () { w with files := files₂ } ∧
      Bench base output s' files₂ ∧ s' (base.slot output (temporaryName path)) = none ∧
      Function.update s' (base.slot output (temporaryName path)) none =
        Compiler.standingAfter base output s (path, some bytes) := by
  have hcompiled := properName_compiledName hfree.proper
  have hne := @slots_ne base output path path
  obtain ⟨files₁, hclear, hcleared⟩ := h.ends_clear hcompiled (by
    rw [update_of_ne hne]
    exact hfree.compiled)
  obtain ⟨files₂, hmove, hmoved⟩ := @Bench.move _ _ _ _ _ bytes _ hcleared
    (properName_temporaryName hfree.proper) hcompiled
    (compiledName_ne_temporaryName path path).symm (by rw [update_of_ne hne.symm, update_self])
    (by rw [update_self]; simp)
  refine ⟨files₁, files₂, _, hclear, Job.ends_onFiles hmove, hmoved, by rw [update_self], ?_⟩
  rw [update_idem, update_idem, update_comm hne.symm, update_idem]
  exact update_comm hne _ _ s

theorem leaves_attempted {w : World} (h : Bench base output s w.files)
    (hfree : Free base output s path) (hout : ∀ o ∈ w.outside.outcomes, o.OnlyOutput) (luac : Value)
    (name : String) :
    Leaves (process.attempted luac path name (join output (compiledName path))
      (join output (temporaryName path))) w fun r w' =>
      w'.tools = w.tools ∧ w'.outside.outcomes = (launch luac w.outside.outcomes).2 ∧
      (∃ s', s' (base.slot output (temporaryName path)) ≠ some none ∧ Bench base output s' w'.files ∧
        Function.update s' (base.slot output (temporaryName path)) none =
          standingAfter base output s (path, (launch luac w.outside.outcomes).1)) ∧
      (∀ p, r = .ok p → (p.trouble = none ↔ (launch luac w.outside.outcomes).1.isSome)) ∧
      ∀ e, r = .error e → (launch luac w.outside.outcomes).1 = none := by
  have htemporary := properName_temporaryName hfree.proper
  obtain ⟨files, hclear, hcleared⟩ := h.ends_clear htemporary hfree.temporary
  rw [process.attempted]
  refine hclear.leaves_bind ?_
  refine (@Bench.leaves_runChecked _ _ _ _ { w with files } hcleared htemporary
    (update_self _ _ _) hout luac path).bind (fun o w' hran => ?_) fun e w' hran => ?_
  · obtain ⟨htools, houtcomes, entry, hentry, hbench, hok, -⟩ := hran
    rw [update_idem] at hbench
    have hstands := Job.ends_standsAt w' (join output (temporaryName path))
    rw [hbench.exists?_entry htemporary, update_self, hok o rfl] at hstands
    cases hlaunch : (launch luac w.outside.outcomes).1 with
    | none =>
      rw [hlaunch] at hstands
      refine hstands.leaves_bind (leaves_pure ⟨htools, houtcomes, ⟨_, ?_, hbench, ?_⟩, ?_, by simp⟩)
      · rwa [update_self]
      · rw [update_idem, standingAfter_none]
      · intro p hp
        cases hp
        simp
    | some bytes =>
      rw [hlaunch] at hstands
      obtain rfl : entry = some (some bytes) := (hok o rfl).trans (congrArg (Option.map some) hlaunch)
      obtain ⟨files₁, files₂, s', hclear₁, hmove, hmoved, hgone, hafter⟩ := hfree.exists_move hbench
      refine hstands.leaves_bind (hclear₁.leaves_bind (hmove.leaves_bind (leaves_pure ?_)))
      refine ⟨htools, houtcomes, ⟨s', by simp [hgone], hmoved, hafter⟩, fun p hp => ?_, by simp⟩
      cases hp
      simp
  · obtain ⟨htools, houtcomes, entry, hentry, hbench, -, herror⟩ := hran
    have hnone : (launch luac w.outside.outcomes).1 = none := herror e rfl
    refine ⟨htools, houtcomes, ⟨_, ?_, hbench, ?_⟩, by simp, fun _ _ => hnone⟩
    · rwa [update_self]
    · rw [hnone, update_idem, update_idem, standingAfter_none]

theorem failure_trouble (name : String) (fault : Fault) : (failure name fault).trouble ≠ none := by
  rw [failure.eq_def]
  split <;> simp

/-- **One file is compiled**, or its process fails: either way the temporary file is gone, and the
compiled file is the output of the process or as it was. -/
theorem ends_process {w : World} (h : Bench base output s w.files) (hfree : Free base output s path)
    (hout : ∀ o ∈ w.outside.outcomes, o.OnlyOutput) (luac : Value) :
    ∃ p w', Ends (process luac path output) w p w' ∧
      (p.trouble = none ↔ (launch luac w.outside.outcomes).1.isSome) ∧
      w'.tools = w.tools ∧ w'.outside.outcomes = (launch luac w.outside.outcomes).2 ∧
      Bench base output (standingAfter base output s (path, (launch luac w.outside.outcomes).1))
        w'.files := by
  have htemporary := properName_temporaryName hfree.proper
  have hattempt := leaves_attempted h hfree hout luac (name path)
  generalize launch luac w.outside.outcomes = launched at hattempt ⊢
  obtain ⟨compiled, rest⟩ := launched
  rw [process, temporary_eq output hfree.proper]
  -- a fault only tells why the file was not compiled
  have htold : Leaves ((process.attempted luac path (name path)
        (join output (compiledName path)) (join output (temporaryName path))).orElse
        fun fault => return failure (name path) fault) w fun r w' =>
      ∃ p, r = .ok p ∧ (p.trouble = none ↔ compiled.isSome) ∧ w'.tools = w.tools ∧
        w'.outside.outcomes = rest ∧ ∃ s', s' (base.slot output (temporaryName path)) ≠ some none ∧
          Bench base output s' w'.files ∧ Function.update s' (base.slot output (temporaryName path))
            none = standingAfter base output s (path, compiled) := by
    refine Job.leaves_orElse hattempt (fun p w' hend => ?_) fun e w' hend => leaves_pure ?_
    · obtain ⟨htools, hrest, hs', hok, -⟩ := hend
      exact ⟨p, rfl, hok p rfl, htools, hrest, hs'⟩
    · obtain ⟨htools, hrest, hs', -, herror⟩ := hend
      have hnone : compiled = none := herror e rfl
      refine ⟨_, rfl, ?_, htools, hrest, hs'⟩
      simp [hnone, failure_trouble]
  obtain ⟨p, w₁, hends, htrouble, htools, hrest, s', hs', hbench, hafter⟩ := htold.exists_ends
  obtain ⟨files, hclear, hcleared⟩ := hbench.ends_clear htemporary hs'
  have hdiscard : Ends (discard (join output (temporaryName path))) w₁ ()
      { w₁ with files } := Job.ends_orElse hclear
  refine ⟨p, { w₁ with files }, hends.bind (hdiscard.bind (ends_pure.mpr ⟨rfl, rfl⟩)), htrouble,
    htools, hrest, ?_⟩
  rw [← hafter]
  exact hcleared

end

/-! ### All files -/

/-- Each file with what the compiler leaves for it. -/
def compiledBy (luac : Value) : List Outcome → List String → List (String × Option (List UInt8))
  | _, [] => []
  | outcomes, path :: rest =>
    (path, (launch luac outcomes).1) :: compiledBy luac (launch luac outcomes).2 rest

theorem map_compiledBy (luac : Value) (outcomes : List Outcome) (paths : List String) :
    (compiledBy luac outcomes paths).map (·.1) = paths := by
  induction paths generalizing outcomes with
  | nil => rfl
  | cons path rest ih => rw [compiledBy, map_cons, ih]

/-- **All files are compiled** one after the other, and those whose processes fail are counted. -/
theorem ends_compileFiles {base : Files} {s : Standing} {id : Nat} {w : World}
    (hlog : (w.tool id).log.TakesAll) (hprogress : (w.tool id).progress.TakesAll) (luac : Value)
    (total : Nat) {paths : List String} (h : Bench base output s w.files)
    (hfree : ∀ path ∈ paths, Free base output s path)
    (hout : ∀ o ∈ w.outside.outcomes, o.OnlyOutput) (done failed : Nat) :
    ∃ w', Ends (compileFiles id luac output total done failed paths) w
        (failed + (compiledBy luac w.outside.outcomes paths).countP (·.2.isNone)) w' ∧
      w'.tools = w.tools ∧
      Bench base output ((compiledBy luac w.outside.outcomes paths).foldl (standingAfter base output) s)
        w'.files := by
  induction paths generalizing s w done failed with
  | nil => exact ⟨w, ends_pure.mpr ⟨rfl, rfl⟩, rfl, h⟩
  | cons path rest ih =>
    obtain ⟨p, w₁, hprocess, htrouble, htools, houtcomes, hbench⟩ :=
      ends_process h (hfree path mem_cons_self) hout luac
    have htool : w₁.tool id = w.tool id := by rw [World.tool, World.tool, htools]
    obtain ⟨w₂, hshow, htold₂⟩ := @ends_showProgress w₁ id (by rw [htool]; exact hprogress)
      (percent (done + 1) total)
    have htool₂ : w₂.tool id = w.tool id := (htold₂.tool id).trans htool
    have hrest : ∀ line failed', ∃ w', Ends (do
        say id line
        compileFiles id luac output total (done + 1) failed' rest) w₂
        (failed' + (compiledBy luac (launch luac w.outside.outcomes).2 rest).countP (·.2.isNone)) w' ∧
        w'.tools = w.tools ∧ Bench base output
          ((compiledBy luac w.outside.outcomes (path :: rest)).foldl (standingAfter base output) s)
          w'.files := by
      intro line failed'
      obtain ⟨w₃, hsay, htold₃⟩ := @ends_say w₂ id (by rw [htool₂]; exact hlog) line
      have htool₃ : w₃.tool id = w.tool id := (htold₃.tool id).trans htool₂
      have hfiles : w₃.files = w₁.files := htold₃.files.trans htold₂.files
      have hleft : w₃.outside.outcomes = (launch luac w.outside.outcomes).2 := by
        rw [htold₃.outside, htold₂.outside, houtcomes]
      obtain ⟨w', hends, htools', hbench'⟩ := @ih _ w₃ (by rw [htool₃]; exact hlog)
        (by rw [htool₃]; exact hprogress) (hfiles ▸ hbench)
        (fun other hother => (hfree other (mem_cons_of_mem path hother)).standingAfter _)
        (fun o ho => hout o (launch_subset luac _ (hleft ▸ ho))) (done + 1) failed'
      rw [hleft] at hends hbench'
      exact ⟨w', hsay.bind hends, by rw [htools', htold₃.tools, htold₂.tools, htools], hbench'⟩
    rw [compiledBy, countP_cons]
    cases hp : p.trouble with
    | none =>
      have hsome := htrouble.mp hp
      obtain ⟨w', hends, hend⟩ := hrest ("✅ Compiled: " ++ p.file) failed
      refine ⟨w', hprocess.bind (hshow.bind ?_), hend⟩
      rw [hp]
      convert hends using 1
      rw [if_neg (by simpa using Option.isSome_iff_ne_none.mp hsome), Nat.add_zero]
    | some trouble =>
      have hnone : (launch luac w.outside.outcomes).1 = none := by
        rw [← Option.not_isSome_iff_eq_none, ← htrouble, hp]
        simp
      obtain ⟨w', hends, hend⟩ := hrest ("❌ " ++ p.file ++ ": " ++ trouble) (failed + 1)
      refine ⟨w', hprocess.bind (hshow.bind ?_), hend⟩
      rw [hp]
      convert hends using 1
      rw [if_pos (by rw [hnone]; rfl)]
      omega

/-! ### What stands in the end -/

section

variable {base : Files} {output path : String} {s : Standing} {place : List String}
  {results : List (String × Option (List UInt8))}

theorem standingAfter_temporary (path : String) (compiled : Option (List UInt8)) :
    standingAfter base output s (path, compiled) (base.slot output (temporaryName path)) = none := by
  cases compiled with
  | none => rw [standingAfter_none, update_self]
  | some bytes => rw [standingAfter_some, update_of_ne (slots_ne path path).symm, update_self]

theorem standingAfter_compiled (path : String) (compiled : Option (List UInt8)) :
    standingAfter base output s (path, compiled) (base.slot output (compiledName path)) =
      (compiled.map some).or (s (base.slot output (compiledName path))) := by
  cases compiled with
  | none => rw [standingAfter_none, update_of_ne (slots_ne path path)]; rfl
  | some bytes => rw [standingAfter_some, update_self]; rfl

theorem standingAfter_of_ne (hcompiled : place ≠ base.slot output (compiledName path))
    (htemporary : place ≠ base.slot output (temporaryName path)) (compiled : Option (List UInt8)) :
    standingAfter base output s (path, compiled) place = s place := by
  cases compiled with
  | none => rw [standingAfter_none, update_of_ne htemporary]
  | some bytes => rw [standingAfter_some, update_of_ne hcompiled, update_of_ne htemporary]

theorem standingAfter_all_temporary (h : path ∈ results.map (·.1)) :
    results.foldl (standingAfter base output) s (base.slot output (temporaryName path)) = none := by
  induction results using List.reverseRecOn with
  | nil => simp at h
  | append_singleton rest r ih =>
    obtain ⟨last, compiled⟩ := r
    rw [foldl_append, foldl_cons, foldl_nil]
    by_cases heq : temporaryName path = temporaryName last
    · rw [heq, standingAfter_temporary]
    · have hrest : path ∈ rest.map (·.1) := by
        rw [map_append, mem_append] at h
        refine h.resolve_right fun hlast => heq ?_
        rw [mem_singleton.mp hlast]
      rw [standingAfter_of_ne (slots_ne last path).symm fun hslot => heq (Files.slot_inj.mp hslot)]
      exact ih hrest

theorem standingAfter_all_compiled (results : List (String × Option (List UInt8))) (path : String) :
    results.foldl (standingAfter base output) s (base.slot output (compiledName path)) =
      ((results.filterMap fun r => if compiledName r.1 = compiledName path then r.2
        else none).getLast?.map some).or (s (base.slot output (compiledName path))) := by
  induction results using List.reverseRecOn with
  | nil => simp
  | append_singleton rest r ih =>
    obtain ⟨last, compiled⟩ := r
    rw [foldl_append, foldl_cons, foldl_nil]
    by_cases heq : compiledName last = compiledName path
    · rw [← heq, standingAfter_compiled, heq, ih]
      cases compiled with
      | none => simp
      | some bytes => simp [heq]
    · rw [standingAfter_of_ne (fun hslot => heq (Files.slot_inj.mp hslot).symm) (slots_ne path last),
        ih]
      simp [heq]

theorem standingAfter_all_of_ne
    (h : ∀ path ∈ results.map (·.1), place ≠ base.slot output (compiledName path) ∧
      place ≠ base.slot output (temporaryName path)) :
    results.foldl (standingAfter base output) s place = s place := by
  induction results using List.reverseRecOn with
  | nil => rfl
  | append_singleton rest r ih =>
    obtain ⟨last, compiled⟩ := r
    obtain ⟨hcompiled, htemporary⟩ := h last (by simp)
    rw [foldl_append, foldl_cons, foldl_nil, standingAfter_of_ne hcompiled htemporary]
    refine ih fun path hpath => h path ?_
    rw [map_append, mem_append]
    exact .inl hpath

end

end ApkWorkshop.Tool.Compiler
