import ApkWorkshop.Proofs.CompiledFiles

/-!
# Runs of the Compiler

A run compiles all Lua files below the input folder. It ends well whatever the processes do
(`ends_compile`).
-/

namespace ApkWorkshop.Tool.Compiler

open Text List ApkWorkshop.Path World

variable {files : Files} {input path output : String} {w : World} {id : Nat}

/-- The files that a run compiles: none if the output folder cannot be made. -/
def processed (files : Files) (input output : String) : List String :=
  if (files.makeFolders output).2.isNone then luaFiles files input else []

/-- A tool that is ready to compile: its listeners do not fail, no folder is in the way of a compiled
file, and each process writes to its own file only. An output folder that is made can be used, which
has to be asked only if its path ends with no plain name: what a path like `a/.` says of a file `a` is
that all folders above are made. -/
structure Prepared (w : World) (id : Nat) (input output : String) : Prop where
  folders : Job.Yields (folders id) w (.ok (input, output))
  log : (w.tool id).log.TakesAll
  progress : (w.tool id).progress.TakesAll
  proper : w.files.root.Proper
  usable : ¬ PlainName (name output) → (w.files.makeFolders output).2 = none →
    (w.files.makeFolders output).1.isFolder output
  compiled : ∀ path ∈ processed w.files input output,
    (w.files.makeFolders output).1.isFolder (targetPath output path) = false
  temporary : ∀ path ∈ processed w.files input output,
    (w.files.makeFolders output).1.isFolder (targetPath output path ++ ".tmp") = false
  outcomes : ∀ o ∈ w.outside.outcomes, o.OnlyOutput

def report (compiled : List (String × Option (List UInt8))) : String :=
  "Compiled " ++ decimal (compiled.countP (·.2.isSome)) ++ "/" ++ decimal compiled.length ++ " files"

theorem report_eq (luac : Value) (outcomes : List Outcome) (paths : List String) :
    report (compiledBy luac outcomes paths) = "Compiled " ++ (decimal (paths.length -
      (compiledBy luac outcomes paths).countP (·.2.isNone)) ++ "/" ++ decimal paths.length) ++
      " files" := by
  have hlength := congrArg List.length (map_compiledBy luac outcomes paths)
  rw [length_map] at hlength
  have hcount := length_eq_countP_add_countP (p := fun r => r.2.isSome)
    (l := compiledBy luac outcomes paths)
  have hnot : (compiledBy luac outcomes paths).countP (fun r => decide (¬ r.2.isSome = true)) =
      (compiledBy luac outcomes paths).countP (·.2.isNone) := by
    refine countP_congr fun r _ => ?_
    simp
  have hsome : (compiledBy luac outcomes paths).countP (·.2.isSome) =
      paths.length - (compiledBy luac outcomes paths).countP (·.2.isNone) := by omega
  rw [report, hsome, hlength]
  simp only [String.append_assoc]

/-- How a run ends: either no file is processed, and no file has changed, or the processes have run
one after the other. -/
def Finished (id : Nat) (luac : Value) (input output : String) (w w' : World) : Prop :=
  (processed w.files input output = [] ∧ w'.tools = w.tools ∧
    ∀ place, w'.files.contentAt place = w.files.contentAt place) ∨
  ∃ s, (∀ place, (s place).join = w.files.contentAt place) ∧
    Bench w.files output ((compiledBy luac w.outside.outcomes
      (processed w.files input output)).foldl (standingAfter w.files output) s) w'.files ∧
    (w'.tool id).report = report (compiledBy luac w.outside.outcomes
      (processed w.files input output))

theorem exists_luaFiles_eq (h : files.root.Proper) (input : String) :
    ∃ places, FilePlaces places ∧ luaFiles files input = places.map (joinAll input) :=
  files.exists_chosen_places h (fun name => !isExcluded name) input
    fun entry => !isExcluded entry.2 && endsLike ".lua" entry.2

theorem properName_of_mem_luaFiles (h : files.root.Proper) (hpath : path ∈ luaFiles files input) :
    ProperName (name path) := by
  obtain ⟨places, hplaces, hpaths⟩ := exists_luaFiles_eq h input
  rw [hpaths] at hpath
  obtain ⟨place, hplace, rfl⟩ := mem_map.mp hpath
  obtain ⟨above, name, rfl⟩ :=
    eq_nil_or_concat' place |>.resolve_left (hplaces.ne_nil place hplace)
  have hname : ProperName name := hplaces.proper _ hplace name (by simp)
  rw [joinAll_concat, name_entry _ hname.plainName]
  exact hname

theorem luaFiles_of_not_exists (h : files.exists? input = false) : luaFiles files input = [] := by
  have hwalk : files.walk (fun name => !isExcluded name) input = [] := by
    rw [Files.walk]
    rw [Files.exists?] at h
    cases hspot : files.locate input with
    | found place node => simp [hspot] at h
    | _ => rfl
  rw [luaFiles, hwalk]
  rfl

theorem Prepared.lt_length (h : Prepared w id input output) : id < w.tools.length := by
  by_contra hlt
  have hpart : (w.tool id).part = .unpackCar := by
    rw [tool, getElem?_eq_none (by omega)]
    rfl
  have hends : Ends (Compiler.folders id) w (input, output) w := h.folders
  obtain ⟨tool, w', hnumber, hrest⟩ := ends_bind.mp hends
  obtain ⟨rfl, rfl⟩ := hnumber.unique (ends_byNumber w id)
  rw [hpart] at hrest
  exact not_ends_throw hrest

theorem Prepared.bench (h : Prepared w id input output)
    (hmade : (w.files.makeFolders output).2 = none) :
    Bench w.files output (w.files.makeFolders output).1.standing (w.files.makeFolders output).1 where
  home := (Files.Spares.makeFolders w.files output).home
  proper := Files.proper_makeFolders h.proper output
  folder := by
    by_cases hname : PlainName (name output)
    · exact Files.isFolder_makeFolders hname hmade
    · exact h.usable hname hmade
  standing := rfl

theorem Prepared.free (h : Prepared w id input output)
    (hmade : (w.files.makeFolders output).2 = none) (hpath : path ∈ luaFiles w.files input) :
    Free w.files output (w.files.makeFolders output).1.standing path := by
  have hname := properName_of_mem_luaFiles h.proper hpath
  have hprocessed : path ∈ processed w.files input output := by
    rw [processed, hmade]
    exact hpath
  have hbench := h.bench hmade
  refine ⟨hname, fun hs => ?_, fun hs => ?_⟩
  · have hfolder := (hbench.isFolder_entry (properName_compiledName hname)).mpr hs
    rw [← targetPath_eq, h.compiled path hprocessed] at hfolder
    cases hfolder
  · have hfolder := (hbench.isFolder_entry (properName_temporaryName hname)).mpr hs
    rw [← temporary_eq output hname, h.temporary path hprocessed] at hfolder
    cases hfolder

theorem ends_summarize (hlog : (w.tool id).log.TakesAll) (hid : id < w.tools.length)
    (total failed : Nat) :
    ∃ w', Ends (summarize id total failed) w () w' ∧ w'.files = w.files ∧ (w'.tool id).report =
      "Compiled " ++ (decimal (total - failed) ++ "/" ++ decimal total) ++ " files" := by
  obtain ⟨w₁, hsay₁, htold₁⟩ := ends_say hlog ("✅ Compilation completed: " ++
    (decimal (total - failed) ++ "/" ++ decimal total) ++ " successful")
  have hconclude : ∀ {v} report, Told w v → ∃ w', Ends (conclude id report) v () w' ∧
      w'.files = w.files ∧ (w'.tool id).report = report := by
    intro v report htold
    refine ⟨_, ends_modify.mpr rfl, htold.files, ?_⟩
    rw [tool, getElem?_modify, htold.tools, getElem?_eq_getElem hid]
    simp
  by_cases hfailed : failed > 0
  · obtain ⟨w₂, hsay₂, htold₂⟩ := ends_say (htold₁.takesAll hlog)
      ("❌ Failed files: " ++ decimal failed)
    obtain ⟨w', hends, hend⟩ := hconclude _ (htold₁.trans htold₂)
    refine ⟨w', hsay₁.bind ?_, hend⟩
    rw [if_pos hfailed]
    exact hsay₂.bind hends
  · obtain ⟨w', hends, hend⟩ := hconclude _ htold₁
    refine ⟨w', hsay₁.bind ?_, hend⟩
    rw [if_neg hfailed]
    exact hends

/-- **What is left to do** once the output folder is made. -/
theorem Prepared.ends_made (h : Prepared w id input output) (luac : Value) {w₂ : World}
    (htold : Told w w₂) (hmade : (w.files.makeFolders output).2 = none) :
    ∃ w', Ends (compileFiles id luac output (luaFiles w.files input).length 0 0
        (luaFiles w.files input) >>= summarize id (luaFiles w.files input).length)
      { w₂ with files := (w.files.makeFolders output).1 } () w' ∧
      Finished id luac input output w w' := by
  have hprocessed : processed w.files input output = luaFiles w.files input := by
    rw [processed, hmade]
    rfl
  have hspares := Files.Spares.makeFolders w.files output
  have hbench := h.bench hmade
  have hfree : ∀ path ∈ luaFiles w.files input, Free w.files output _ path := fun _ => h.free hmade
  -- what the making of folders has come to is not looked into
  generalize w.files.makeFolders output = made at hspares hbench hfree ⊢
  obtain ⟨files, fault⟩ := made
  have htool : tool { w₂ with files } id = w.tool id := htold.tool id
  have houtside : w₂.outside.outcomes = w.outside.outcomes := by rw [htold.outside]
  obtain ⟨w₃, hcompile, htools, hbench'⟩ := @ends_compileFiles output w.files _ id
    { w₂ with files } (by rw [htool]; exact h.log) (by rw [htool]; exact h.progress) luac
    (luaFiles w.files input).length _ hbench hfree (fun o ho => h.outcomes o (houtside ▸ ho)) 0 0
  have htools₃ : w₃.tools = w.tools := htools.trans htold.tools
  have htool₃ : w₃.tool id = w.tool id := by rw [tool, tool, htools₃]
  rw [houtside] at hcompile hbench'
  obtain ⟨w₄, hsummary, hfiles, hreport⟩ := @ends_summarize w₃ id (by rw [htool₃]; exact h.log)
    (by rw [htools₃]; exact h.lt_length) (luaFiles w.files input).length
    (0 + (compiledBy luac w.outside.outcomes (luaFiles w.files input)).countP (·.2.isNone))
  refine ⟨w₄, hcompile.bind hsummary, .inr ⟨files.standing, fun place => ?_, ?_, ?_⟩⟩
  · exact (files.contentAt_eq_standing place).symm.trans (hspares.contentAt place not_false)
  · rw [hprocessed, hfiles]
    exact hbench'
  · rw [hreport, hprocessed, Nat.zero_add, report_eq]

theorem leaves_compile_attempted (h : Prepared w id input output) (luac : Value) :
    Leaves (compile.attempted id luac) w fun r w' =>
      (r = .ok () → Finished id luac input output w w') ∧
      ∀ e, r = .error e → processed w.files input output = [] ∧ w'.tools = w.tools ∧
        ∀ place, w'.files.contentAt place = w.files.contentAt place := by
  have hfolders : Ends (folders id) w (input, output) w := h.folders
  rw [compile.attempted]
  refine hfolders.leaves_bind ?_
  refine leaves_say_bind h.log fun w₁ htold₁ => ?_
  have hstands := Job.ends_standsAt w₁ input
  rw [htold₁.files] at hstands
  refine hstands.leaves_bind ?_
  -- as long as no folder is made, nothing has changed but the log
  have hnothing : ∀ {w'}, Told w w' → luaFiles w.files input = [] →
      Finished id luac input output w w' := by
    intro w' htold hempty
    refine .inl ⟨?_, htold.tools, fun place => by rw [htold.files]⟩
    rw [processed, hempty, ite_self]
  cases hexists : w.files.exists? input with
  | false =>
    refine leaves_say_bind (htold₁.takesAll h.log) fun w₂ htold₂ => ?_
    refine leaves_pure ⟨fun _ => ?_, by simp⟩
    exact hnothing (htold₁.trans htold₂) (luaFiles_of_not_exists hexists)
  | true =>
    refine Job.leaves_files_bind ?_
    rw [htold₁.files]
    by_cases hempty : luaFiles w.files input = []
    · rw [hempty]
      refine leaves_say_bind (htold₁.takesAll h.log) fun w₂ htold₂ => ?_
      refine leaves_pure ⟨fun _ => ?_, by simp⟩
      exact hnothing (htold₁.trans htold₂) hempty
    · rw [if_neg (by simpa using hempty)]
      refine leaves_say_bind (htold₁.takesAll h.log) fun w₂ htold₂ => ?_
      have htold := htold₁.trans htold₂
      refine Job.leaves_makeFolders_bind (fun hmade => ?_) fun fault hfault => ?_
      · rw [htold.files] at hmade ⊢
        obtain ⟨w', hends, hfinished⟩ := h.ends_made luac htold hmade
        exact hends.leaves ⟨fun _ => hfinished, by simp⟩
      · rw [htold.files] at hfault ⊢
        have hnone : processed w.files input output = [] := by
          rw [processed, hfault]
          rfl
        have hspares := Files.Spares.makeFolders w.files output
        dsimp only
        exact ⟨by simp, fun e he => ⟨hnone, htold.tools, fun place => hspares.contentAt place not_false⟩⟩

/-- **A whole run** ends well: a fault only says why no file is processed. -/
theorem ends_compile (h : Prepared w id input output) (luac : Value) :
    ∃ w', Ends (compile id luac) w () w' ∧ Finished id luac input output w w' := by
  have hleaves : Leaves (compile id luac) w fun r w' =>
      ∃ a, r = .ok a ∧ Finished id luac input output w w' := by
    refine Job.leaves_orElse (leaves_compile_attempted h luac) (fun _ w' hend => ?_)
      fun e w' hend => ?_
    · exact ⟨(), rfl, hend.1 rfl⟩
    · obtain ⟨hnone, htools, hcontents⟩ := hend.2 e rfl
      have htool : w'.tool id = w.tool id := by rw [tool, tool, htools]
      refine leaves_say (by rw [htool]; exact h.log) fun w'' htold =>
        ⟨(), rfl, .inl ⟨hnone, htold.tools.trans htools, fun place => ?_⟩⟩
      rw [htold.files]
      exact hcontents place
  obtain ⟨_, w', hends, hfinished⟩ := hleaves.exists_ends
  exact ⟨w', hends, hfinished⟩

/-! ### Outputs -/

/-- What was compiled last for an output. -/
def lastOutput (output : String) (results : List (String × Option (List UInt8))) (target : String) :
    Option (List UInt8) :=
  (results.filterMap fun r => if targetPath output r.1 = target then r.2 else none).getLast?

section

variable {w : World} {id : Nat} {input output path : String}

theorem properName_of_mem_processed (h : w.files.root.Proper)
    (hpath : path ∈ processed w.files input output) : ProperName (name path) := by
  rw [processed] at hpath
  split at hpath
  · exact properName_of_mem_luaFiles h hpath
  · cases hpath

theorem wayTo_targetPath (files : Files) (h : ProperName (name path)) :
    files.wayTo (targetPath output path) = files.slot output (compiledName path) :=
  files.wayTo_entry output (properName_compiledName h).plainName

theorem wayTo_temporary (files : Files) (h : ProperName (name path)) :
    files.wayTo (targetPath output path ++ ".tmp") = files.slot output (temporaryName path) := by
  rw [temporary_eq output h]
  exact files.wayTo_entry output (properName_temporaryName h).plainName

theorem contentAt_compiled {files files' : Files} {s : Standing}
    {results : List (String × Option (List UInt8))}
    (hs : ∀ place, (s place).join = files.contentAt place)
    (hbench : Bench files output (results.foldl (standingAfter files output) s) files')
    (hresults : ∀ other ∈ results.map (·.1), ProperName (name other))
    (hpath : ProperName (name path)) :
    files'.contentAt (files.wayTo (targetPath output path)) =
      (lastOutput output results (targetPath output path)).or
        (files.contentAt (files.wayTo (targetPath output path))) := by
  have hsame : (results.filterMap fun r =>
        if targetPath output r.1 = targetPath output path then r.2 else none) =
      results.filterMap fun r => if compiledName r.1 = compiledName path then r.2 else none := by
    refine filterMap_congr fun r hr => ?_
    simp only [targetPath_inj (hresults r.1 (mem_map_of_mem hr)) hpath]
  rw [lastOutput, hsame, ← hs, wayTo_targetPath files hpath, Files.contentAt_eq_standing,
    hbench.standing, standingAfter_all_compiled]
  cases (results.filterMap fun r =>
    if compiledName r.1 = compiledName path then r.2 else none).getLast? <;> rfl

/-- **A run leaves whole outputs**: no temporary file of it is left, each compiled file is the last one
that a process wrote there without fault, or what was there before, every other file is as it was, and
the report counts the files that were compiled. -/
theorem compile_leaves_outputs_whole (h : Prepared w id input output) (luac : Value) :
    ∃ w', Ends (compile id luac) w () w' ∧ (∀ path ∈ processed w.files input output,
        w'.files.exists? (targetPath output path ++ ".tmp") = false ∧
        w'.files.contentAt (w.files.wayTo (targetPath output path)) =
          (lastOutput output (compiledBy luac w.outside.outcomes (processed w.files input output))
            (targetPath output path)).or
          (w.files.contentAt (w.files.wayTo (targetPath output path)))) ∧
      (∀ place, (∀ path ∈ processed w.files input output,
          place ≠ w.files.wayTo (targetPath output path) ∧
          place ≠ w.files.wayTo (targetPath output path ++ ".tmp")) →
        w'.files.contentAt place = w.files.contentAt place) ∧
      (processed w.files input output ≠ [] → (w'.tool id).report =
        report (compiledBy luac w.outside.outcomes (processed w.files input output))) := by
  obtain ⟨w', hends, hfinished⟩ := ends_compile h luac
  refine ⟨w', hends, ?_⟩
  rcases hfinished with ⟨hnone, -, hcontents⟩ | ⟨s, hs, hbench, hreport⟩
  · rw [hnone]
    exact ⟨by simp, fun place _ => hcontents place, by simp⟩
  · have hpaths := map_compiledBy luac w.outside.outcomes (processed w.files input output)
    have hnames : ∀ path ∈ processed w.files input output, ProperName (Path.name path) :=
      fun path => properName_of_mem_processed h.proper
    refine ⟨fun path hpath => ⟨?_, ?_⟩, fun place hplace => ?_, fun _ => hreport⟩
    · rw [temporary_eq output (hnames path hpath),
        hbench.exists?_entry (properName_temporaryName (hnames path hpath)),
        standingAfter_all_temporary (by rwa [hpaths])]
      rfl
    · exact contentAt_compiled hs hbench (by rwa [hpaths]) (hnames path hpath)
    · rw [Files.contentAt_eq_standing, hbench.standing, standingAfter_all_of_ne, hs]
      intro path hpath
      rw [hpaths] at hpath
      obtain ⟨hcompiled, htemporary⟩ := hplace path hpath
      rw [wayTo_targetPath w.files (hnames path hpath)] at hcompiled
      rw [wayTo_temporary w.files (hnames path hpath)] at htemporary
      exact ⟨hcompiled, htemporary⟩

end

/-- Three files, of which one is compiled, one has a process that fails after it has written its
output, and one finds no program. In the output folder are old files and a temporary one. -/
def mixedRun : World where
  files := ⟨.folder (.cons "lu" (.folder (.cons "a.lu" (.file [0]) (.cons "b.lu" (.file [7])
      (.cons "b.lu.tmp" (.file [8]) (.cons "keep" (.file [5]) .nil)))))
    (.cons "lua" (.folder (.cons "a.lua" (.file []) (.cons "b.lua" (.file [])
      (.cons "sub" (.folder (.cons "a.LUA" (.file []) .nil)) .nil)))) .nil)), []⟩
  outside := { outcomes := [{ made := [(.word 2, some [1])] },
    { code := 1, made := [(.word (-2), some [9])] }, { refusal := some .missing }] }
  tools := [{
    settings := 0
    part := .compiler (some .inputToOutput) (.text "luac")
    paths := [("input", "lua"), ("output", "lu")] }]

theorem prepared_mixedRun : Prepared mixedRun 0 "lua" "lu" where
  folders := rfl
  log := trivial
  progress := trivial
  proper := Node.proper_of_isProper (by decide)
  usable := fun _ _ => by decide +kernel
  compiled := by decide +kernel
  temporary := by decide +kernel
  outcomes := by decide +kernel

/-- One file is compiled; the output of the file that failed is what it was before. -/
theorem compile_leaves_outputs_whole_mixedRun : Prepared mixedRun 0 "lua" "lu" ∧
    ∃ w', Ends (compile 0 (.text "luac")) mixedRun () w' ∧
      w'.files.contentAt ["lu", "a.lu"] = some [1] ∧ w'.files.contentAt ["lu", "b.lu"] = some [7] ∧
      w'.files.exists? "lu/b.lu.tmp" = false ∧ w'.files.contentAt ["lu", "keep"] = some [5] ∧
      (w'.tool 0).report = "Compiled 1/3 files" := by
  have hpaths : processed mixedRun.files "lua" "lu" = ["lua/a.lua", "lua/b.lua", "lua/sub/a.LUA"] := by
    decide +kernel
  obtain ⟨w', hends, houtputs, hothers, hreport⟩ :=
    compile_leaves_outputs_whole prepared_mixedRun (.text "luac")
  rw [hpaths] at houtputs hothers hreport
  refine ⟨prepared_mixedRun, w', hends, ?_, ?_, ?_, ?_, ?_⟩
  · exact (houtputs "lua/a.lua" (by simp)).2.trans (by decide +kernel)
  · exact (houtputs "lua/b.lua" (by simp)).2.trans (by decide +kernel)
  · exact (houtputs "lua/b.lua" (by simp)).1
  · exact (hothers ["lu", "keep"] (by decide +kernel)).trans (by decide +kernel)
  · exact (hreport (by simp)).trans (by decide +kernel)

/-! ### Files with one name -/

theorem nodup_processed (h : files.root.Proper) (input output : String) :
    (processed files input output).Nodup := by
  rw [processed]
  split
  · obtain ⟨places, hplaces, hpaths⟩ := exists_luaFiles_eq h input
    rw [hpaths]
    exact hplaces.nodup_joinAll files input
  · exact nodup_nil

theorem isSome_lastOutput {results : List (String × Option (List UInt8))}
    (hall : ∀ r ∈ results, r.2.isSome) (hpath : path ∈ results.map (·.1)) :
    (lastOutput output results (targetPath output path)).isSome := by
  obtain ⟨r, hr, rfl⟩ := mem_map.mp hpath
  obtain ⟨bytes, hbytes⟩ := Option.isSome_iff_exists.mp (hall r hr)
  have hmem : bytes ∈ results.filterMap fun other =>
      if targetPath output other.1 = targetPath output r.1 then other.2 else none :=
    mem_filterMap.mpr ⟨r, hr, by rw [if_pos rfl, hbytes]⟩
  rw [lastOutput, getLast?_isSome]
  exact ne_nil_of_mem hmem

theorem length_dedup_targets (files : Files) (output : String) {paths : List String}
    (hnames : ∀ path ∈ paths, ProperName (name path)) :
    (paths.map fun path => files.wayTo (targetPath output path)).dedup.length =
      (paths.map baseName).dedup.length := by
  have hmap : (paths.map fun path => files.wayTo (targetPath output path)) =
      (paths.map baseName).map fun base => files.slot output (base ++ ".lu") := by
    rw [map_map]
    exact map_congr_left fun path hpath => wayTo_targetPath files (hnames path hpath)
  have hinj : Function.Injective fun base => files.slot output (base ++ ".lu") :=
    fun a b hab => (String.append_left_inj ".lu").mp (Files.slot_inj.mp hab)
  rw [hmap, dedup_map_of_injective hinj, length_map]

/-- **Files are told apart by their names in front of the ending**, not by their folders. If every
process succeeds, each compiled file is that of the last source with its name. There are as many
compiled files as such names, which is as many as reported only if all names differ. -/
theorem compiled_files_by_base_name {w : World} {id : Nat} {input output : String}
    (h : Prepared w id input output) (luac : Value)
    (hall : ∀ r ∈ compiledBy luac w.outside.outcomes (processed w.files input output), r.2.isSome) :
    (processed w.files input output).Nodup ∧ ∃ w', Ends (compile id luac) w () w' ∧
      (processed w.files input output ≠ [] → (w'.tool id).report =
        "Compiled " ++ decimal (processed w.files input output).length ++ "/" ++
          decimal (processed w.files input output).length ++ " files") ∧
      (∀ path ∈ processed w.files input output, ∃ bytes,
        lastOutput output (compiledBy luac w.outside.outcomes (processed w.files input output))
          (targetPath output path) = some bytes ∧
        w'.files.contentAt (w.files.wayTo (targetPath output path)) = some bytes) ∧
      ((processed w.files input output).map fun path =>
          w.files.wayTo (targetPath output path)).dedup.length =
        ((processed w.files input output).map baseName).dedup.length ∧
      (((processed w.files input output).map fun path =>
          w.files.wayTo (targetPath output path)).dedup.length =
            (processed w.files input output).length ↔
        ((processed w.files input output).map baseName).Nodup) := by
  have hnames : ∀ path ∈ processed w.files input output, ProperName (Path.name path) :=
    fun path => properName_of_mem_processed h.proper
  have hpaths := map_compiledBy luac w.outside.outcomes (processed w.files input output)
  have hlength := congrArg List.length hpaths
  rw [length_map] at hlength
  have hplaces := length_dedup_targets w.files output hnames
  have hcount : ((processed w.files input output).map fun path =>
        w.files.wayTo (targetPath output path)).dedup.length =
          (processed w.files input output).length ↔
      ((processed w.files input output).map baseName).Nodup := by
    rw [hplaces, ← dedup_eq_self, ← (dedup_sublist _).length_eq, length_map]
  refine ⟨nodup_processed h.proper input output, ?_⟩
  obtain ⟨w', hends, hfinished⟩ := ends_compile h luac
  rcases hfinished with ⟨hnone, -⟩ | ⟨s, hs, hbench, hreport⟩
  · refine ⟨w', hends, fun hne => absurd hnone hne, fun path hpath => ?_, hplaces, hcount⟩
    rw [hnone] at hpath
    cases hpath
  · refine ⟨w', hends, fun _ => ?_, fun path hpath => ?_, hplaces, hcount⟩
    · rw [hreport, report, countP_eq_length.mpr hall, hlength]
    · obtain ⟨bytes, hbytes⟩ := Option.isSome_iff_exists.mp
        (isSome_lastOutput hall (by rwa [hpaths] : path ∈ _))
      refine ⟨bytes, hbytes, ?_⟩
      rw [contentAt_compiled hs hbench (by rwa [hpaths]) (hnames path hpath), hbytes]
      rfl

/-- Two Lua files with one name in different folders, and processes that both succeed. -/
def twins : World where
  files := ⟨.folder (.cons "lua" (.folder (.cons "a" (.folder (.cons "x.lua" (.file []) .nil))
    (.cons "b" (.folder (.cons "x.lua" (.file []) .nil)) .nil))) .nil), []⟩
  outside := { outcomes := [{ made := [(.word 2, some [1])] }, { made := [(.word 2, some [2])] }] }
  tools := [{
    settings := 0
    part := .compiler (some .inputToOutput) (.text "luac")
    paths := [("input", "lua"), ("output", "lu")] }]

theorem prepared_twins : Prepared twins 0 "lua" "lu" where
  folders := rfl
  log := trivial
  progress := trivial
  proper := Node.proper_of_isProper (by decide)
  usable := fun _ _ => by decide +kernel
  compiled := by decide +kernel
  temporary := by decide +kernel
  outcomes := by decide +kernel

/-- Two files are compiled, and one output is left: that of the second. -/
theorem compiled_files_by_base_name_twins : Prepared twins 0 "lua" "lu" ∧
    (processed twins.files "lua" "lu").length = 2 ∧
    ((processed twins.files "lua" "lu").map fun path =>
      twins.files.wayTo (targetPath "lu" path)).dedup.length = 1 ∧
    ∃ w', Ends (compile 0 (.text "luac")) twins () w' ∧
      w'.files.contentAt ["lu", "x.lu"] = some [2] := by
  have hpaths : processed twins.files "lua" "lu" = ["lua/a/x.lua", "lua/b/x.lua"] := by
    decide +kernel
  obtain ⟨-, w', hends, -, hcontents, hplaces, -⟩ :=
    compiled_files_by_base_name prepared_twins (.text "luac") (by decide +kernel)
  refine ⟨prepared_twins, by rw [hpaths]; rfl, hplaces.trans (by decide +kernel), w', hends, ?_⟩
  obtain ⟨bytes, hlast, hcontent⟩ := hcontents "lua/a/x.lua" (by rw [hpaths]; simp)
  have hbytes : some [2] = some bytes := Eq.trans (by decide +kernel) hlast
  exact hcontent.trans hbytes.symm

/-- **A compiled file is lost**: both processes succeed, and the report says so, but there is one
compiled file only. -/
theorem compiled_file_is_lost : ∃ w', Ends (compile 0 (.text "luac")) twins () w' ∧
    (w'.tool 0).report = "Compiled 2/2 files" ∧ filesEnding w'.files ".lu" "lu" = ["lu/x.lu"] :=
  ⟨_, Job.ends_of_doneIn (by decide +kernel), by decide +kernel, by decide +kernel⟩

end ApkWorkshop.Tool.Compiler
