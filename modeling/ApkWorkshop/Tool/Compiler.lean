import ApkWorkshop.Tool.Route

/-!
# Compiling

Lua files are compiled one by one by an outside program. Each is compiled to a temporary file, which
then takes the place of the old one. Files and folders whose names start with an exclamation mark
are left out.
-/

namespace ApkWorkshop.Tool.Compiler

open Text

def create (file : String) (route : Option Route) : Job Nat := do
  let id ← Tool.create file (.compiler route .null)
  setPart id (.compiler route (← setting id "luac" .null))
  return id

/-- The folder the tool reads from and the one it writes to. The general tool has none. -/
def folders (id : Nat) : Job (String × String) := do
  match (← byNumber id).part with
  | .compiler (some route) _ => routeFolders id route
  | _ => throw (.leftOpen "Subclasses must implement get_input_output_paths")

def isExcluded (name : String) : Bool :=
  Path.startsWith name "!"

def luaFiles (files : Files) (path : String) : List String :=
  ((files.walk (fun name => !isExcluded name) path).filter fun (_, name) =>
    !isExcluded name && endsLike ".lua" name).map fun (folder, name) => Path.join folder name

def clear (path : String) : Job Unit := do
  if ← Job.standsAt path then Job.onFiles (·.removeFile path)

def discard (path : String) : Job Unit :=
  (clear path).orElse fun _ => pure ()

/-- The path of a compiled file: the name of the Lua file with another ending, in the output
folder. -/
def targetPath (output path : String) : String :=
  Path.join output (Path.withoutEnding (Path.name path) ++ ".lu")

def failure (name : String) (fault : Fault) : Processed :=
  match fault with
  | .processFailed _ _ errors => ⟨name, some (if errors ≠ "" then strip errors else fault.message)⟩
  | fault => ⟨name, some fault.message⟩

def process (luac : Value) (input output : String) : Job Processed := do
  let name := Path.name input
  let target := targetPath output input
  let temporary := target ++ ".tmp"
  let outcome ← (attempted name target temporary).orElse fun fault => return failure name fault
  discard temporary
  return outcome
where
  /-- The attempt itself. -/
  attempted (name target temporary : String) : Job Processed := do
    clear temporary
    let outcome ← Job.runChecked [luac, .text "-o", .text temporary, .text input] none
    if ← Job.standsAt temporary then
      clear target
      Job.onFiles (·.move temporary target)
      return ⟨name, none⟩
    else
      return ⟨name, some (if outcome.errors ≠ "" then strip outcome.errors
        else "Compilation failed - no output file created")⟩

def compileFiles (id : Nat) (luac : Value) (output : String) (total : Nat) :
    Nat → Nat → List String → Job Nat
  | _, failed, [] => return failed
  | done, failed, path :: rest => do
    let outcome ← process luac path output
    showProgress id (percent (done + 1) total)
    match outcome.trouble with
    | none =>
      say id ("✅ Compiled: " ++ outcome.file)
      compileFiles id luac output total (done + 1) failed rest
    | some trouble =>
      say id ("❌ " ++ outcome.file ++ ": " ++ trouble)
      compileFiles id luac output total (done + 1) (failed + 1) rest

def summarize (id total failed : Nat) : Job Unit := do
  let score := decimal (total - failed) ++ "/" ++ decimal total
  say id ("✅ Compilation completed: " ++ score ++ " successful")
  if failed > 0 then say id ("❌ Failed files: " ++ decimal failed)
  conclude id ("Compiled " ++ score ++ " files")

def compile (id : Nat) (luac : Value) : Job Unit :=
  attempted.orElse fun fault => say id ("❌ Compilation error: " ++ fault.message)
where
  attempted : Job Unit := do
    let (input, output) ← folders id
    say id ("🔧 Starting LUA compilation from " ++ Path.name input ++ "...")
    if !(← Job.standsAt input) then
      say id ("❌ Input directory not found: " ++ input)
      return
    let paths := luaFiles (← Job.files) input
    if paths.isEmpty then
      say id "❌ No .lua files found"
      return
    let total := paths.length
    say id ("📁 Found " ++ decimal total ++ " .lua files")
    Job.makeFolders output
    summarize id total (← compileFiles id luac output total 0 0 paths)

def run (id : Nat) : Job Unit := do
  match (← byNumber id).part with
  | .compiler _ luac => Job.inBackground (compile id luac)
  | _ => pure ()

end ApkWorkshop.Tool.Compiler
