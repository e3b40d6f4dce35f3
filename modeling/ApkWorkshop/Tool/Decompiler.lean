import ApkWorkshop.Lua.Escape
import ApkWorkshop.Tool.Route

/-!
# Decompiling

Compiled Lua files are decompiled one by one by an outside program. The escapes in strings that are
assigned in the result are decoded before it is written.
-/

namespace ApkWorkshop.Tool.Decompiler

open Text

def create (file : String) (route : Route) : Job Nat := do
  let id ← Tool.create file (.decompiler route .null .null)
  let unluac ← setting id "unluac" .null
  let java ← setting id "java" .null
  setPart id (.decompiler route unluac java)
  return id

def decoded (text : String) : Except Fault String :=
  match Lua.decodeAssigned text.toList with
  | .ok cs => .ok (String.ofList cs)
  | .error .noByte => .error .noByte
  | .error (.badText fault) => .error (.badText fault)

def process (unluac java : Value) (input output : String) : Job Processed :=
  attempted.orElse fun fault => return ⟨Path.name input, some fault.message⟩
where
  attempted : Job Processed := do
    let outcome ← Job.runChecked [java, .text "-jar", unluac, .text input] (some 30)
    Job.makeFolders (Path.folder output)
    let text ← Job.attempt (decoded outcome.output)
    Job.writeText output text
    return ⟨Path.name input, none⟩

/-- The path of the decompiled file: every ending of compiled files in it is changed. -/
def outputPath (output relative : String) : String :=
  Path.join output (replaceAll relative ".lu" ".lua")

def task (home : List String) (input output path : String) : String × String :=
  (path, outputPath output (Path.relative home path input))

def decompile (id : Nat) (route : Route) (unluac java : Value) : Job Unit :=
  attempted.orElse fun fault => say id ("❌ Decompilation error: " ++ fault.message)
where
  attempted : Job Unit := do
    let (input, output) ← routeFolders id route
    say id ("🔓 Starting LU decompilation from " ++ Path.name input ++ "...")
    if !(← Job.standsAt input) then
      say id ("❌ Input directory not found: " ++ input)
      return
    let paths := filesEnding (← Job.files) ".lu" input
    if paths.isEmpty then
      say id "❌ No .lu files found"
      return
    say id ("📁 Files to process: " ++ decimal paths.length)
    Job.makeFolders output
    let tasks := paths.map (task (← Job.files).home input output)
    runBatch id (showProgress id) (process unluac java) tasks "Decompilation" "Decompiled"

def run (id : Nat) : Job Unit := do
  match (← byNumber id).part with
  | .decompiler route unluac java =>
    if !unluac.isGiven then throw (.notConfigured "Unluac path not configured")
    if !java.isGiven then throw (.notConfigured "Java path not configured")
    Job.inBackground (decompile id route unluac java)
  | _ => pure ()

end ApkWorkshop.Tool.Decompiler
