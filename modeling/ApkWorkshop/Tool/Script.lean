import ApkWorkshop.Tool.Route

/-!
# Scripts

The assembler and the disassembler for listings are scripts that are started for one file after the
other.
-/

namespace ApkWorkshop.Tool.Script

open Text

def scriptPath (name : String) : Job Value :=
  return .text (Path.joinAll (← get).programFolder ["scripts", "ASM", name])

def createAssembler (file : String) : Job Nat := do
  let id ← Tool.create file (.assembler .null (.list []))
  setPart id (.assembler (← scriptPath "asm_lu.py") (.list []))
  return id

def createDisassembler (file : String) : Job Nat := do
  let id ← Tool.create file (.disassembler .null (.list []))
  setPart id (.disassembler (← scriptPath "disasm_lu.py") (.list [.text "-c"]))
  return id

def script (id : Nat) : Job (Value × Value) := do
  match (← byNumber id).part with
  | .assembler path arguments | .disassembler path arguments => return (path, arguments)
  | _ => return (.null, .list [])

def change (id : Nat) (f : Value × Value → Value × Value) : Job Unit := do
  match (← byNumber id).part with
  | .assembler path arguments =>
    let (path, arguments) := f (path, arguments)
    setPart id (.assembler path arguments)
  | .disassembler path arguments =>
    let (path, arguments) := f (path, arguments)
    setPart id (.disassembler path arguments)
  | _ => pure ()

def setPath (id : Nat) (path : Value) : Job Unit :=
  change id fun (_, arguments) => (path, arguments)

def setArguments (id : Nat) (arguments : Value) : Job Unit :=
  change id fun (path, _) => (path, arguments)

def start (id : Nat) (input output extra : Value) : Job Bool :=
  attempted.orElse fun fault => do
    say id ("❌ Error running script: " ++ fault.message)
    return false
where
  attempted : Job Bool := do
    let (path, arguments) ← script id
    let found ← if path.isGiven then Job.stands path else pure false
    if !found then
      say id ("❌ Script not found: " ++ path.plain)
      return false
    let usual ← Job.attempt arguments.items
    let further ← if extra.isGiven then Job.attempt extra.items else pure []
    let command := [.text "python", path] ++ usual ++ [input]
      ++ (if output.isGiven then [output] else []) ++ further
    let words ← Job.attempt (Value.textsFrom 0 command)
    say id ("🔄 Running: " ++ joinWith " " words)
    let outcome ← Job.run command none
    if outcome.code = 0 then
      say id "✅ Script executed successfully"
      if outcome.output ≠ "" then say id ("📋 Output: " ++ strip outcome.output)
      return true
    else
      say id ("❌ Script failed with code " ++ decimalInt outcome.code)
      if outcome.errors ≠ "" then say id ("💬 Error: " ++ strip outcome.errors)
      return false

def startOnFile (id : Nat) (input output extra : Value) : Job Bool := do
  if ← Job.stands input then start id input output extra
  else
    say id ("❌ Input file not found: " ++ input.plain)
    return false

def textOr (operation : String) : Value → Except Fault String
  | .text s => .ok s
  | v => .error (.noOperation v.kind operation)

/-- Start the script for files one after the other, and count those that go well. -/
def startOnFiles (id : Nat) (inputFolder outputFolder ending extra : Value) (total : Nat) :
    Nat → Nat → List String → Job Nat
  | _, good, [] => return good
  | done, good, path :: rest => do
    let output ← outputFor path
    let success ← startOnFile id (.text path) output extra
    showProgress id (percent (done + 1) total)
    startOnFiles id inputFolder outputFolder ending extra total (done + 1)
      (if success then good + 1 else good) rest
where
  /-- Where the output for a file goes; its folder is made. -/
  outputFor (path : String) : Job Value := do
    if !outputFolder.isGiven then return .null
    let start ← Job.attempt inputFolder.path
    let relative ← relativePath start path
    let name ← Job.attempt (match ending with
      | .text s => .ok (Path.withoutEnding relative ++ s)
      | v => .error (.notAppended "str" v.kind))
    let target ← Job.attempt (outputFolder.joinPath (.text name))
    Job.makeFolders (Path.folder target)
    return .text target

/-- The files below a folder that end as the value says. The value is only looked at if there are
files. -/
def filesToProcess (files : Files) (ending : Value) (path : String) :
    Except Fault (List String) :=
  if (files.walk (fun _ => true) path).isEmpty then .ok []
  else do
    let ending ← textOr "lower" ending
    return filesEnding files (lower ending) path

def usualEnding : Value := .text ".lu"

def startOnFolder (id : Nat) (input output : Value) (ending : Value := usualEnding)
    (newEnding extra : Value := .null) : Job Bool :=
  attempted.orElse fun fault => do
    say id ("❌ Error processing directory: " ++ fault.message)
    return false
where
  attempted : Job Bool := do
    if !(← Job.stands input) then
      say id ("❌ Input directory not found: " ++ input.plain)
      return false
    let newEnding := match newEnding with
      | .null => ending
      | v => v
    let path ← Job.attempt input.path
    let paths ← Job.attempt (filesToProcess (← Job.files) ending path)
    if paths.isEmpty then
      say id ("❌ No " ++ ending.plain ++ " files found in " ++ path)
      return false
    let total := paths.length
    say id ("📁 Found " ++ decimal total ++ " " ++ ending.plain ++ " files to process")
    if output.isGiven then
      let target ← Job.attempt output.path
      Job.makeFolders target
    let good ← startOnFiles id input output newEnding extra total 0 0 paths
    say id ("✅ Processing completed: " ++ decimal good ++ "/" ++ decimal total ++ " successful")
    if good < total then say id ("❌ Failed: " ++ decimal (total - good) ++ " files")
    conclude id ("Processed " ++ decimal good ++ "/" ++ decimal total ++ " files")
    return good > 0

def assemble (id : Nat) : Job Unit := do
  let input ← folder id "asm"
  let output ← folder id "output"
  say id "🔧 Starting ASM to LU compilation..."
  if ← startOnFolder id (.text input) (.text output) (.text ".asm") (.text ".lu") .null then
    say id "✅ ASM to LU compilation completed"
  else say id "❌ ASM to LU compilation failed"

def disassemble (id : Nat) : Job Unit := do
  let input ← folder id "input"
  let output ← folder id "asm"
  say id "🔧 Starting LU to ASM disassembly..."
  if ← startOnFolder id (.text input) (.text output) (.text ".lu") (.text ".asm") .null then
    say id "✅ LU to ASM disassembly completed"
  else say id "❌ LU to ASM disassembly failed"

end ApkWorkshop.Tool.Script
