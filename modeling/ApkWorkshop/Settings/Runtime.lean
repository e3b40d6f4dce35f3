import ApkWorkshop.Settings.Programs

/-!
# The Java runtime

A Java runtime needs a file of modules in its library folder. If the file is missing, an archive
beside it is unpacked by whatever can unpack it.
-/

namespace ApkWorkshop.Settings

open Text

/-- The path of a program: one of some usual paths, or what is found by name. -/
def firstProgram (usual names : List String) : Job (Option String) := do
  let files ← Job.files
  match usual.find? files.exists? with
  | some path => return some path
  | none =>
    let programs := (← get).outside.programs
    return (names.filterMap fun name => programs.lookup name).find? (· ≠ "")

def unpackWithRar (archive folder : String) : Job Bool :=
  attempted.orElse fun fault => do
    say ("⚠️ WinRAR extraction attempt failed: " ++ fault.message)
    return false
where
  attempted : Job Bool := do
    match ← firstProgram [
        "C:\\Program Files\\WinRAR\\WinRAR.exe",
        "C:\\Program Files (x86)\\WinRAR\\WinRAR.exe",
        "C:\\Program Files\\WinRAR\\Rar.exe",
        "C:\\Program Files (x86)\\WinRAR\\Rar.exe"] ["WinRAR.exe", "Rar.exe"] with
    | none => return false
    | some program =>
      let outcome ← Job.run ([program, "x", "-y", archive, folder].map .text) (some 60)
      if outcome.code = 0 then return true
      say ("⚠️ WinRAR extraction failed: " ++ outcome.errors)
      return false

def unpackWithSevenZip (archive folder : String) : Job Bool :=
  attempted.orElse fun fault => do
    say ("⚠️ 7-zip extraction failed: " ++ fault.message)
    return false
where
  attempted : Job Bool := do
    match ← firstProgram [
        "C:\\Program Files\\7-Zip\\7z.exe",
        "C:\\Program Files (x86)\\7-Zip\\7z.exe"] ["7z.exe"] with
    | none => return false
    | some program =>
      let outcome ← Job.run ([program, "x", "-y", archive, "-o" ++ folder].map .text) (some 60)
      return outcome.code = 0

/-- Unpack with a library, if it is there; a library that is not there gives no answer. -/
def unpackWith? (library archive folder : String) : Job Bool := do
  match (← get).outside.libraries.lookup library with
  | none => return false
  | some failure =>
    Job.note fun j => { j with commands := j.commands ++ [[library, archive, folder]] }
    match failure with
    | some message => throw (.listener message)
    | none => return true

/-- Unpack with libraries, and with a general archive program if there are none. -/
def unpackWithLibraries (archive folder : String) : Job Bool :=
  attempted.orElse fun fault => do
    say ("⚠️ Python extraction failed: " ++ fault.message)
    return false
where
  attempted : Job Bool := do
    if ← unpackWith? "patoolib" archive folder then return true
    say "ℹ️ patoolib not available, trying rarfile..."
    if ← unpackWith? "rarfile" archive folder then return true
    say "ℹ️ rarfile not available"
    unpackWithSevenZip archive folder

def unpackModules (archive folder : String) : Job Bool := do
  if ← unpackWithRar archive folder then
    say "✅ modules_fix.rar extracted successfully with WinRAR"
    return true
  if ← unpackWithLibraries archive folder then
    say "✅ modules_fix.rar extracted successfully with Python"
    return true
  say "❌ Failed to extract modules_fix.rar"
  say "💡 Please install WinRAR or ensure archive is not corrupted"
  return false

def sizeAt (path : String) : Job Nat := do
  match (← Job.files).read path with
  | .ok bytes => return bytes.length
  | .error _ => return 4096

def checkRuntime (java : Value) : Job Bool :=
  checked.orElse fun fault => do
    say ("❌ JDK environment check failed: " ++ fault.message)
    return false
where
  checked : Job Bool := do
    let runtime := Path.folder (Path.folder (← Job.attempt java.path))
    let library := Path.join runtime "lib"
    say ("🔍 Checking JDK environment: " ++ runtime)
    if !(← Job.standsAt library) then
      say ("❌ JDK lib directory not found: " ++ library)
      return false
    let modules := Path.join library "modules"
    let archive := Path.join library "modules_fix.rar"
    if ← Job.standsAt modules then
      let size ← sizeAt modules
      say ("✅ JDK modules file found: " ++ modules ++ " (" ++ decimal size ++ " bytes)")
      return true
    say ("⚠️ JDK modules file not found: " ++ modules)
    if ← Job.standsAt archive then
      say "📦 Found modules_fix.rar, extracting..."
      unpackModules archive library
    else
      say "❌ Neither modules file nor modules_fix.rar found"
      say "💡 Please ensure JDK installation is complete"
      return false

def isThere (v : Value) : Job Bool := do
  if v.isGiven then Job.stands v else return false

def repairRuntime (id : Nat) : Job Bool := do
  if !(← isThere (← value id "java" .null)) then
    say "⚠️ Java path not configured. Starting auto-configuration..."
    if !(← repairPaths id (pure ())) then
      say "❌ Auto-configuration failed"
      return false
  let java ← value id "java" .null
  if ← isThere java then checkRuntime java
  else
    say "❌ Java path still not configured after auto-setup"
    return false

/-! ### The first start -/

def isFirstStart (id : Nat) : Job Value :=
  value id "initial_start" (.truth true)

def endFirstStart (id : Nat) : Job Unit := do
  set id "initial_start" (.truth false)
  say "✅ Initial setup completed"

def prepareFirstStart (id : Nat) : Job Bool := do
  if !(← isFirstStart id).isGiven then return true
  say "🚀 Performing initial setup..."
  if !(← repairRuntime id) then return false
  endFirstStart id
  return true

end ApkWorkshop.Settings
