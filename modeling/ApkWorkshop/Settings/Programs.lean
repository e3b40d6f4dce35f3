import ApkWorkshop.Settings.Store
import ApkWorkshop.Settings.ToolFile

/-!
# The programs in the settings

Every program the tools need has a key in the settings, a name, and a usual place below the folder
of helpers. Programs that are not set up can be looked for there.
-/

namespace ApkWorkshop

open Text

/-- A program, or a folder, that the settings name. -/
structure Program where
  key : String
  name : String
  description : String
  location : Option String

namespace Settings

def versionsFolder : Program :=
  ⟨"versions_dir", "Versions Folder", "Folder for storing versions", none⟩

def programs : List Program := [
  versionsFolder,
  ⟨"java", "Java Runtime", "Java executable (java.exe)",
    some "JDK/jdk-17.0.16+8/bin/java.exe"⟩,
  ⟨"apktool", "APKTool", "APKTool JAR file", some "APKTool/apktool.jar"⟩,
  ⟨"apksigner", "APKSigner", "APKSigner tool",
    some "AndroidSDK/build-tools/34.0.0/apksigner.bat"⟩,
  ⟨"zipalign", "Zipalign", "Zipalign tool", some "AndroidSDK/build-tools/34.0.0/zipalign.exe"⟩,
  ⟨"unluac", "Unluac", "Unluac decompiler JAR", some "Unluac/unluac.jar"⟩,
  ⟨"corona-archiver", "Corona Archiver", "Corona Archiver Python script",
    some "Corona_Archiver/corona-archiver-master/corona-archiver.py"⟩,
  ⟨"luac", "luac", "Luac compiler", some "Luac/luac.exe"⟩]

def helpersFolder : Job String :=
  return Path.join (← get).programFolder "utils"

/-- Look for a program at its usual place, or for a file in that folder that can be it. -/
def findProgram (files : Files) (base : String) (program : Program) (location : String) :
    Except FileFault (Option String) :=
  let expected := Path.join base location
  if files.exists? expected then .ok (some expected)
  else
    let folder := Path.folder expected
    if files.exists? folder then
      match files.list folder with
      | .error fault => .error fault
      | .ok names => .ok <|
        (names.find? fun name =>
          files.isFile (Path.join folder name)
            && isProgramFile program.key name (Path.name expected)).map (Path.join folder)
    else .ok none

def findPrograms (files : Files) (base : String) :
    List Program → Except FileFault (List (String × String))
  | [] => .ok []
  | program :: rest => do
    let found ← match program.location with
      | none => pure none
      | some location => findProgram files base program location
    let others ← findPrograms files base rest
    return match found with
      | some path => (program.key, path) :: others
      | none => others

/-- Look for all programs below a folder and put those that are found into the settings. -/
def setUsualPrograms (id : Nat) (base : Value) : Job (List (String × String)) := do
  let base ← Job.attempt base.path
  match findPrograms (← Job.files) base programs with
  | .error fault => throw (.file fault)
  | .ok found =>
    found.forM fun (key, path) => set id key (.text path)
    return found

def pathProblems (id : Nat) : List Program → Job (List String × List String)
  | [] => return ([], [])
  | program :: rest => do
    let path ← value id program.key (.text "")
    if !path.isGiven then
      let (missing, invalid) ← pathProblems id rest
      return (program.name :: missing, invalid)
    else if ← Job.stands path then pathProblems id rest
    else
      let (missing, invalid) ← pathProblems id rest
      return (missing, (program.name ++ ": " ++ path.plain) :: invalid)

def searchReport (id : Nat) : List Program → Job (List String)
  | [] => return []
  | program :: rest => do
    let path ← value id program.key (.text "")
    let found ← if path.isGiven then Job.stands path else pure false
    let others ← searchReport id rest
    let line := if found then "✓ " ++ program.name else "✗ " ++ program.name ++ " (not found)"
    return line :: others

def showSearch (id : Nat) (way : String) : Job Unit := do
  let report ← searchReport id programs
  showInfo (way ++ " - Result\n\nAutomatic setup result:\n\n" ++ joinWith "\n" report)

def problemText (missing invalid : List String) : String :=
  joinWith "\n" <|
    (if missing.isEmpty then [] else ["Not configured: " ++ joinWith ", " missing])
    ++ (if invalid.isEmpty then [] else ["Invalid paths:\n- " ++ joinWith "\n- " invalid])

/-- Check the paths of all programs and offer to look for them. The window for paths, if there is
one, is opened anew afterwards. -/
def repairPaths (id : Nat) (reopen : Job Unit) : Job Bool := do
  let (missing, invalid) ← pathProblems id programs
  if missing.isEmpty && invalid.isEmpty then
    showInfo "All paths are configured correctly!"
    return true
  let wanted ← Job.ask "Path Problems"
    ("Found problems with tool paths:\n\n" ++ problemText missing invalid
      ++ "\n\nDo you want to try automatic setup?\n\n"
      ++ "• YES - Auto-search (intelligent tool search)\n"
      ++ "• NO - Cancel and configure manually")
  if wanted then
    let _ ← setUsualPrograms id (.text (← helpersFolder))
    showSearch id "Auto-search"
    reopen
    return true
  else
    Job.say "Automatic setup cancelled by user"
    return false

end Settings

end ApkWorkshop
