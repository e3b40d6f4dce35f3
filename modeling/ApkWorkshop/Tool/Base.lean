import ApkWorkshop.Settings.Store
import ApkWorkshop.Text.Lowercase

/-!
# Tools

What all tools have in common: settings, a log, a view of how far they are, and the folders of the
current version. The current version is shared by all tools.
-/

namespace ApkWorkshop

open Text

namespace Tool

def byNumber (id : Nat) : Job Tool := do
  match (← get).tools[id]? with
  | some tool => return tool
  | none => return { settings := 0, part := .unpackCar }

def update (id : Nat) (f : Tool → Tool) : Job Unit :=
  modify fun w => { w with tools := w.tools.modify id f }

def say (id : Nat) (line : String) : Job Unit := do
  (← byNumber id).log.tellLog (.text line)

def showProgress (id : Nat) (percent : Int) : Job Unit := do
  (← byNumber id).progress.tellProgress (.whole percent)

/-- How much of a total is done, in whole percent. The quotient is a double. -/
def percent (done total : Nat) : Int :=
  (((Double.ofRatio done total).mul (.ofInt 100)).truncate?).getD 0

def conclude (id : Nat) (report : String) : Job Unit :=
  update id fun t => { t with report }

def setting (id : Nat) (key : String) (usual : Value) : Job Value := do
  Settings.value (← byNumber id).settings key usual

def setSetting (id : Nat) (key : String) (v : Value) : Job Unit := do
  Settings.set (← byNumber id).settings key v

def folder (id : Nat) (key : String) : Job String := do
  match (← byNumber id).paths.lookup key with
  | some path => return path
  | none => throw (.noMember (.text key))

/-! ### The current version -/

/-- The folders of a version, by their keys. Without a version they have no paths. -/
def versionFolders (versionPath data : Value) : Except Fault (List (String × String)) := do
  if versionPath.isGiven then
    let folders ← (← data.lookup "folder_structure" .null).members "items"
    folders.mapM fun (key, name) => return (key, ← versionPath.joinPath name)
  else
    let folders ← (← data.lookup "folder_structure" (.object [])).members "keys"
    return folders.map fun (key, _) => (key, "")

/-- The paths that are there when this fails: in a version, those before the folder at fault. -/
def pathsSoFar (versionPath data : Value) (old : List (String × String)) :
    List (String × String) :=
  match data.lookup "folder_structure" .null with
  | .error _ => old
  | .ok folders =>
    if versionPath.isGiven then
      let found := ((folders.members "items").toOption.getD []).map fun (key, name) =>
        (versionPath.joinPath name).toOption.map (key, ·)
      (found.takeWhile (·.isSome)).filterMap id
    else old

def setFolders (id : Nat) : Job Unit := do
  let tool ← byNumber id
  let data := (← Settings.byNumber tool.settings).data
  let versionPath := (← get).versionPath
  match versionFolders versionPath data with
  | .ok paths => update id fun t => { t with paths }
  | .error fault =>
    let paths := pathsSoFar versionPath data tool.paths
    update id fun t => { t with paths }
    throw fault

def chooseVersion (path : Value) : Job Unit :=
  modify fun w => { w with versionPath := path }

/-- Put a new tool beside the others. It works in the version that was current before; the version
that is named here becomes current for the next ones. -/
def place (tool : Tool) (versions last : Value) : Job Nat := do
  let id := (← get).tools.length
  modify fun w => { w with tools := w.tools ++ [tool] }
  setFolders id
  if versions.isGiven && last.isGiven then
    chooseVersion (.text (← Job.attempt (versions.joinPath last)))
  return id

/-- A new tool with the settings in a file, and the version that they name. -/
def create (file : String) (part : ToolPart) : Job Nat := do
  let settings ← Settings.openFile file
  let theme ← Settings.palette settings
  let last ← Settings.value settings "last_version" .null
  let versions ← Settings.value settings "versions_dir" .null
  place { settings, theme, part } versions last

def setPart (id : Nat) (part : ToolPart) : Job Unit :=
  update id fun t => { t with part }

/-! ### Files of tools -/

def endsLike (ending name : String) : Bool :=
  Path.endsWith (lower name) ending

def filesEnding (files : Files) (ending path : String) : List String :=
  ((files.walk (fun _ => true) path).filter fun (_, name) => endsLike ending name).map
    fun (folder, name) => Path.join folder name

def packageFiles (path : String) : Job (List String) :=
  return (← Job.names path).filter (endsLike ".apk")

/-! ### Batches -/

/-- The outcome of one file of a batch. -/
structure Processed where
  file : String
  trouble : Option String
deriving DecidableEq

/-- The counts of a batch so far. A listener that fails makes a file count once more. -/
structure Tally where
  processed : Nat := 0
  failed : Nat := 0
  troubles : List String := []
deriving DecidableEq

namespace Tally

def succeeded (t : Tally) : Int :=
  (t.processed : Int) - t.failed

def score (t : Tally) (total : Nat) : String :=
  decimalInt t.succeeded ++ "/" ++ decimal total

def lines (t : Tally) (total : Nat) (done : String) : List String :=
  ("✅ " ++ done ++ " completed: " ++ t.score total ++ " successful") ::
    if t.failed > 0 then ("❌ Failed files: " ++ decimal t.failed) :: t.troubles else []

end Tally

def countFile (tell : Int → Job Unit) (total : Nat) (tally : Tally) (input : String)
    (outcome : Processed) : Job Tally := do
  let counted := { tally with processed := tally.processed + 1 }
  let heard : Job Tally := do
    tell (percent counted.processed total)
    match outcome.trouble with
    | none => return counted
    | some trouble => return { counted with
        failed := counted.failed + 1
        troubles := counted.troubles ++ ["❌ " ++ outcome.file ++ ": " ++ trouble] }
  heard.orElse fun fault => return {
    processed := counted.processed + 1
    failed := counted.failed + 1
    troubles := counted.troubles ++ ["❌ " ++ Path.name input ++ ": " ++ fault.message] }

def countFiles (tell : Int → Job Unit) (total : Nat) : Tally → List (String × Processed) → Job Tally
  | tally, [] => return tally
  | tally, (input, outcome) :: rest => do
    countFiles tell total (← countFile tell total tally input outcome) rest

def processAll (process : String → String → Job Processed) (tasks : List (String × String)) :
    Job (List (String × Processed)) :=
  tasks.mapM fun (input, output) => return (input, ← process input output)

def reportBatch (id total : Nat) (tally : Tally) (done reported : String) : Job Unit := do
  (tally.lines total done).forM (say id)
  conclude id (reported ++ " " ++ tally.score total ++ " files")

def runBatch (id : Nat) (tell : Int → Job Unit) (process : String → String → Job Processed)
    (tasks : List (String × String)) (done reported : String) : Job Unit := do
  let outcomes ← processAll process tasks
  let tally ← countFiles tell tasks.length {} outcomes
  reportBatch id tasks.length tally done reported

end Tool

end ApkWorkshop
