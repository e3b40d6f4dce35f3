import ApkWorkshop.Lua.Escape
import ApkWorkshop.Tool.Route

/-!
# Decoding escapes in Lua files

Lines that assign a string with escapes get readable. All files of a folder are decoded, or one
file that is looked for by words in its name.
-/

namespace ApkWorkshop.Tool.Decoder

open Text

def create (file : String) (route : Route) : Job Nat :=
  Tool.create file (.decoder route)

def folders (id : Nat) : Job (String × String) := do
  match (← byNumber id).part with
  | .decoder route => routeFolders id route
  | _ => throw (.leftOpen "Subclasses must implement get_input_output_paths")

def decodeLines : List (List Char) → List Char × Option Lua.EscapeFault
  | [] => ([], none)
  | line :: rest =>
    match Lua.decodeLine line with
    | .error fault => ([], some fault)
    | .ok decoded =>
      let (others, fault) := decodeLines rest
      (decoded ++ others, fault)

def faultOf : Lua.EscapeFault → Fault
  | .noByte => .noByte
  | .badText fault => .badText fault

/-- Decode one file. The output is emptied before anything is read, and keeps the lines in front of
one that fails. -/
def process (input output : String) : Job Processed :=
  attempted.orElse fun fault => return ⟨Path.name input, some fault.message⟩
where
  attempted : Job Processed := do
    Job.makeFolders (Path.folder output)
    let _ ← Job.readBytes input
    Job.writeText output ""
    let bytes ← Job.readBytes input
    let (text, fault) := decodeLines (lines (unifyNewlines (decodeLenient bytes)))
    Job.writeText output (String.ofList text)
    match fault with
    | some fault => throw (faultOf fault)
    | none => return ⟨Path.name input, none⟩

def decode (id : Nat) : Job Unit :=
  attempted.orElse fun fault => say id ("❌ UTF8 decoding error: " ++ fault.message)
where
  attempted : Job Unit := do
    let (input, output) ← folders id
    say id ("🔤 Starting UTF8 decoding from " ++ Path.name input ++ "...")
    if !(← Job.standsAt input) then
      say id ("❌ Input directory not found: " ++ input)
      return
    let paths := filesEnding (← Job.files) ".lua" input
    if paths.isEmpty then
      say id "❌ No .lua files found"
      return
    say id ("📁 Files to process: " ++ decimal paths.length)
    Job.makeFolders output
    let tasks ← paths.mapM fun path =>
      return (path, Path.join output (← relativePath input path))
    runBatch id (showProgress id) process tasks "UTF8 decoding" "Decoded"

def run (id : Nat) : Job Unit :=
  Job.inBackground (decode id)

/-! ### One file -/

/-- A file that was found, with the number of words its name holds. -/
structure Match where
  path : String
  name : String
  score : Nat
deriving DecidableEq

def score (words : List String) (name : String) : Nat :=
  (words.filter fun word => holds (lower name) word).length

/-- The better of two files: more words first, then the shorter name, then the one found first. -/
def better (words : List String) (best : Option Match) (folder name : String) : Option Match :=
  let points := score words name
  let new : Match := ⟨Path.join folder name, name, points⟩
  match best with
  | none => if points > 0 then some new else none
  | some old =>
    if points > old.score then some new
    else if points = old.score && name.length < old.name.length then some new
    else some old

def bestMatch (files : Files) (words : List String) (path : String) : Option Match :=
  ((files.walk (fun _ => true) path).filter fun (_, name) => endsLike ".lua" name).foldl
    (fun best (folder, name) => better words best folder name) none

def find (id : Nat) (pattern : String) (start : Value) : Job (Option String) := do
  let start ← match start with
    | .null => pure (.text (← folder id "lua"))
    | v => pure v
  if !(← Job.stands start) then
    say id ("❌ Search directory not found: " ++ start.plain)
    return none
  let path ← Job.attempt start.path
  return (bestMatch (← Job.files) (words (lower pattern)) path).map (·.path)

def decodeOne (id : Nat) (pattern : String) : Job Bool := do
  let target := Path.join (← folder id "editing") "UTF-8"
  say id ("🔍 Searching for file with pattern: '" ++ pattern ++ "'")
  match ← find id pattern .null with
  | none =>
    say id ("❌ File not found for pattern: '" ++ pattern ++ "'")
    return false
  | some path =>
    say id ("✅ Found file: " ++ Path.name path)
    let output := Path.join target (Path.name path)
    match (← process path output).trouble with
    | none =>
      say id ("✅ File decoded successfully: " ++ output)
      return true
    | some trouble =>
      say id ("❌ Failed to decode file: " ++ trouble)
      return false

def help : String := joinWith "\n" [
  "UTF8 Decoder - CLI Argument Reference:",
  "",
  "    Commands:",
  "      (no arguments)   - Decode all .lua files",
  "      <pattern>        - Search and decode file by pattern",
  "      ? or help        - Show this help message",
  "",
  "    Examples:",
  "      utf8             - Decode all files",
  "      utf8 lang        - Find and decode file with 'lang' in its name",
  "      utf8 st rostov   - Search by multiple keywords and decode",
  "      utf8 ?           - Display help"]

/-- The command with its arguments: all files, help, or one file by words in its name. -/
def command (id : Nat) (arguments : String) : Job Unit := do
  let pattern := strip arguments
  if pattern = "" then run id
  else if pattern = "?" || pattern = "help" then say id help
  else let _ ← decodeOne id pattern

end ApkWorkshop.Tool.Decoder
