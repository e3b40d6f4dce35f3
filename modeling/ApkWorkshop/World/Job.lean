import ApkWorkshop.World.Access
import ApkWorkshop.World.World

/-!
# Jobs

The basic steps of work: files, the console, message boxes, choosers and processes.
-/

namespace ApkWorkshop

open Text

namespace Job

def doneIn {α : Type} (job : Job α) (w : World) : Except Fault α × World :=
  StateT.run (ExceptT.run job) w

def attempt {α : Type} : Except Fault α → Job α
  | .ok a => pure a
  | .error fault => throw fault

def orElse {α : Type} (job : Job α) (handle : Fault → Job α) : Job α :=
  tryCatch job handle

def inBackground (job : Job Unit) : Job Unit :=
  job.orElse fun fault => modify fun w =>
    { w with journal := { w.journal with broken := w.journal.broken ++ [fault] } }

/-! ### Files -/

def files : Job Files :=
  return (← get).files

def onFiles (f : Files → Except FileFault Files) : Job Unit := do
  match f (← files) with
  | .ok changed => modify fun w => { w with files := changed }
  | .error fault => throw (.file fault)

/-- Make a folder and all folders above it. What was made before a fault stays. -/
def makeFolders (path : String) : Job Unit := do
  let (changed, fault) := (← files).makeFolders path
  modify fun w => { w with files := changed }
  match fault with
  | some fault => throw (.file fault)
  | none => pure ()

/-- Remove a folder with everything in it. What is in the folder goes first. Then its path is
followed once more, which fails if it led through the folder itself, and a path that ends with dots
does not name the folder. -/
def removeTree (path : String) : Job Unit := do
  if let .found place (.folder _) := (← files).locate path then
    modify fun w => { w with files := w.files.emptied place }
    if !(← files).exists? path then throw (.file (.missing path))
    match Path.name (String.ofList (Path.bare path.toList)) with
    | "." => throw (.dottedRemoval path false)
    | ".." => throw (.dottedRemoval path true)
    | _ => pure ()
  onFiles (·.removeTree path)

def stands (path : Value) : Job Bool := do
  attempt (path.standsIn (← files))

def standsAt (path : String) : Job Bool :=
  return (← files).exists? path

def readBytes (path : String) : Job (List UInt8) := do
  match (← files).read path with
  | .ok bytes => return bytes
  | .error fault => throw (.file fault)

def readText (path : String) : Job (List Char) := do
  match decodeChars (← readBytes path) with
  | .ok cs => return unifyNewlines cs
  | .error fault => throw (.badText fault)

def writeText (path text : String) : Job Unit :=
  onFiles (·.write path (encode text))

def names (path : String) : Job (List String) := do
  match (← files).list path with
  | .ok names => return names
  | .error fault => throw (.file fault)

/-! ### Console and boxes -/

def note (f : Journal → Journal) : Job Unit :=
  modify fun w => { w with journal := f w.journal }

def say (line : String) : Job Unit :=
  note fun j => { j with console := j.console ++ line ++ "\n" }

def showBox (box : Box) : Job Unit :=
  note fun j => { j with boxes := j.boxes ++ [box] }

def ask (title message : String) : Job Bool := do
  showBox (.question title message)
  match (← get).outside.answers with
  | [] => return false
  | answer :: rest =>
    modify fun w => { w with outside := { w.outside with answers := rest } }
    return answer

def nextChoice : Job String := do
  match (← get).outside.choices with
  | [] => return ""
  | choice :: rest =>
    modify fun w => { w with outside := { w.outside with choices := rest } }
    return choice

def chooseFile (title : String) : Job String := do
  showBox (.fileChooser title)
  nextChoice

def chooseFolder (title : String) : Job String := do
  showBox (.folderChooser title)
  nextChoice

def chooseColour (title : String) : Job Value := do
  showBox (.colourChooser title)
  match (← get).outside.colours with
  | [] => return .null
  | colour :: rest =>
    modify fun w => { w with outside := { w.outside with colours := rest } }
    return colour

def clock : Job Double := do
  match (← get).outside.clock with
  | [] => return (← get).outside.now
  | reading :: rest =>
    modify fun w => { w with outside := { w.outside with clock := rest, now := reading } }
    return reading

/-! ### Processes -/

def findProgram (name : String) : Job (Option String) :=
  return (← get).outside.programs.lookup name

def madePath (command : List String) : MadeAt → Option String
  | .path path => some path
  | .word index =>
    let place := if index < 0 then index + command.length else index
    if place < 0 then none else command[place.toNat]?

def leave (command : List String) (made : MadeAt × Option (List UInt8)) (files : Files) :
    Except FileFault Files :=
  match madePath command made.1 with
  | some path => files.supply path made.2
  | none => .ok files

/-- Start a process and note its command. What it leaves behind is there at once. -/
def start (command : List String) : Job Outcome := do
  note fun j => { j with commands := j.commands ++ [command] }
  let outcome ← match (← get).outside.outcomes with
    | [] => pure {}
    | outcome :: rest => do
      modify fun w => { w with outside := { w.outside with outcomes := rest } }
      pure outcome
  if outcome.refusal = some .missing then throw (.file (.missing (command.headD "")))
  outcome.made.forM fun made => onFiles (leave command made)
  return outcome

def complete (command : List String) (seconds : Option Nat) : Job Outcome := do
  let outcome ← start command
  if outcome.refusal = some .timeout then throw (.processTimedOut command seconds)
  return outcome

def run (words : List Value) (seconds : Option Nat) : Job Outcome := do
  complete (← attempt (Value.commandWords words)) seconds

def runChecked (words : List Value) (seconds : Option Nat) : Job Outcome := do
  let command ← attempt (Value.commandWords words)
  let outcome ← complete command seconds
  if outcome.code ≠ 0 then throw (.processFailed command outcome.code outcome.errors)
  return outcome

end Job

end ApkWorkshop
