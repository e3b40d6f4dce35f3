import ApkWorkshop.Archive.Command
import ApkWorkshop.Files.Changes
import ApkWorkshop.Listing.Command

/-!
# The command line

`disassemble`, `assemble` and `archive` work on the files of this machine. What a command may need
is read first, the command itself is a function on a file system, and what it made is written back.
-/

namespace ApkWorkshop.CommandLine

def readFile? (path : String) : IO (Option (List UInt8)) := do
  try
    return some (← IO.FS.readBinFile path).toList
  catch _ =>
    return none

def namesIn (path : String) : IO (List String) := do
  try
    return (← ((← IO.currentDir) / path).readDir).toList.map (·.fileName)
  catch _ =>
    return []

def loadFile (files : Files) (path : String) : IO Files := do
  match ← readFile? path with
  | some bytes => return (files.supply path (some bytes)).toOption.getD files
  | none => return files

def load (files : Files) (path : String) : IO Files := do
  match ← readFile? path with
  | some bytes => return (files.supply path (some bytes)).toOption.getD files
  | none =>
    let names ← namesIn path
    let files := if names.isEmpty then files else (files.makeFolders path).1
    names.foldlM (fun files name => loadFile files (Path.join path name)) files

def start : IO Files := do
  let home := (Path.parts (← IO.currentDir).toString).filter (· ≠ "")
  return ⟨(Node.folder .nil).put home (.folder .nil), home⟩

def writeBack (before after : Files) : IO Unit :=
  (Files.made { before with home := [] } { after with home := [] }).forM fun (path, content) =>
    match content with
    | none => IO.FS.createDirAll ("/" ++ path)
    | some bytes => IO.FS.writeBinFile ("/" ++ path) (ByteArray.mk bytes.toArray)

def listingTrouble : Listing.CommandFault → String
  | .bytecode fault => fault.message?.getD "the input is damaged"
  | .file fault => fault.message

def runListing (command : Files → List String → Listing.CommandResult) (args : List String) :
    IO UInt32 := do
  let files ← args.foldlM loadFile (← start)
  let result := command files args
  IO.print result.console
  writeBack files result.files
  match result.fault with
  | none => return 0
  | some fault =>
    IO.eprintln (listingTrouble fault)
    return 1

def runArchive (args : List String) : IO UInt32 := do
  let files ← args.foldlM load (← start)
  let (result, bench) := StateT.run (ExceptT.run (Archive.command args)) { files }
  IO.print bench.console
  bench.messages.forM fun (level, text) => IO.eprintln (level.name ++ " " ++ text)
  writeBack files bench.files
  return match result with
    | .ok _ => 0
    | .error _ => 1

def usage : String :=
  "usage: disassemble | assemble | archive  arguments"

end ApkWorkshop.CommandLine

open ApkWorkshop in
def main (args : List String) : IO UInt32 :=
  match args with
  | "disassemble" :: rest => CommandLine.runListing Listing.disassembleCommand rest
  | "assemble" :: rest => CommandLine.runListing Listing.assembleCommand rest
  | "archive" :: rest => CommandLine.runArchive rest
  | _ => do
    IO.eprintln CommandLine.usage
    return 1
