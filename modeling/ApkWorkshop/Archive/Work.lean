import ApkWorkshop.Archive.Word
import ApkWorkshop.Files.Files

/-!
# Working on archives

Packing and unpacking change the file system, write messages, and remember what they learn about
an archive. What was done before a fault stays done.
-/

namespace ApkWorkshop.Archive

open Text

/-- Why work on an archive stops. -/
inductive Fault
  | shortRead
  | tooLarge
  | noStream
  | closedStream
  | badLength
  | badPosition
  | positionNotNumber
  | noName
  | badName (fault : Utf8Fault)
  | sizeUnknown
  | notArchive
  | usageShown
  | file (fault : FileFault)
deriving DecidableEq

/-- How serious a message is. -/
inductive Level
  | debug
  | info
  | warning
  | error
deriving DecidableEq

def Level.name : Level → String
  | .debug => "DEBUG"
  | .info => "INFO"
  | .warning => "WARNING"
  | .error => "ERROR"

/-- A line of the index: packing remembers where the record of a file begins, unpacking remembers
the name that belongs to a position. -/
inductive IndexLine
  | packed (name : String) (position : Nat)
  | found (position : Int) (name : List UInt8)
deriving DecidableEq

def IndexLine.sameKey : IndexLine → IndexLine → Bool
  | .packed a _, .packed b _ => a == b
  | .found a _, .found b _ => a == b
  | _, _ => false

/-- What is known about archives: the facts read last, and an index that grows with every archive
that is packed or unpacked. -/
structure Memory where
  folder : Option String := none
  name : Option String := none
  size : Option Nat := none
  header : Option (List UInt8) := none
  revision : Option Int := none
  dataStart : Option Int := none
  count : Option Int := none
  index : List IndexLine := []

/-- Put a line into an index: a line with the same key is replaced where it stands. -/
def putLine (line : IndexLine) : List IndexLine → List IndexLine
  | [] => [line]
  | old :: rest => if line.sameKey old then line :: rest else old :: putLine line rest

def packedPosition? (name : String) : List IndexLine → Option Nat
  | [] => none
  | .packed other position :: rest =>
    if name = other then some position else packedPosition? name rest
  | .found _ _ :: rest => packedPosition? name rest

/-- An archive that is being read. -/
inductive Stream
  | none
  | closed
  | opened (bytes : List UInt8) (position : Nat)
deriving DecidableEq

/-- Everything that work on archives sees and changes: the files, and of one archiver its index, the
archive it has open and the folder it unpacks to; messages and texts on the console are recorded. -/
structure Bench where
  files : Files
  memory : Memory := {}
  stream : Stream := .none
  target : String := ""
  messages : List (Level × String) := []
  console : String := ""

abbrev Work (α : Type) : Type := ExceptT Fault (StateM Bench) α

def say (line : String) : Work Unit :=
  modify fun b => { b with console := b.console ++ line ++ "\n" }

def note (level : Level) (text : String) : Work Unit :=
  modify fun b => { b with messages := b.messages ++ [(level, text)] }

def learn (f : Memory → Memory) : Work Unit :=
  modify fun b => { b with memory := f b.memory }

def onFiles (f : Files → Except FileFault Files) : Work Unit := do
  match f (← get).files with
  | .ok files => modify fun b => { b with files }
  | .error fault => throw (.file fault)

def makeFolders (path : String) : Work Unit := do
  let (files, fault) := (← get).files.makeFolders path
  modify fun b => { b with files }
  match fault with
  | some fault => throw (.file fault)
  | none => pure ()

def readFile (path : String) : Work (List UInt8) := do
  match (← get).files.read path with
  | .ok bytes => return bytes
  | .error fault => throw (.file fault)

/-! ### The open archive -/

def openStream : Work (List UInt8 × Nat) := do
  match (← get).stream with
  | .none => throw .noStream
  | .closed => throw .closedStream
  | .opened bytes position => return (bytes, position)

def moveTo (position : Nat) : Work Unit := do
  let (bytes, _) ← openStream
  modify fun b => { b with stream := .opened bytes position }

def seek (position : Int) : Work Unit := do
  let _ ← openStream
  if position < 0 then throw .badPosition else moveTo position.toNat

def stepBack : Work Unit := do
  let (_, position) ← openStream
  seek ((position : Int) - 1)

def moveToEnd : Work Unit := do
  let (bytes, _) ← openStream
  moveTo bytes.length

/-- Read so many bytes, or fewer if the archive ends; minus one reads all that is left. -/
def readBytes (count : Int) : Work (List UInt8) := do
  let (bytes, position) ← openStream
  if count < -1 then throw .badLength
  let rest := bytes.drop position
  let read := if count = -1 then rest else rest.take count.toNat
  moveTo (position + read.length)
  return read

def readWord : Work Int := do
  match word? (← readBytes 4) with
  | some n => return n
  | none => throw .shortRead

def readThreeWords : Work (Int × Int × Int) := do
  match threeWords? (← readBytes 12) with
  | some words => return words
  | none => throw .shortRead

def readByte : Work UInt8 := do
  match ← readBytes 1 with
  | [b] => return b
  | _ => throw .shortRead

def position : Work Nat := do
  return (← openStream).2

end ApkWorkshop.Archive
