import ApkWorkshop.Archive.Work

/-!
# Unpacking an archive

The index is read entry by entry; a byte that looks like the mark of the next entry ends each of
them. Then every record that the index names is looked up by its position and its content is
written to a file of that name. Positions that were remembered before are looked up as well.
-/

namespace ApkWorkshop.Archive

open Text

def readHeader : Work Unit := do
  let header ← readBytes 4
  learn fun m => { m with header := some header }
  if header ≠ magic then
    note .error "Incorrect file type. Must be a *.car (Corona Archive) file type."
    throw .notArchive
  let found ← readWord
  learn fun m => { m with revision := some found }
  if found ≠ revision then
    note .warning ("This unpacker is intended for use on Corona Revision 1, it may not work on "
      ++ "revision " ++ decimalInt found ++ ".")
  let distance ← readWord
  let here ← position
  learn fun m => { m with dataStart := some (distance + here) }
  let count ← readWord
  learn fun m => { m with count := some count }

def knownSize : Work Nat := do
  match (← get).memory.size with
  | some size => return size
  | none => throw .sizeUnknown

/-- Go to the next byte with a value. Close to the end the search gives up and goes to the end.
Every step reads one of the bytes that are left, so their number bounds the steps. -/
def findMark (mark : Int) : Nat → Work Unit
  | 0 => throw .shortRead
  | fuel + 1 => do
    let b ← readByte
    if (b.toNat : Int) = mark % 256 && -128 ≤ mark && mark < 128 then stepBack
    else if (← knownSize) ≤ (← position) + 1 then moveToEnd
    else findMark mark fuel

def bytesLeft : Work Nat := do
  let (bytes, position) ← openStream
  return bytes.length - position

def goToMark (mark : Int) (look : Bool) : Work Unit := do
  if look then
    let left ← bytesLeft
    findMark mark (left + 1)
  else stepBack

def readEntry (look : Bool) : Work Unit := do
  let (mark, position, length) ← readThreeWords
  let name ← readBytes length
  learn fun m => { m with index := putLine (.found position name) m.index }
  note .debug (joinWith " " [decimalInt mark, decimalInt position, decimalInt length,
    quotedBytes name])
  goToMark entryMark look

def readEntries : Nat → Work Unit
  | 0 => return
  | count + 1 => do
    readEntry (count ≠ 0)
    readEntries count

def skipToRecords : Nat → Work Unit
  | 0 => throw .shortRead
  | fuel + 1 => do
    if (← readByte).toNat = recordMark then stepBack else skipToRecords fuel

/-- Write the content of a record to the file with its name. A record without a name gets one
from its position. -/
def writeContent (content : List UInt8) (position : Int) (name : List UInt8) : Work Unit := do
  let text ← match decode name with
    | .ok s => pure s
    | .error fault => throw (.badName fault)
  let file := if name.isEmpty then "file-" ++ decimalInt position ++ ".extracted.lu" else text
  let target := (← get).target
  onFiles (·.write (target ++ file) content)
  note .info ("File " ++ file ++ " extracted to " ++ target)

/-- Read the record at the current position and write its content. The position that is reported
may be absent; then, or if it is zero, the place behind the record names a file without name. -/
def readRecordHere (reported : Option Int) (name : Option (List UInt8)) : Work Unit := do
  let (mark, stride, length) ← readThreeWords
  let content ← readBytes length
  note .debug (joinWith " " [decimalInt mark, decimalInt stride, decimalInt length,
    (reported.map decimalInt).getD "None", (name.map quotedBytes).getD "None"])
  let behind ← position
  match name with
  | none => throw .noName
  | some name =>
    let shown := match reported with
      | some n => if n = 0 then (behind : Int) else n
      | none => behind
    writeContent content shown name

def readRecordAt (reported : Option Int) (name : Option (List UInt8)) : Work Unit := do
  match reported with
  | none =>
    let _ ← openStream
    throw .positionNotNumber
  | some n => seek n
  readRecordHere reported name

def readRecordOnward (reported : Option Int) (name : Option (List UInt8)) (look : Bool) :
    Work Unit := do
  readRecordHere reported name
  goToMark recordMark look

/-- Read the records that lines of the index name. A line that was remembered by packing holds no
position to go to. -/
def readRecords : List IndexLine → Work Unit
  | [] => return
  | .packed _ _ :: _ => do
    let _ ← openStream
    throw .positionNotNumber
  | .found position name :: rest => do
    readRecordAt (some position) (some name)
    readRecords rest

/-- Read records one behind the other up to the end. They have no names, so the first one is
refused. -/
def readRecordsInOrder : Work Unit := do
  let here ← position
  if here < (← knownSize) then readRecordHere none none

def extract (input : String) (bytes : List UInt8) : Work Unit := do
  learn fun m => { m with
    folder := some (Path.folder input)
    name := some (Path.name input)
    size := some bytes.length }
  readHeader
  let count := ((← get).memory.count).getD 0
  readEntries count.toNat
  skipToRecords ((← bytesLeft) + 1)
  readRecords (← get).memory.index
  say "Extraction done."

/-- Unpack an archive. The target is put in front of the names of the files as it is, and made
first if it is no folder. The archive is read as it stood when it was opened, also where one of its
own files is written over it. It is closed at the end, whether or not a fault came. -/
def unpack (input target : String) : Work Unit := do
  modify fun b => { b with target }
  if !(← get).files.isFolder target then makeFolders target
  let bytes ← readFile input
  modify fun b => { b with stream := .opened bytes 0 }
  try extract input bytes
  finally modify fun b => { b with stream := .closed }

end ApkWorkshop.Archive
