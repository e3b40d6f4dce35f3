import ApkWorkshop.Archive.Work

/-!
# Packing an archive

An archive is a header, an index with a line for every file, a data record for every file and a
closing mark. The positions of the records are not known while the index is written, so the index
is written with a placeholder first and the positions are put in at the end. That last pass walks
over the index by the number of characters of each name.
-/

namespace ApkWorkshop.Archive

open Text

def placeholder : Int := 1337

def headBytes (dataStart count : Int) : List UInt8 :=
  magic ++ wordBytes revision ++ wordBytes dataStart ++ wordBytes count

/-- An entry of the index: its mark, the position of the record, the number of characters of the
name, the name and its padding. -/
def entryBytes (position : Int) (name : String) : List UInt8 :=
  wordBytes entryMark ++ wordBytes position ++ wordBytes name.length ++ encode name
    ++ zeros (namePadding name.length)

def recordStride (content : List UInt8) : Nat :=
  content.length + 4 + contentPadding content.length

/-- A data record: its mark, the way to the next one, the length of the content, the content and
its padding. -/
def recordBytes (content : List UInt8) : List UInt8 :=
  wordBytes recordMark ++ wordBytes (recordStride content) ++ wordBytes content.length ++ content
    ++ zeros (contentPadding content.length)

/-- Header and index, the positions still open. The distance to the data is counted from behind
its own place, twelve bytes into the archive. -/
def draftIndex (names : List String) : List UInt8 :=
  let entries := names.flatMap (entryBytes placeholder)
  headBytes (16 + entries.length - 12 : Nat) names.length ++ entries

/-! ### Putting in the positions -/

def overwrite (bytes : List UInt8) (position : Nat) (new : List UInt8) : List UInt8 :=
  bytes.take position ++ new ++ bytes.drop (position + new.length)

def wordAt? (bytes : List UInt8) (position : Nat) : Option Int :=
  word? ((bytes.drop position).take 4)

/-- The place behind so many bytes from a position; minus one leads to the end. -/
def placeBehind (bytes : List UInt8) (position : Nat) (count : Int) : Except Fault Nat :=
  if count < -1 then .error .badLength
  else if count = -1 then .ok (max position bytes.length)
  else .ok (max position (min bytes.length (position + count.toNat)))

/-- Put the positions of the records into the index, entry by entry from a position on. The bytes
are returned as far as the pass came. -/
def putPositions (index : List IndexLine) (bytes : List UInt8) (position : Nat) :
    List String → List UInt8 × Option Fault
  | [] => (bytes, none)
  | name :: rest =>
    match wordAt? bytes position with
    | none => (bytes, some .shortRead)
    | some _ =>
      match packedPosition? name index with
      | none => (bytes, some .noName)
      | some record =>
        if !fitsWord record then (bytes, some .tooLarge)
        else
          let bytes := overwrite bytes (position + 4) (wordBytes record)
          match wordAt? bytes (position + 8) with
          | none => (bytes, some .shortRead)
          | some length =>
            match placeBehind bytes (position + 12) (length + namePadding name.length) with
            | .error fault => (bytes, some fault)
            | .ok next => putPositions index bytes next rest

/-! ### The whole archive -/

def filesIn (files : Files) (folder : String) (names : List String) : List String :=
  names.filter fun name => files.isFile (folder ++ name)

/-- Write the records of files behind what is written already, remembering where each begins. -/
def writeRecords (folder : String) (written : List UInt8) :
    List String → Work (List UInt8 × Option Fault)
  | [] => return (written, none)
  | name :: rest => do
    let content ← readFile (folder ++ name)
    learn fun m => { m with index := putLine (.packed name written.length) m.index }
    if !fitsWord (recordStride content) then return (written, some .tooLarge)
    writeRecords folder (written ++ recordBytes content) rest

/-- Pack the files directly in a folder; the path of the folder is put in front of their names as
it is. The archive is emptied first, and its header and index are on disk before the files are
read. -/
def pack (folder output : String) : Work Unit := do
  onFiles (·.write output [])
  modify fun b => { b with stream := .closed }
  let files := (← get).files
  let listed ← match files.list folder with
    | .ok names => pure names
    | .error fault => throw (.file fault)
  let names := filesIn files folder listed
  learn fun m => { m with count := some names.length }
  let draft := draftIndex names
  onFiles (·.write output draft)
  let (bytes, fault) ← writeRecords folder draft names
  if let some fault := fault then
    onFiles (·.write output bytes)
    throw fault
  let (bytes, fault) := putPositions (← get).memory.index (bytes ++ closing) 16 names
  onFiles (·.write output bytes)
  if let some fault := fault then throw fault
  say ("File " ++ output ++ " successfully created.")

end ApkWorkshop.Archive
