import ApkWorkshop.Archive.Work
import ApkWorkshop.Document.Bytes

/-!
# What is known about archives, as a document
-/

namespace ApkWorkshop.Archive

def IndexLine.document : IndexLine → Value
  | .packed name position => .list [.text name, .whole position]
  | .found position name => .list [.whole position, .ofHexBytes name]

def Memory.facts (m : Memory) : List (String × Value) :=
  let all : List (String × Option Value) := [
    ("length", m.count.map .whole),
    ("file_path", m.folder.map .text),
    ("file_name", m.name.map .text),
    ("file_size", m.size.map fun n => .whole n),
    ("header", m.header.map .ofHexBytes),
    ("revision", m.revision.map .whole),
    ("data_offset_start", m.dataStart.map .whole)]
  all.filterMap fun (name, v) => v.map (name, ·)

def Memory.document (m : Memory) : Value :=
  .object [("metadata", .object m.facts), ("index", .list (m.index.map (·.document)))]

end ApkWorkshop.Archive
