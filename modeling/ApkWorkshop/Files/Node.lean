import ApkWorkshop.Files.Path

/-!
# Trees of files

A node of the tree is a file with its content or a folder with its entries, in the order in which
the folder is listed. Places are lists of names from the root. The operations on places look at
one name at a time, so what they do below one entry leaves all other entries alone.
-/

namespace ApkWorkshop

mutual

/-- A file or a folder. -/
inductive Node
  | file (content : List UInt8)
  | folder (entries : Entries)

/-- The entries of a folder. -/
inductive Entries
  | nil
  | cons (name : String) (node : Node) (rest : Entries)

end

namespace Entries

def get? (name : String) : Entries → Option Node
  | .nil => none
  | .cons other node rest => if name = other then some node else rest.get? name

def remove (name : String) : Entries → Entries
  | .nil => .nil
  | .cons other node rest =>
    if name = other then rest else .cons other node (rest.remove name)

def toList : Entries → List (String × Node)
  | .nil => []
  | .cons name node rest => (name, node) :: rest.toList

def names (entries : Entries) : List String :=
  entries.toList.map (·.1)

/-- Put an entry: one with that name is replaced where it stands, and a new one comes before the
first entry with a greater name. -/
def put (name : String) (node : Node) : Entries → Entries
  | .nil => .cons name node .nil
  | .cons other old rest =>
    if name = other then .cons name node rest
    else if name < other ∧ name ∉ rest.names then .cons name node (.cons other old rest)
    else .cons other old (rest.put name node)

end Entries

namespace Node

def isFolder : Node → Bool
  | .folder _ => true
  | .file _ => false

def get? : Node → List String → Option Node
  | node, [] => some node
  | .file _, _ :: _ => none
  | .folder entries, name :: rest =>
    match entries.get? name with
    | some node => node.get? rest
    | none => none

def put : Node → List String → Node → Node
  | _, [], new => new
  | .file content, _ :: _, _ => .file content
  | .folder entries, [name], new => .folder (entries.put name new)
  | .folder entries, name :: rest, new =>
    match entries.get? name with
    | some node => .folder (entries.put name (node.put rest new))
    | none => .folder entries

def remove : Node → List String → Node
  | node, [] => node
  | .file content, _ :: _ => .file content
  | .folder entries, [name] => .folder (entries.remove name)
  | .folder entries, name :: rest =>
    match entries.get? name with
    | some node => .folder (entries.put name (node.remove rest))
    | none => .folder entries

end Node

/-! ### Walks -/

def Entries.fileNames (entries : Entries) : List String :=
  (entries.toList.filter fun (_, node) => !node.isFolder).map (·.1)

mutual

/-- The files below a folder in walk order: first those directly in it, then those below each of
its folders. Each file comes with the path of its folder. Folders whose name is not kept are not
entered. -/
def Node.walk (keep : String → Bool) (path : String) : Node → List (String × String)
  | .file _ => []
  | .folder entries =>
    entries.fileNames.map (path, ·) ++ entries.walkFolders keep path

def Entries.walkFolders (keep : String → Bool) (path : String) : Entries → List (String × String)
  | .nil => []
  | .cons name node rest =>
    (if keep name then node.walk keep (Path.join path name) else [])
      ++ rest.walkFolders keep path

end

mutual

/-- Everything below a node: the place of each file with its content, and the place of each
folder. -/
def Node.inventory (place : List String) : Node → List (List String × Option (List UInt8))
  | .file content => [(place, some content)]
  | .folder entries => (place, none) :: entries.inventory place

def Entries.inventory (place : List String) :
    Entries → List (List String × Option (List UInt8))
  | .nil => []
  | .cons name node rest => node.inventory (place ++ [name]) ++ rest.inventory place

end

end ApkWorkshop
