import ApkWorkshop.Files.Node
import ApkWorkshop.Text.Quoted

/-!
# A file system

A tree of files seen from a working folder, with the operations programs use and the faults they
meet. A path is followed name by name through folders that exist; what stands at its end decides
what each operation can do.
-/

namespace ApkWorkshop

open Text

/-- Why an operation on a path is refused. -/
inductive FileFault
  | missing (path : String)
  | occupied (path : String)
  | notFolder (path : String)
  | isFolder (path : String)
  | sameFile (source target : String)
  | taken (path : String)
  | zeroByte
deriving DecidableEq

def FileFault.message : FileFault → String
  | .missing path => "[Errno 2] No such file or directory: " ++ quoted path
  | .occupied path => "[Errno 17] File exists: " ++ quoted path
  | .notFolder path => "[Errno 20] Not a directory: " ++ quoted path
  | .isFolder path => "[Errno 21] Is a directory: " ++ quoted path
  | .sameFile source target => quoted source ++ " and " ++ quoted target ++ " are the same file"
  | .taken path => "Destination path '" ++ path ++ "' already exists"
  | .zeroByte => "embedded null byte"

/-- A tree of files and the place of the working folder. -/
structure Files where
  root : Node
  home : List String

/-- What a path leads to. -/
inductive Spot
  | found (place : List String) (node : Node)
  /-- The folder exists and nothing has this name in it; the path may end with a slash. -/
  | vacant (place : List String) (slash : Bool)
  | missing
  | blocked
  | refused

def follow (root : Node) (place : List String) : List String → Spot
  | [] =>
    match root.get? place with
    | some node => .found place node
    | none => .missing
  | part :: rest =>
    match root.get? place with
    | none => .missing
    | some (.file _) => .blocked
    | some (.folder entries) =>
      if part = "" || part = "." then follow root place rest
      else if part = ".." then follow root place.dropLast rest
      else if (entries.get? part).isSome then follow root (place ++ [part]) rest
      else if rest.all (· == "") then .vacant (place ++ [part]) (!rest.isEmpty)
      else .missing

namespace Files

def locate (f : Files) (path : String) : Spot :=
  if path.toList.contains (Char.ofNat 0) then .refused
  else if path = "" then .missing
  else follow f.root (if Path.isAbsolute path then [] else f.home) (Path.parts path)

def lost (path : String) : Spot → FileFault
  | .blocked => .notFolder path
  | .refused => .zeroByte
  | _ => .missing path

def exists? (f : Files) (path : String) : Bool :=
  match f.locate path with
  | .found _ _ => true
  | _ => false

def isFolder (f : Files) (path : String) : Bool :=
  match f.locate path with
  | .found _ (.folder _) => true
  | _ => false

def isFile (f : Files) (path : String) : Bool :=
  match f.locate path with
  | .found _ (.file _) => true
  | _ => false

def read (f : Files) (path : String) : Except FileFault (List UInt8) :=
  match f.locate path with
  | .found _ (.file content) => .ok content
  | .found _ (.folder _) => .error (.isFolder path)
  | spot => .error (lost path spot)

def locateBare (f : Files) (path : String) : Spot :=
  f.locate (String.ofList (Path.bare path.toList))

/-- Write a file, which is made or replaced. A path that ends with a slash can only be a folder. -/
def write (f : Files) (path : String) (content : List UInt8) : Except FileFault Files :=
  match f.locateBare path with
  | .found place (.file _) | .vacant place _ =>
    if Path.endsWith path "/" then .error (.isFolder path)
    else .ok { f with root := f.root.put place (.file content) }
  | .found _ (.folder _) => .error (.isFolder path)
  | spot => .error (lost path spot)

def makeFolder (f : Files) (path : String) : Except FileFault Files :=
  match f.locateBare path with
  | .found _ _ => .error (.occupied path)
  | .vacant place _ => .ok { f with root := f.root.put place (.folder .nil) }
  | spot => .error (lost path spot)

def ensureFolder (f : Files) (path : String) : Files × Option FileFault :=
  match f.makeFolder path with
  | .ok made => (made, none)
  | .error fault => if f.isFolder path then (f, none) else (f, some fault)

/-- Make the folder at a path and all folders above it; a folder that is there already is kept.
What was made before a fault stays. The path gets shorter with every step up, so its length bounds
their number. -/
def makeFoldersFuel : Nat → Files → String → Files × Option FileFault
  | 0, f, path => (f, some (.missing path))
  | fuel + 1, f, path =>
    let trimmed := if Path.name path = "" then Path.folder path else path
    let above := Path.folder trimmed
    let last := Path.name trimmed
    if above ≠ "" && last ≠ "" && !f.exists? above then
      match makeFoldersFuel fuel f above with
      | (f, none) | (f, some (.occupied _)) => if last = "." then (f, none) else f.ensureFolder path
      | stopped => stopped
    else f.ensureFolder path

/-- Make the folder at a path and all folders above it, as far as that goes. -/
def makeFolders (f : Files) (path : String) : Files × Option FileFault :=
  makeFoldersFuel (path.length + 1) f path

def removeFile (f : Files) (path : String) : Except FileFault Files :=
  match f.locate path with
  | .found place (.file _) => .ok { f with root := f.root.remove place }
  | .found _ (.folder _) => .error (.isFolder path)
  | spot => .error (lost path spot)

def emptied (f : Files) (place : List String) : Files :=
  { f with root := f.root.put place (.folder .nil) }

def removeTree (f : Files) (path : String) : Except FileFault Files :=
  match f.locate path with
  | .found place (.folder _) => .ok { f with root := f.root.remove place }
  | .found _ (.file _) => .error (.notFolder path)
  | spot => .error (lost path spot)

def list (f : Files) (path : String) : Except FileFault (List String) :=
  match f.locate path with
  | .found _ (.folder entries) => .ok entries.names
  | .found _ (.file _) => .error (.notFolder path)
  | spot => .error (lost path spot)

/-- The files below a folder in walk order, with the paths of their folders; a path that is no
folder has none. -/
def walk (f : Files) (keep : String → Bool) (path : String) : List (String × String) :=
  match f.locate path with
  | .found _ node => node.walk keep path
  | _ => []

def samePlace (f : Files) (a b : String) : Bool :=
  match f.locate a, f.locate b with
  | .found p _, .found q _ => p == q
  | _, _ => false

def copy (f : Files) (source target : String) : Except FileFault Files := do
  let target := if f.isFolder target then Path.join target (Path.name source) else target
  if f.samePlace source target then throw (.sameFile source target)
  f.write target (← f.read source)

/-- Move a file over whatever file has the new path; into a folder under its own name. -/
def move (f : Files) (source target : String) : Except FileFault Files := do
  let inside := Path.join target (Path.name source)
  if f.isFolder target && f.exists? inside then throw (.taken inside)
  let target := if f.isFolder target then inside else target
  if f.isFolder source then
    match f.locate source, f.locate target with
    | .found place node, .vacant free _ =>
      return { f with root := (f.root.remove place).put free node }
    | _, spot => throw (lost target spot)
  let moved ← f.write target (← f.read source)
  if f.samePlace source target then return moved
  moved.removeFile source

/-- Put a file or, for no content, a folder at a path, making the folders above it. -/
def supply (f : Files) (path : String) (content : Option (List UInt8)) : Except FileFault Files :=
  match content with
  | none => .ok (f.makeFolders path).1
  | some bytes =>
    let above := Path.folder path
    (if above = "" then f else (f.makeFolders above).1).write path bytes

/-- Everything below the working folder, by path from there; the working folder itself is left
out. -/
def inventory (f : Files) : List (String × Option (List UInt8)) :=
  match f.root.get? f.home with
  | some (.folder entries) =>
    (entries.inventory []).map fun (place, content) => (joinWith "/" place, content)
  | _ => []

end Files

end ApkWorkshop
