import ApkWorkshop.Text.Numeral

/-!
# Paths

Paths as texts: joining, cutting into folder and name, the ending of a name, and the way from one
folder to another. Names are divided by `/`, and a path that begins with `/` starts at the root.
-/

namespace ApkWorkshop.Path

open Text

def isAbsolute (path : String) : Bool :=
  path.toList.head? == some '/'

def join (first second : String) : String :=
  if isAbsolute second then second
  else if first = "" || first.toList.getLast? == some '/' then first ++ second
  else first ++ "/" ++ second

def joinAll (first : String) (rest : List String) : String :=
  rest.foldl join first

/-- The characters up to and including the last `/`, and the characters behind it. -/
def cut (cs : List Char) : List Char × List Char :=
  let name := (cs.reverse.takeWhile (· != '/')).reverse
  (cs.take (cs.length - name.length), name)

def bare (path : List Char) : List Char :=
  if path.all (· == '/') then path else (path.reverse.dropWhile (· == '/')).reverse

/-- The folder of a path, without the slashes that end it unless it is nothing else. -/
def folder (path : String) : String :=
  String.ofList (bare (cut path.toList).1)

def name (path : String) : String :=
  String.ofList (cut path.toList).2

/-- A path without the ending of its name, and that ending with its dot. Dots at the front of a
name begin no ending. -/
def splitEnding (path : String) : String × String :=
  let (head, last) := cut path.toList
  let dots := last.takeWhile (· == '.')
  let rest := last.dropWhile (· == '.')
  let ending := rest.reverse.takeWhile (· != '.')
  if rest.contains '.' then
    let kept := rest.take (rest.length - ending.length - 1)
    (String.ofList (head ++ dots ++ kept), String.ofList ('.' :: ending.reverse))
  else (path, "")

def withoutEnding (path : String) : String :=
  (splitEnding path).1

def ending (path : String) : String :=
  (splitEnding path).2

def endsWith (s suffix : String) : Bool :=
  suffix.toList.isSuffixOf s.toList

def startsWith (s start : String) : Bool :=
  start.toList.isPrefixOf s.toList

/-- The parts of a text between slashes; `part` is the one being read, last character first. -/
def partsFrom (part : List Char) : List Char → List String
  | [] => [String.ofList part.reverse]
  | '/' :: cs => String.ofList part.reverse :: partsFrom [] cs
  | c :: cs => partsFrom (c :: part) cs

def parts (path : String) : List String :=
  partsFrom [] path.toList

def simplify (names : List String) : List String :=
  names.foldl (fun way part =>
    if part = "" || part = "." then way
    else if part = ".." then way.dropLast
    else way ++ [part]) []

/-- The names on the way from the root to a path seen from a working folder. -/
def absolute (home : List String) (path : String) : List String :=
  if isAbsolute path then simplify (parts path) else simplify (home ++ parts path)

def ofNames (names : List String) : String :=
  "/" ++ joinWith "/" names

def shared : List String → List String → Nat
  | a :: as, b :: bs => if a = b then shared as bs + 1 else 0
  | _, _ => 0

def relative (home : List String) (path start : String) : String :=
  let source := absolute home start
  let target := absolute home path
  let common := shared source target
  let way := List.replicate (source.length - common) ".." ++ target.drop common
  if way.isEmpty then "." else joinWith "/" way

end ApkWorkshop.Path
