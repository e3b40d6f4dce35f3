import ApkWorkshop.Files.Path
import ApkWorkshop.Text.Search

/-!
# Versions in file names

The version of an application is looked for in the name of its file: numbers divided by dots, a
number behind `ver`, a date, two numbers divided by an underscore, and last a year. Each form is
looked for in the whole name before the next one is tried, and the first place counts.
-/

namespace ApkWorkshop.VersionName

open Text

def digits? (cs : List Char) : Option (List Char × List Char) :=
  match cs.takeWhile isDigit with
  | [] => none
  | d :: ds => some (d :: ds, cs.dropWhile isDigit)

def digitCount? (count : Nat) (cs : List Char) : Option (List Char × List Char) :=
  let ds := cs.take count
  if ds.length = count && ds.all isDigit then some (ds, cs.drop count) else none

def isDivider (c : Char) : Bool :=
  c == '.' || c == '_' || c == '-'

def divider (cs : List Char) : List Char × List Char :=
  match cs with
  | c :: rest => if isDivider c then ([c], rest) else ([], cs)
  | [] => ([], [])

def dotDigits? (cs : List Char) : Option (List Char × List Char) :=
  match cs with
  | '.' :: rest => (digits? rest).map fun (ds, more) => ('.' :: ds, more)
  | _ => none

/-- Dots with digits behind them, as many as there are. A dot is at least one character, so the
length of the text bounds their number. -/
def dotDigitsAll : Nat → List Char → List Char
  | 0, _ => []
  | fuel + 1, cs =>
    match dotDigits? cs with
    | some (part, more) => part ++ dotDigitsAll fuel more
    | none => []

def dotted? (cs : List Char) : Option (List Char) := do
  let (first, rest) ← digits? cs
  let (second, rest) ← dotDigits? rest
  match dotDigits? rest with
  | some (third, _) => return first ++ second ++ third
  | none => return first ++ second

/-- Numbers divided by dots behind `ve` or `ver`, in any case, and a divider. -/
def marked? (cs : List Char) : Option (List Char) :=
  match cs with
  | v :: e :: rest =>
    if v.toLower == 'v' && e.toLower == 'e' then
      let rest := match rest with
        | r :: more => if r.toLower == 'r' then more else rest
        | [] => []
      let (_, rest) := divider rest
      (digits? rest).map fun (ds, more) => ds ++ dotDigitsAll more.length more
    else none
  | _ => none

def date? (cs : List Char) : Option (List Char) := do
  let (year, rest) ← digitCount? 4 cs
  let (mark₁, rest) := divider rest
  let (month, rest) ← digitCount? 2 rest
  let (mark₂, rest) := divider rest
  let (day, _) ← digitCount? 2 rest
  return year ++ mark₁ ++ month ++ mark₂ ++ day

def underscored? (cs : List Char) : Option (List Char) := do
  let (first, rest) ← digits? cs
  match rest with
  | '_' :: more =>
    let (second, _) ← digits? more
    return first ++ '.' :: second
  | _ => none

def year? (cs : List Char) : Option (List Char) :=
  (digitCount? 4 cs).map (·.1)

def find? (name : String) : Option String :=
  let cs := name.toList
  ([dotted?, marked?, date?, underscored?, year?].findSome? fun form =>
    firstRead? form cs).map String.ofList

/-- The version that a file name stands for: the one written in it, or else the name without its
ending. -/
def ofFile (name : String) : String :=
  (find? name).getD (Path.withoutEnding name)

/-- The version of a file name, with a note if none is written in the name. -/
def ofFileNoted (name : String) : String × List String :=
  match find? name with
  | some version => (version, [])
  | none =>
    let stem := Path.withoutEnding name
    (stem, ["⚠️ Version not found in filename, using: " ++ stem])

end ApkWorkshop.VersionName
