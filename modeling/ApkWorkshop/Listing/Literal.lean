import ApkWorkshop.Bytecode.Fault
import ApkWorkshop.Number.Double
import ApkWorkshop.Text.WordChar

/-!
# Literals

The values that a listing spells out: numbers, quoted texts, the three words `None`, `True` and
`False`, and lists of such values with commas between them. Reading has two steps. The text is
parsed as a whole, so that a malformed text is found first; then a name is refused.
-/

namespace ApkWorkshop.Listing

open Bytecode
open Text

/-- A single value. A text with a surrogate in it has no encoding and is kept apart. -/
inductive Scalar
  | none
  | truth (b : Bool)
  | whole (n : Int)
  | real (x : Double)
  | text (cs : List Char)
  | brokenText
  | name (word : List Char)
deriving DecidableEq

/-- A value or a list of values. -/
inductive Literal
  | single (s : Scalar)
  | list (items : List Scalar)
deriving DecidableEq

/-! ### Quoted texts -/

def hexValue? (c : Char) : Option Nat :=
  if '0' ≤ c ∧ c ≤ '9' then some (c.toNat - 48)
  else if 'a' ≤ c ∧ c ≤ 'f' then some (c.toNat - 87)
  else if 'A' ≤ c ∧ c ≤ 'F' then some (c.toNat - 55)
  else Option.none

/-- The number spelled by a given count of hexadecimal digits, and what follows them. -/
def hexDigits? : Nat → Nat → List Char → Option (Nat × List Char)
  | 0, n, cs => some (n, cs)
  | _ + 1, _, [] => Option.none
  | k + 1, n, c :: cs => (hexValue? c).bind fun d => hexDigits? k (16 * n + d) cs

/-- The number spelled by at most so many octal digits, and what follows them. -/
def octalDigits : Nat → Nat → List Char → Nat × List Char
  | k + 1, n, c :: cs =>
    if '0' ≤ c ∧ c ≤ '7' then octalDigits k (8 * n + (c.toNat - 48)) cs else (n, c :: cs)
  | _, n, cs => (n, cs)

def isSurrogate (n : Nat) : Bool :=
  0xD800 ≤ n && n < 0xE000

/-- The code point behind a backslash, and what follows it. An unknown letter stands for the
backslash itself and is read again as a character of its own. Names of characters are refused. -/
def escape? : List Char → Option (Nat × List Char)
  | [] => Option.none
  | 'n' :: cs => some (10, cs)
  | 't' :: cs => some (9, cs)
  | 'r' :: cs => some (13, cs)
  | 'a' :: cs => some (7, cs)
  | 'b' :: cs => some (8, cs)
  | 'f' :: cs => some (12, cs)
  | 'v' :: cs => some (11, cs)
  | '\\' :: cs => some (92, cs)
  | '\'' :: cs => some (39, cs)
  | '"' :: cs => some (34, cs)
  | 'x' :: cs => hexDigits? 2 0 cs
  | 'u' :: cs => hexDigits? 4 0 cs
  | 'U' :: cs => (hexDigits? 8 0 cs).filter fun (n, _) => n < 0x110000
  | 'N' :: _ => Option.none
  | c :: cs =>
    if '0' ≤ c ∧ c ≤ '7' then some (octalDigits 3 0 (c :: cs)) else some (92, c :: cs)

/-- The code points up to the closing quotes, and what follows them. Every step takes at least one
character, so the length of the text bounds their number. -/
def quotedBody? (quotes : List Char) : Nat → List Char → Option (List Nat × List Char)
  | 0, _ => Option.none
  | _ + 1, [] => Option.none
  | fuel + 1, c :: cs =>
    if quotes.isPrefixOf (c :: cs) then some ([], (c :: cs).drop quotes.length)
    else
      let step := if c = '\\' then escape? cs else some (c.toNat, cs)
      step.bind fun (n, rest) =>
        (quotedBody? quotes fuel rest).map fun (ns, after) => (n :: ns, after)

def Scalar.ofCodePoints (ns : List Nat) : Scalar :=
  if ns.any isSurrogate then .brokenText else .text (ns.map Char.ofNat)

def Scalar.append : Scalar → Scalar → Scalar
  | .text a, .text b => .text (a ++ b)
  | _, _ => .brokenText

/-! ### Numbers -/

def leadingDigits (cs : List Char) : List Char × List Char :=
  (cs.takeWhile Char.isDigit, cs.dropWhile Char.isDigit)

def digitsNumber (cs : List Char) : Nat :=
  cs.foldl (fun n c => 10 * n + (c.toNat - 48)) 0

def exponentPart (cs : List Char) : Int × Bool × List Char :=
  match cs with
  | 'e' :: rest | 'E' :: rest =>
    let (negative, rest) := match rest with
      | '-' :: r => (true, r)
      | '+' :: r => (false, r)
      | r => (false, r)
    let (digits, after) := leadingDigits rest
    if digits.isEmpty then (0, false, cs)
    else
      let n : Int := digitsNumber digits
      (if negative then -n else n, true, after)
  | _ => (0, false, cs)

/-- A number without sign. A whole number does not begin with a zero unless it is zero. -/
def number? (cs : List Char) : Option (Scalar × List Char) :=
  let (whole, rest) := leadingDigits cs
  let (fraction, pointed, rest) := match rest with
    | '.' :: r => ((leadingDigits r).1, true, (leadingDigits r).2)
    | r => ([], false, r)
  if whole.isEmpty && fraction.isEmpty then Option.none
  else
    let (exponent, scaled, rest) := exponentPart rest
    if pointed || scaled then
      some (.real (Double.ofDecimal false (digitsNumber (whole ++ fraction))
        (exponent - fraction.length)), rest)
    else if whole.head? != some '0' || whole.all (· == '0') then
      some (.whole (digitsNumber whole), rest)
    else Option.none

def Scalar.negated : Scalar → Option Scalar
  | .whole n => some (.whole (-n))
  | .real x => some (.real x.neg)
  | .truth b => some (.whole (if b then -1 else 0))
  | .name _ => some (.name [])
  | _ => Option.none

/-! ### Values -/

def reservedWords : List String :=
  ["False", "None", "True", "and", "as", "assert", "async", "await", "break", "class", "continue",
    "def", "del", "elif", "else", "except", "finally", "for", "from", "global", "if", "import",
    "in", "is", "lambda", "nonlocal", "not", "or", "pass", "raise", "return", "try", "while",
    "with", "yield"]

def word? (cs : List Char) : Option Scalar :=
  if cs = "None".toList then some .none
  else if cs = "True".toList then some (.truth true)
  else if cs = "False".toList then some (.truth false)
  else if reservedWords.contains (String.ofList cs) then Option.none
  else some (.name cs)

def skipSpaces (cs : List Char) : List Char :=
  match cs.dropWhile fun c => c == ' ' || c == '\t' with
  | '#' :: _ => []
  | rest => rest

/-- The quotes that a quoted text begins and ends with: one, or three of a kind. -/
def quotesAt (c : Char) (rest : List Char) : List Char :=
  if [c, c].isPrefixOf rest then [c, c, c] else [c]

def atom? (cs : List Char) : Option (Scalar × List Char) :=
  match cs with
  | [] => Option.none
  | c :: rest =>
    if c = '\'' || c = '"' then
      let quotes := quotesAt c rest
      (quotedBody? quotes (cs.length + 1) (cs.drop quotes.length)).map fun (ns, after) =>
        (Scalar.ofCodePoints ns, after)
    else if c.isDigit || c = '.' then
      (number? cs).filter fun (_, after) => !(after.head?.any isWordChar)
    else if isWordChar c && !isDigit c then
      (word? (cs.takeWhile isWordChar)).map fun s => (s, cs.dropWhile isWordChar)
    else Option.none

def moreTexts? : Nat → Scalar → List Char → Option (Scalar × List Char)
  | 0, _, _ => Option.none
  | fuel + 1, s, cs =>
    match skipSpaces cs with
    | c :: rest =>
      if c = '\'' || c = '"' then
        (atom? (c :: rest)).bind fun (t, after) => moreTexts? fuel (s.append t) after
      else some (s, c :: rest)
    | [] => some (s, [])

/-- A value with any signs before it, and what follows it and the spaces behind it. -/
def item? : Nat → List Char → Option (Scalar × List Char)
  | 0, _ => Option.none
  | fuel + 1, cs =>
    match skipSpaces cs with
    | '-' :: rest => (item? fuel rest).bind fun (s, after) => s.negated.map fun t => (t, after)
    | '+' :: rest => (item? fuel rest).bind fun (s, after) =>
      (s.negated.bind Scalar.negated).map fun t => (t, after)
    | rest =>
      match atom? rest with
      | some (.text a, after) => moreTexts? (after.length + 1) (.text a) after
      | some (.brokenText, after) => moreTexts? (after.length + 1) .brokenText after
      | some (s, after) => some (s, skipSpaces after)
      | Option.none => Option.none

def moreItems? : Nat → List Char → Option (List Scalar)
  | 0, _ => Option.none
  | fuel + 1, cs =>
    match skipSpaces cs with
    | [] => some []
    | rest =>
      (item? (rest.length + 1) rest).bind fun (s, after) =>
        match after with
        | [] => some [s]
        | ',' :: more => (moreItems? fuel more).map (s :: ·)
        | _ => Option.none

def parseLiteral? (cs : List Char) : Option Literal :=
  (item? (cs.length + 1) cs).bind fun (s, after) =>
    match after with
    | [] => some (.single s)
    | ',' :: more => (moreItems? (more.length + 1) more).map fun items => .list (s :: items)
    | _ => Option.none

def Scalar.isName : Scalar → Bool
  | .name _ => true
  | _ => false

def Literal.hasName : Literal → Bool
  | .single s => s.isName
  | .list items => items.any Scalar.isName

def readLiteral (cs : List Char) : Except Fault Literal :=
  match parseLiteral? cs with
  | Option.none => .error .badLiteral
  | some literal => if literal.hasName then .error .unknownName else .ok literal

end ApkWorkshop.Listing
