import ApkWorkshop.Document.Value

/-!
# Reading documents

The reader of JSON documents. A fault is located: it knows the place where something else should
have stood. Besides the standard, the words `NaN`, `Infinity` and `-Infinity` are numbers, and of
members with the same name the last one counts.
-/

namespace ApkWorkshop.Document

open Text

/-- What is wrong with a document. -/
inductive Problem
  | value
  | name
  | colon
  | comma
  | extra
  | unterminated
  | control
  | escape
  | unicodeEscape
  | byteOrderMark
deriving DecidableEq

def Problem.text : Problem → String
  | .value => "Expecting value"
  | .name => "Expecting property name enclosed in double quotes"
  | .colon => "Expecting ':' delimiter"
  | .comma => "Expecting ',' delimiter"
  | .extra => "Extra data"
  | .unterminated => "Unterminated string starting at"
  | .control => "Invalid control character at"
  | .escape => "Invalid \\escape"
  | .unicodeEscape => "Invalid \\uXXXX escape"
  | .byteOrderMark => "Unexpected UTF-8 BOM (decode using utf-8-sig)"

/-- A problem and how many characters of the document were left where it was found. -/
structure Trouble where
  problem : Problem
  left : Nat
deriving DecidableEq

/-- A located problem: line and column count from one, the place in the text from zero. -/
structure Fault where
  problem : Problem
  line : Nat
  column : Nat
  place : Nat
deriving DecidableEq

def Fault.message (f : Fault) : String :=
  f.problem.text ++ ": line " ++ decimal f.line ++ " column " ++ decimal f.column
    ++ " (char " ++ decimal f.place ++ ")"

def Trouble.locate (cs : List Char) (t : Trouble) : Fault :=
  let place := cs.length - t.left
  let before := cs.take place
  ⟨t.problem, before.count '\n' + 1, (before.reverse.takeWhile (· != '\n')).length + 1, place⟩

def fail {α : Type} (problem : Problem) (cs : List Char) : Except Trouble α :=
  .error ⟨problem, cs.length⟩

def skipBlanks (cs : List Char) : List Char :=
  cs.dropWhile fun c => c == ' ' || c == '\t' || c == '\n' || c == '\r'

/-! ### Texts -/

def hexDigit? (c : Char) : Option Nat :=
  if '0' ≤ c ∧ c ≤ '9' then some (c.toNat - 48)
  else if 'a' ≤ c ∧ c ≤ 'f' then some (c.toNat - 87)
  else if 'A' ≤ c ∧ c ≤ 'F' then some (c.toNat - 55)
  else none

def unit? : List Char → Option Nat
  | a :: b :: c :: d :: _ => do
    return 4096 * (← hexDigit? a) + 256 * (← hexDigit? b) + 16 * (← hexDigit? c) + (← hexDigit? d)
  | _ => none

/-- The character of a unit without partner; a lone surrogate is no character and is replaced. -/
def unitChar (n : Nat) : Char :=
  if 0xD800 ≤ n ∧ n < 0xE000 then '�' else Char.ofNat n

/-- The character behind `\u`, and what follows it. The escape must be followed by another
character, since the text has to be closed. -/
def unicodeEscape (cs : List Char) : Except Trouble (Char × List Char) :=
  -- the place of the fault is the letter behind the backslash
  let trouble : Trouble := ⟨.unicodeEscape, cs.length + 1⟩
  if cs.length ≤ 4 then .error trouble
  else match unit? cs with
    | none => .error trouble
    | some n =>
      let rest := cs.drop 4
      match rest with
      | '\\' :: 'u' :: low =>
        if 0xD800 ≤ n ∧ n < 0xDC00 ∧ 4 < low.length then
          match unit? low with
          | none => .error ⟨.unicodeEscape, low.length + 1⟩
          | some m =>
            if 0xDC00 ≤ m ∧ m < 0xE000 then
              .ok (Char.ofNat (0x10000 + (n - 0xD800) * 0x400 + (m - 0xDC00)), low.drop 4)
            else .ok (unitChar n, rest)
        else .ok (unitChar n, rest)
      | _ => .ok (unitChar n, rest)

/-- The character behind a backslash, and what follows it; `start` is how many characters were
left where the text began. -/
def escape (start : Nat) : List Char → Except Trouble (Char × List Char)
  | [] => .error ⟨.unterminated, start⟩
  | '"' :: cs => .ok ('"', cs)
  | '\\' :: cs => .ok ('\\', cs)
  | '/' :: cs => .ok ('/', cs)
  | 'b' :: cs => .ok (Char.ofNat 8, cs)
  | 'f' :: cs => .ok (Char.ofNat 12, cs)
  | 'n' :: cs => .ok ('\n', cs)
  | 'r' :: cs => .ok ('\r', cs)
  | 't' :: cs => .ok ('\t', cs)
  | 'u' :: cs => unicodeEscape cs
  | _ :: cs => .error ⟨.escape, cs.length + 2⟩

/-- The characters of a text up to its closing quote, and what follows it. Every step takes a
character, so their number bounds the steps. -/
def textBody (start : Nat) : Nat → List Char → Except Trouble (List Char × List Char)
  | 0, _ => .error ⟨.unterminated, start⟩
  | _ + 1, [] => .error ⟨.unterminated, start⟩
  | fuel + 1, c :: cs =>
    if c = '"' then .ok ([], cs)
    else if c = '\\' then do
      let (x, rest) ← escape start cs
      let (xs, after) ← textBody start fuel rest
      return (x :: xs, after)
    else if c.toNat < 32 then fail .control (c :: cs)
    else do
      let (xs, after) ← textBody start fuel cs
      return (c :: xs, after)

def textBehindQuote (cs : List Char) : Except Trouble (String × List Char) := do
  let (xs, after) ← textBody (cs.length + 1) (cs.length + 1) cs
  return (String.ofList xs, after)

/-! ### Numbers -/

def digitsHere (cs : List Char) : List Char × List Char :=
  (cs.takeWhile Char.isDigit, cs.dropWhile Char.isDigit)

def numberOf (cs : List Char) : Nat :=
  cs.foldl (fun n c => 10 * n + (c.toNat - 48)) 0

/-- The fraction of a number, if one stands here: a point and at least one digit. -/
def fractionHere (cs : List Char) : List Char × List Char :=
  match cs with
  | '.' :: rest =>
    let (digits, after) := digitsHere rest
    if digits.isEmpty then ([], cs) else (digits, after)
  | _ => ([], cs)

/-- The exponent of a number, if one stands here: a letter, a sign perhaps, and digits. -/
def exponentHere (cs : List Char) : Option Int × List Char :=
  match cs with
  | [] => (none, cs)
  | c :: rest =>
    if c = 'e' ∨ c = 'E' then
      let (negative, rest) := match rest with
        | '-' :: r => (true, r)
        | '+' :: r => (false, r)
        | r => (false, r)
      let (digits, after) := digitsHere rest
      if digits.isEmpty then (none, cs)
      else
        let n : Int := numberOf digits
        (some (if negative then -n else n), after)
    else (none, cs)

/-- A number behind its sign; `cs` is where the number began. A zero is never followed by digits
of the same number. -/
def numberHere (negative : Bool) (cs unsigned : List Char) : Except Trouble (Value × List Char) :=
  let (run, _) := digitsHere unsigned
  let whole := if run.head? = some '0' then ['0'] else run
  if whole.isEmpty then fail .value cs
  else
    let (fraction, rest) := fractionHere (unsigned.drop whole.length)
    let (exponent, rest) := exponentHere rest
    if fraction.isEmpty && exponent.isNone then
      let n : Int := numberOf whole
      .ok (.whole (if negative then -n else n), rest)
    else
      .ok (.real (Double.ofDecimal negative (numberOf (whole ++ fraction))
        (exponent.getD 0 - fraction.length)), rest)

/-! ### Values -/

def wordHere? (word : String) (v : Value) (cs : List Char) : Option (Value × List Char) :=
  if word.toList.isPrefixOf cs then some (v, cs.drop word.length) else none

def scalarHere (cs : List Char) : Except Trouble (Value × List Char) :=
  let words := [("null", Value.null), ("true", .truth true), ("false", .truth false),
    ("NaN", .real Double.nan), ("Infinity", .real (Double.infinity false)),
    ("-Infinity", .real (Double.infinity true))]
  match words.findSome? fun (word, v) => wordHere? word v cs with
  | some found => .ok found
  | none =>
    match cs with
    | '-' :: rest => numberHere true cs rest
    | _ => numberHere false cs cs

mutual

/-- A value. Every call takes a character or is the last, so their number bounds the calls. -/
def value : Nat → List Char → Except Trouble (Value × List Char)
  | 0, cs => fail .value cs
  | fuel + 1, cs =>
    match cs with
    | '"' :: rest => do
      let (s, after) ← textBehindQuote rest
      return (.text s, after)
    | '[' :: rest =>
      match skipBlanks rest with
      | ']' :: after => .ok (.list [], after)
      | rest => do
        let (items, after) ← items fuel rest
        return (.list items, after)
    | '{' :: rest =>
      match skipBlanks rest with
      | '}' :: after => .ok (.object [], after)
      | rest => do
        let (pairs, after) ← members fuel rest
        return (.object (collectMembers pairs), after)
    | _ => scalarHere cs

def items : Nat → List Char → Except Trouble (List Value × List Char)
  | 0, cs => fail .value cs
  | fuel + 1, cs => do
    let (v, rest) ← value fuel cs
    match skipBlanks rest with
    | ']' :: after => return ([v], after)
    | ',' :: more =>
      let (vs, after) ← items fuel (skipBlanks more)
      return (v :: vs, after)
    | other => fail .comma other

def members : Nat → List Char → Except Trouble (List (String × Value) × List Char)
  | 0, cs => fail .name cs
  | fuel + 1, cs =>
    match cs with
    | '"' :: rest => do
      let (name, rest) ← textBehindQuote rest
      match skipBlanks rest with
      | ':' :: rest =>
        let (v, rest) ← value fuel (skipBlanks rest)
        match skipBlanks rest with
        | '}' :: after => return ([(name, v)], after)
        | ',' :: more =>
          let (pairs, after) ← members fuel (skipBlanks more)
          return ((name, v) :: pairs, after)
        | other => fail .comma other
      | other => fail .colon other
    | other => fail .name other

end

def readChars (cs : List Char) : Except Fault Value :=
  if cs.head? = some '﻿' then .error (Trouble.locate cs ⟨.byteOrderMark, cs.length⟩)
  else match value (cs.length + 1) (skipBlanks cs) with
    | .error trouble => .error (trouble.locate cs)
    | .ok (v, rest) =>
      match skipBlanks rest with
      | [] => .ok v
      | other => .error (Trouble.locate cs ⟨.extra, other.length⟩)

def read (s : String) : Except Fault Value :=
  readChars s.toList

end ApkWorkshop.Document
