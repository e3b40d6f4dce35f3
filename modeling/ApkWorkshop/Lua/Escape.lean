import ApkWorkshop.Text.Search
import ApkWorkshop.Text.Utf8

/-!
# Byte escapes in Lua text

Compiled Lua text keeps the bytes of its strings as escapes: a backslash and one to three decimal
digits. Reading a text splits it into escapes and other characters; decoding puts the bytes of
both behind each other and reads the whole as UTF-8.
-/

namespace ApkWorkshop.Lua

open Text

/-- A piece of a text: an escape with its number, or a character that stands for itself. -/
inductive Piece
  | escape (number : Nat)
  | plain (c : Char)
deriving DecidableEq

/-- Why the escapes of a text cannot be decoded. -/
inductive EscapeFault
  | noByte
  | badText (fault : Utf8Fault)
deriving DecidableEq

def EscapeFault.message : EscapeFault → String
  | .noByte => "bytes must be in range(0, 256)"
  | .badText fault => fault.message

/-- The pieces of a text. An escape takes as many digits as it finds, at most three. -/
def pieces : List Char → List Piece
  | [] => []
  | '\\' :: d₁ :: r₁ =>
    match digitValue? d₁ with
    | none => .plain '\\' :: pieces (d₁ :: r₁)
    | some a =>
      match r₁ with
      | [] => [.escape a]
      | d₂ :: r₂ =>
        match digitValue? d₂ with
        | none => .escape a :: pieces (d₂ :: r₂)
        | some b =>
          match r₂ with
          | [] => [.escape (10 * a + b)]
          | d₃ :: r₃ =>
            match digitValue? d₃ with
            | none => .escape (10 * a + b) :: pieces (d₃ :: r₃)
            | some c => .escape (100 * a + 10 * b + c) :: pieces r₃
  | c :: rest => .plain c :: pieces rest

namespace Piece

def isEscape : Piece → Bool
  | .escape _ => true
  | .plain _ => false

def bytes : Piece → Except EscapeFault (List UInt8)
  | .escape n => if n < 256 then .ok [n.toUInt8] else .error .noByte
  | .plain c => .ok (encodeChar c)

end Piece

def bytesOfPieces : List Piece → Except EscapeFault (List UInt8)
  | [] => .ok []
  | piece :: rest => do
    let first ← piece.bytes
    let others ← bytesOfPieces rest
    return first ++ others

def textOfPieces (ps : List Piece) : Except EscapeFault (List Char) := do
  let bytes ← bytesOfPieces ps
  match decodeChars bytes with
  | .ok cs => .ok cs
  | .error fault => .error (.badText fault)

def decodeEscapes (cs : List Char) : Except EscapeFault (List Char) :=
  textOfPieces (pieces cs)

/-- The text of the escapes that a text begins with; what stands behind them is dropped. -/
def decodeLeadingEscapes (cs : List Char) : Except EscapeFault (List Char) :=
  textOfPieces ((pieces cs).takeWhile Piece.isEscape)

/-! ### Assigned strings -/

def opening : List Char := " = \"".toList

def startsWithFullEscape : List Char → Bool
  | '\\' :: a :: b :: c :: _ => isDigit a && isDigit b && isDigit c
  | _ => false

def escapePairAhead : List Char → Bool
  | [] => false
  | c :: rest =>
    (startsWithFullEscape (c :: rest) && startsWithFullEscape (rest.drop 3)) ||
      (c != '\n' && escapePairAhead rest)

/-- Does an assigned string with two neighbouring full escapes stand in the line? -/
def holdsEscapedString : List Char → Bool
  | [] => false
  | c :: rest =>
    (opening.isPrefixOf (c :: rest) && escapePairAhead (rest.drop 3)) || holdsEscapedString rest

/-- A line in which the escapes are decoded if it assigns an escaped string. -/
def decodeLine (line : List Char) : Except EscapeFault (List Char) :=
  if holdsEscapedString line then decodeEscapes line else .ok line

/-- The escapes at the start of a line that assigns an escaped string; any other line as it is. -/
def decodeLineStart (line : List Char) : Except EscapeFault (List Char) :=
  if holdsEscapedString line then decodeLeadingEscapes line else .ok line

/-- The body of an assigned string that begins here, and what follows its closing quote. A body is
never empty. -/
def assigned? (cs : List Char) : Option (List Char × List Char) :=
  if opening.isPrefixOf cs then
    let inside := cs.drop 4
    match inside.takeWhile (· != '"'), inside.dropWhile (· != '"') with
    | c :: body, _ :: rest => some (c :: body, rest)
    | _, _ => none
  else none

theorem length_of_assigned? {cs body rest : List Char} (h : assigned? cs = some (body, rest)) :
    rest.length < cs.length := by
  unfold assigned? at h
  split at h
  · dsimp only at h
    split at h
    · rename_i c b q r _ hr
      injection h with h
      injection h with _ h
      subst h
      have hlen : ((cs.drop 4).dropWhile (· != '"')).length ≤ (cs.drop 4).length :=
        List.Sublist.length_le (List.dropWhile_sublist _)
      rw [hr] at hlen
      simp only [List.length_cons, List.length_drop] at hlen
      omega
    · contradiction
  · contradiction

def decodeAssigned (cs : List Char) : Except EscapeFault (List Char) :=
  match h : assigned? cs with
  | some (body, rest) =>
    have : rest.length < cs.length := length_of_assigned? h
    do
      let decoded ← decodeEscapes body
      let others ← decodeAssigned rest
      return opening ++ decoded ++ '"' :: others
  | none =>
    match cs with
    | [] => .ok []
    | c :: rest => (decodeAssigned rest).map (c :: ·)
termination_by cs.length

end ApkWorkshop.Lua
