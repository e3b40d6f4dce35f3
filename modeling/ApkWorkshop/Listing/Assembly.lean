import ApkWorkshop.Bytecode.Chunk
import ApkWorkshop.Bytecode.Word
import ApkWorkshop.Listing.Literal

/-!
# Assembly

A listing is read line by line and the chunk is written along the way. Instructions and constants
of a function are collected until the number of its inner functions is known; then they are
written, followed by that number. A stack holds, for every function that is open, how many inner
functions are still to come: a function whose count reaches zero gets its three empty debug
records and is closed, which counts as one inner function of the function around it.

What a line is follows from its first characters. Labels and numbers in front of constants are
not looked at, nor is what stands left of the last ` ; ` on a code line. What stands for a value is
an expression, and an `Evaluator` says what it comes to on its line.
-/

namespace ApkWorkshop.Listing

open Bytecode
open Text

/-- An open function: how many inner functions are still to come, and how that is shown. -/
structure OpenFunction where
  left : Nat
  shown : String
deriving DecidableEq

/-- The state of an assembly: the bytes written, the instructions and constants of the current
function, and the open functions, the innermost first. -/
structure Assembling where
  written : List UInt8 := []
  code : List Nat := []
  constants : List Constant := []
  levels : List OpenFunction := []
deriving DecidableEq

abbrev Assembly := ExceptT Fault (StateM Assembling)

def writeBytes (bytes : List UInt8) : Assembly Unit :=
  modify fun a => { a with written := a.written ++ bytes }

/-! ### Lines -/

def beforeLast? (pattern : List Char) : List Char → Option (List Char)
  | [] => none
  | c :: cs =>
    match beforeLast? pattern cs with
    | some before => some (c :: before)
    | none => if pattern.isPrefixOf (c :: cs) then some [] else none

def behind? (start cs : List Char) : Option (List Char) :=
  if start.isPrefixOf cs then some (cs.drop start.length) else none

def isLabelChar (c : Char) : Bool :=
  c == ':' || isDigit c || c == ' ' || c == ','

def functionParameters? (line : List Char) : Option (List Char) := do
  let rest ← behind? "FUNC [".toList line
  guard ((rest.takeWhile isLabelChar) ≠ [])
  let rest ← behind? "] (".toList (rest.dropWhile isLabelChar)
  let parameters ← beforeLast? ") ;; ".toList rest
  guard (parameters ≠ [])
  return parameters

def constantValue? (line : List Char) : Option (List Char) := do
  let rest ← behind? "CONST ".toList line
  guard ((rest.takeWhile isDigit) ≠ [])
  let value ← behind? [' '] (rest.dropWhile isDigit)
  guard (value ≠ [])
  return value

/-- The instruction on a code line: what stands behind the last semicolon, which has spaces on
both sides. -/
def codeOf? (line : List Char) : Option (List Char) := do
  let before ← beforeLast? [';'] line
  guard (before.getLast? = some ' ')
  let after := line.drop (before.length + 1)
  guard (after.head? = some ' ')
  let code := after.dropWhile (· == ' ')
  guard (instructionHere? code).isSome
  return code

def holds (pattern : List Char) : List Char → Bool
  | [] => pattern.isEmpty
  | c :: cs => pattern.isPrefixOf (c :: cs) || holds pattern cs

/-! ### Values -/

def Scalar.whole? : Scalar → Option Int
  | .whole n => some n
  | .truth b => some (if b then 1 else 0)
  | _ => Option.none

def Scalar.shown : Scalar → String
  | .truth b => truthText b
  | .whole n => decimalInt n
  | _ => ""

def fitting (limit : Nat) (s : Scalar) : Except Fault Nat :=
  match s.whole? with
  | some n => if 0 ≤ n ∧ n < limit then .ok n.toNat else .error .outOfRecord
  | Option.none => .error .outOfRecord

def parametersOf : Literal → Except Fault Parameters
  | .list [firstLine, lastLine, upvalues, parameters, varArg, registers] => do
    return {
      firstLine := ← fitting 0x100000000 firstLine
      lastLine := ← fitting 0x100000000 lastLine
      upvalues := ← fitting 0x100 upvalues
      parameters := ← fitting 0x100 parameters
      varArg := ← fitting 0x100 varArg
      registers := ← fitting 0x100 registers }
  | .list _ => .error .outOfRecord
  | .single (.text _) | .single .brokenText => .error .outOfRecord
  | .single _ => .error .parametersNotList

/-- The constant of a literal; the numbers zero and one count as truth values. -/
def constantOf : Literal → Except Fault Constant
  | .single .none => .ok .nil
  | .single (.truth b) => .ok (.truth b)
  | .single (.real x) => .ok (.number x)
  | .single (.text cs) => .ok (.text (String.ofList cs))
  | .single .brokenText => .error .unencodable
  | .single (.whole n) =>
    if n = 0 then .ok (.truth false)
    else if n = 1 then .ok (.truth true)
    else .error .constantRefused
  | _ => .error .constantRefused

/-! ### Expressions -/

/-- What expressions come to: the value of a text that stands on a line. -/
class Evaluator where
  evaluate (line text : List Char) : Except Fault Literal

export Evaluator (evaluate)

/-- Literals stand for themselves, and the word `line` for the line that it stands on. -/
instance : Evaluator where
  evaluate line text :=
    match parseLiteral? text with
    | some (.single (.name word)) =>
      if word = "line".toList then .ok (.single (.text line)) else .error .unknownName
    | _ => readLiteral text

/-! ### Steps -/

variable [Evaluator]

def emptyDebug : List UInt8 :=
  encodeDebug {}

def OpenFunction.countDown (f : OpenFunction) : OpenFunction :=
  ⟨f.left - 1, decimal (f.left - 1)⟩

/-- Close the innermost function if nothing is to come in it, and then the functions around it as
far as they are finished too. -/
def closeFinished (f : OpenFunction) : List OpenFunction → List UInt8 × List OpenFunction
  | [] => if f.left = 0 then (emptyDebug, []) else ([], [f])
  | outer :: above =>
    if f.left = 0 then
      let (bytes, levels) := closeFinished outer.countDown above
      (emptyDebug ++ bytes, levels)
    else ([], f :: outer :: above)

def takeFunction (line : List Char) : Assembly Unit := do
  let some text := functionParameters? line | throw (.badFunctionLine (String.ofList line))
  let parameters ← parametersOf (← evaluate line text)
  writeBytes (encodeText none ++ encodeParameters parameters)

def takeConstant (line : List Char) : Assembly Unit := do
  let some text := constantValue? line | throw (.badConstantLine (String.ofList line))
  let constant ← constantOf (← evaluate line text)
  modify fun a => { a with constants := a.constants ++ [constant] }

/-- The line with the number of inner functions, which ends the code of a function. -/
def takeCount (line : List Char) : Assembly Unit := do
  let literal ← evaluate line (line.drop "FUNCS_NUM: ".toList.length)
  let a ← get
  writeBytes (encodeList encodeWord a.code)
  writeBytes (encodeList encodeConstant a.constants)
  modify fun a => { a with code := [], constants := [] }
  let .single scalar := literal | throw .outOfRecord
  let count ← fitting 0x100000000 scalar
  writeBytes (encodeWord count)
  let (bytes, levels) := closeFinished ⟨count, scalar.shown⟩ (← get).levels
  writeBytes bytes
  modify fun a => { a with levels := levels }

def takeCode (line : List Char) : Assembly Unit := do
  let some text := codeOf? line | throw .noInstruction
  let read ← readInstruction text
  if 0 ≤ read.word ∧ read.word < 0x100000000 then
    modify fun a => { a with code := a.code ++ [read.word.toNat] }
  else throw .outOfRecord

/-- The kinds of lines. -/
inductive LineKind
  | function
  | constant
  | count
  | comment
  | code
  | blank
  | stray
deriving DecidableEq

def lineKind (line : List Char) : LineKind :=
  if "FUNC ".toList.isPrefixOf line then .function
  else if "CONST ".toList.isPrefixOf line then .constant
  else if "FUNCS_NUM: ".toList.isPrefixOf line then .count
  else if (trimStart line).head? = some '#' then .comment
  else if holds " ; ".toList line then .code
  else if line.isEmpty then .blank
  else .stray

def takeLine (line : List Char) : Assembly Unit :=
  match lineKind line with
  | .function => takeFunction line
  | .constant => takeConstant line
  | .count => takeCount line
  | .comment | .blank => pure ()
  | .code => takeCode line
  | .stray => throw (.strayLine (String.ofList line))

def takeLines (lines : List (List Char)) : Assembly Unit := do
  writeBytes chunkHeader
  lines.forM fun line => takeLine (trimEnd line)
  let a ← get
  if !a.levels.isEmpty then throw (.openFunctions (a.levels.reverse.map (·.shown)))

/-- Assemble a listing: the bytes written, and the fault that ended the work, if there was one. -/
def assemble (listing : List Char) : Except Fault Unit × List UInt8 :=
  let (result, a) := (takeLines (lines (unifyNewlines listing))).run {} |>.run
  (result, a.written)

/-- Assemble the bytes of a listing file. The header is written before the text is looked at. -/
def assembleBytes (bytes : List UInt8) : Except Fault Unit × List UInt8 :=
  match decodeChars bytes with
  | .ok listing => assemble listing
  | .error fault => (.error (.badText fault), chunkHeader)

end ApkWorkshop.Listing
