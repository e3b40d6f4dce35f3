import ApkWorkshop.Bytecode.Fault
import ApkWorkshop.Bytecode.Mnemonic
import ApkWorkshop.Text.WordChar

/-!
# Instruction words

An instruction is one word: six bits of operation number, eight bits for `A`, nine bits each for
`C` and `B`, where the eighteen bits of `C` and `B` together are also the number `Bx`. A word has
a canonical line, the name of its operation and its operands in decimal, and a line is read back
into a word. Words are whole numbers without bound; reading fields takes the bits at their places,
and writing adds up shifted operands without looking at their size.
-/

namespace ApkWorkshop.Bytecode

open Text

/-- The fields of an instruction word. -/
structure Fields where
  a : Nat
  b : Nat
  c : Nat
  bx : Int
deriving DecidableEq

def jumpBias : Int := 131071

def operationNumber (w : Int) : Nat :=
  (w % 0x40).toNat

def Fields.ofWord (w : Int) : Fields where
  a := (w / 0x40 % 0x100).toNat
  b := (w / 0x800000 % 0x200).toNat
  c := (w / 0x4000 % 0x200).toNat
  bx := w / 0x4000

def Fields.sbx (f : Fields) : Int :=
  f.bx - jumpBias

/-! ### From words to lines -/

def operandText (n : Nat) : String :=
  if 256 ≤ n then "#" ++ decimal (n - 256) else decimal n

/-- The operands of a format as they stand on a line. Fields that the format does not use must be
zero. -/
def operandTexts (f : Fields) : Format → Except Fault (List String)
  | .abc => .ok [decimal f.a, operandText f.b, operandText f.c]
  | .ac => if f.b = 0 then .ok [decimal f.a, operandText f.c] else .error (.fieldRefused f.b)
  | .ab => if f.c = 0 then .ok [decimal f.a, operandText f.b] else .error (.fieldRefused f.c)
  | .a => if f.b = 0 ∧ f.c = 0 then .ok [decimal f.a] else .error (.fieldsRefused f.b f.c)
  | .abx => .ok [decimal f.a, decimalInt f.bx]
  | .asbx => .ok [decimal f.a, decimalInt f.sbx]
  | .sbx => if f.a = 0 then .ok [decimalInt f.sbx] else .error (.fieldRefused f.a)

def Mnemonic.line (m : Mnemonic) (w : Int) : Except Fault String := do
  let operands ← operandTexts (Fields.ofWord w) m.format
  return m.name ++ "  " ++ joinWith " " operands

/-! ### From lines to words -/

def packWord (number : Nat) (operands : List Int) : Format → Except Fault Int
  | .abc => match operands with
    | [a, b, c] => .ok (number + a * 0x40 + b * 0x800000 + c * 0x4000)
    | _ => .error (.operandCount operands)
  | .ac => match operands with
    | [a, c] => .ok (number + a * 0x40 + c * 0x4000)
    | _ => .error (.operandCount operands)
  | .ab => match operands with
    | [a, b] => .ok (number + a * 0x40 + b * 0x800000)
    | _ => .error (.operandCount operands)
  | .a => match operands with
    | [a] => .ok (number + a * 0x40)
    | _ => .error (.operandCount operands)
  | .abx => match operands with
    | [a, bx] => .ok (number + a * 0x40 + bx * 0x4000)
    | _ => .error (.operandCount operands)
  | .asbx => match operands with
    | [a, sbx] => .ok (number + a * 0x40 + (sbx + jumpBias) * 0x4000)
    | _ => .error (.operandCount operands)
  | .sbx => match operands with
    | [sbx] => .ok (number + (sbx + jumpBias) * 0x4000)
    | _ => .error (.operandCount operands)

def isOperandChar (c : Char) : Bool :=
  isDigit c || c == ' ' || c == '#' || c == '-'

/-- The name and the operands of an instruction that begins here and fills the rest of the text. -/
def instructionHere? (cs : List Char) : Option (List Char × List Char) :=
  let name := cs.takeWhile isWordChar
  let rest := cs.dropWhile isWordChar
  let operands := rest.dropWhile (· == ' ')
  if name ≠ [] ∧ rest.head? = some ' ' ∧ operands ≠ [] ∧ operands.all isOperandChar then
    some (name, operands)
  else none

def findInstruction? : List Char → Option (List Char × List Char)
  | [] => none
  | c :: cs => (instructionHere? (c :: cs)).or (findInstruction? cs)

/-- The parts of a text between runs of spaces; `part` is the one being read, last character
first. -/
def splitSpaces (part : List Char) : List Char → List (List Char)
  | [] => if part.isEmpty then [] else [part.reverse]
  | ' ' :: cs => if part.isEmpty then splitSpaces [] cs else part.reverse :: splitSpaces [] cs
  | c :: cs => splitSpaces (c :: part) cs

def readOperand : List Char → Except Fault Int
  | '#' :: cs => match readInteger? cs with
    | some n => .ok (n + 256)
    | none => .error .operandNotNumber
  | cs => match readInteger? cs with
    | some n => .ok n
    | none => .error .operandNotNumber

/-- An instruction read from a line: its name and operands, and the word they make. -/
structure ReadLine where
  name : String
  operands : List Int
  word : Int
deriving DecidableEq

def readInstruction (cs : List Char) : Except Fault ReadLine := do
  let some (name, rest) := findInstruction? (trim cs) | throw .notAnInstruction
  let operands ← (splitSpaces [] rest).mapM readOperand
  let some m := Mnemonic.ofName? (String.ofList name) | throw .unknownMnemonic
  let word ← packWord m.number operands m.format
  return ⟨String.ofList name, operands, word⟩

def ReadLine.trace (r : ReadLine) : String :=
  "debug: " ++ r.name ++ " " ++ bracketed (r.operands.map decimalInt) ++ " " ++ hexInt r.word

/-- Two lines whose words are known, read and traced; the last line tells that both came out. -/
def selfTest : Except Fault String := do
  let first ← readInstruction " GetTable  0   0 #3   ".toList
  let second ← readInstruction "   jmp -6  ".toList
  if first.word = 0x40c006 ∧ second.word = 0x7ffe4016 then
    return first.trace ++ "\n" ++ second.trace ++ "\nOk.\n"
  else throw .brokenLoop

end ApkWorkshop.Bytecode
