import ApkWorkshop.Bytecode.Constant
import ApkWorkshop.Bytecode.Word
import ApkWorkshop.Position

/-!
# Descriptions of instructions

What an instruction does, in words a reader of a listing follows, together with its canonical line
and the way it can move the program counter. Constants are looked up and shown; fields that the
operation does not allow are refused.
-/

namespace ApkWorkshop.Bytecode

open Text

/-- How an instruction can move the program counter. -/
inductive Flow
  | straight
  | skipNext
  | jump
  | branch
  | forStart
  | forEnd
  | forIn
deriving DecidableEq

def Flow.label : Flow → String
  | .straight => ""
  | .skipNext => "LoadB1"
  | .jump => "jmp"
  | .branch => "if"
  | .forStart => "FORStart"
  | .forEnd => "FORend"
  | .forIn => "TFor"

/-- An instruction in words: description, canonical line, flow and distance of the jump. -/
structure Description where
  text : String
  line : String
  flow : Flow := .straight
  distance : Int := 0
deriving DecidableEq

def register (n : Nat) : String :=
  "r" ++ decimal n

def registers (first stop : Nat) : List String :=
  (List.range' first (stop - first)).map register

def constantAt (constants : List Constant) (position : Int) : Except Fault Constant :=
  match Position.get? constants position with
  | some k => .ok k
  | none => .error .constantOutOfRange

/-- A register, or a constant with quotes, from an operand that can be either. -/
def operandShown (constants : List Constant) (n : Nat) : Except Fault String :=
  if n < 256 then .ok (register n)
  else return (← constantAt constants (n - 256 : Nat)).shown

def globalName (constants : List Constant) (position : Int) : Except Fault String := do
  match ← constantAt constants position with
  | .text s => return s
  | _ => throw (.globalNotText position)

/-- A text as a key: behind a point, or in square brackets when it holds a space. -/
def textKey (s : String) : String :=
  if s.toList.contains ' ' then "[" ++ s ++ "]" else "." ++ s

def constantKey : Constant → String
  | .text s => textKey s
  | k => "[" ++ k.plain ++ "]"

def readKey (constants : List Constant) (n : Nat) : Except Fault String :=
  if n < 256 then .ok (textKey (register n))
  else return constantKey (← constantAt constants (n - 256 : Nat))

/-- The key of a table that is written; a text that is not printable is quoted first. -/
def writeKey (constants : List Constant) (n : Nat) : Except Fault String :=
  if n < 256 then .ok (textKey (register n))
  else do
    match ← constantAt constants (n - 256 : Nat) with
    | .text s => return textKey (if s.toList.all isPrintable then s else quoted s)
    | k => return constantKey k

def methodName (constants : List Constant) (n : Nat) : Except Fault String :=
  if n < 256 then .ok (register n)
  else do
    match ← constantAt constants (n - 256 : Nat) with
    | .text s => if s.toList.contains ' ' then throw (.spacedMethod s) else return s
    | _ => throw .methodNotText

def requireBit (n : Nat) : Except Fault Unit :=
  if n < 2 then .ok () else .error (.fieldRefused n)

/-- Sizes of new tables are stored with three bits of mantissa and five bits of exponent. -/
def floatingByte (n : Nat) : Nat :=
  if n / 8 = 0 then n else (8 + n % 8) * Nat.pow 2 (n / 8 - 1)

/-- Registers with commas, or an open list from the first register when the count is open. -/
def registerList (isOpen : Bool) (first stop : Nat) : String :=
  if isOpen then register first ++ "..." else joinWith ", " (registers first stop)

def describeArithmetic (sign : String) (f : Fields) (ks : List Constant) :
    Except Fault (String × Flow × Int) := do
  let b ← operandShown ks f.b
  let c ← operandShown ks f.c
  return (register f.a ++ " = " ++ b ++ " " ++ sign ++ " " ++ c, .straight, 0)

def describeUnary (sign : String) (f : Fields) : String × Flow × Int :=
  (register f.a ++ " = " ++ sign ++ register f.b, .straight, 0)

/-- A comparison; its first operand tells which outcome skips the next instruction. -/
def describeComparison (sign opposite : String) (f : Fields) (ks : List Constant) :
    Except Fault (String × Flow × Int) := do
  requireBit f.a
  let b ← operandShown ks f.b
  let c ← operandShown ks f.c
  let shown := if f.a = 0 then sign else opposite
  return ("IF " ++ b ++ " " ++ shown ++ " " ++ c ++ ":  PC++", .branch, 1)

def describe (f : Fields) (ks : List Constant) : Mnemonic → Except Fault (String × Flow × Int)
  | .move => return (register f.a ++ " = " ++ register f.b, .straight, 0)
  | .loadK => return (register f.a ++ " = " ++ (← constantAt ks f.bx).shown, .straight, 0)
  | .loadBool => do
    requireBit f.b
    requireBit f.c
    let skip := if f.c = 0 then "" else ", PC++"
    return (register f.a ++ " = " ++ truthText (f.b == 1) ++ " " ++ skip,
      if f.c = 0 then (.straight, 0) else (.skipNext, 1))
  | .loadNil => return (joinWith " = " (registers f.a (f.b + 1)) ++ " = nil", .straight, 0)
  | .getUpvalue => return (register f.a ++ " = UP[" ++ decimal f.b ++ "]", .straight, 0)
  | .getGlobal => return (register f.a ++ " = <" ++ (← globalName ks f.bx) ++ ">", .straight, 0)
  | .getTable => do
    let key ← readKey ks f.c
    return (register f.a ++ " = " ++ register f.b ++ key, .straight, 0)
  | .setGlobal => return ("<" ++ (← globalName ks f.bx) ++ "> = " ++ register f.a, .straight, 0)
  | .setUpvalue => return ("UP[" ++ decimal f.b ++ "] = " ++ register f.a, .straight, 0)
  | .setTable => do
    let key ← writeKey ks f.b
    let new ← operandShown ks f.c
    return (register f.a ++ key ++ " = " ++ new, .straight, 0)
  | .newTable =>
    let sizes :=
      if f.b = 0 ∧ f.c = 0 then ""
      else "  " ++ parenthesized [decimal (floatingByte f.b), decimal (floatingByte f.c)]
    return (register f.a ++ " = \x7b\x7d" ++ sizes, .straight, 0)
  | .self => do
    let method ← methodName ks f.c
    return (register f.a ++ ", " ++ register (f.a + 1) ++ " = " ++ register f.b ++ "." ++ method
      ++ ", " ++ register f.b, .straight, 0)
  | .add => describeArithmetic "+" f ks
  | .sub => describeArithmetic "-" f ks
  | .mul => describeArithmetic "*" f ks
  | .div => describeArithmetic "/" f ks
  | .mod => describeArithmetic "%" f ks
  | .pow => describeArithmetic "^" f ks
  | .negate => return describeUnary "-" f
  | .not => return describeUnary "not " f
  | .length => return describeUnary "#" f
  | .concat =>
    return (register f.a ++ " = " ++ joinWith " .. " (registers f.b (f.c + 1)), .straight, 0)
  | .jump => return ("PC += " ++ decimalInt f.sbx, .jump, f.sbx)
  | .equal => describeComparison "==" "!=" f ks
  | .less => describeComparison "< " ">=" f ks
  | .lessEqual => describeComparison "<=" "> " f ks
  | .test => do
    requireBit f.c
    return ("IF" ++ (if f.c = 0 then "" else " not") ++ " " ++ register f.a ++ ":  PC++",
      .branch, 1)
  | .testSet => do
    requireBit f.c
    return ("IF" ++ (if f.c = 0 then "" else " not") ++ " " ++ register f.b ++ ":  PC++  else  "
      ++ register f.a ++ " = " ++ register f.b, .branch, 1)
  | .call =>
    let results :=
      if f.c = 1 then "_" else registerList (f.c == 0) f.a (f.a + f.c - 1)
    let arguments := registerList (f.b == 0) (f.a + 1) (f.a + f.b)
    return (results ++ " = " ++ register f.a ++ "(" ++ arguments ++ ")", .straight, 0)
  | .tailCall =>
    return ("return " ++ register f.a ++ "(" ++ registerList (f.b == 0) (f.a + 1) (f.a + f.b)
      ++ ")", .straight, 0)
  | .return_ =>
    return ("return " ++ registerList (f.b == 0) f.a (f.a + f.b - 1), .straight, 0)
  | .forLoop =>
    return ("FORend " ++ register f.a ++ " += " ++ register (f.a + 2) ++ ",  IF " ++ register f.a
      ++ " <?= " ++ register (f.a + 1) ++ ": \x7b PC += " ++ decimalInt f.sbx ++ ", "
      ++ register (f.a + 3) ++ " = " ++ register f.a ++ " \x7d", .forEnd, f.sbx)
  | .forPrep =>
    return ("FORstart " ++ register f.a ++ " -= " ++ register (f.a + 2) ++ ",  PC += "
      ++ decimalInt f.sbx, .forStart, f.sbx)
  | .forIn =>
    if f.c = 0 then throw (.fieldRefused f.c)
    else
      return ("TFORloop " ++ joinWith ", " (registers (f.a + 3) (f.a + 3 + f.c)) ++ " = "
        ++ register f.a ++ "(" ++ register (f.a + 1) ++ ", " ++ register (f.a + 2) ++ "),  IF "
        ++ register (f.a + 3) ++ " != nil:  " ++ register (f.a + 2) ++ " = "
        ++ register (f.a + 3) ++ "  else  PC++", .forIn, 1)
  | .setList =>
    if f.c = 0 then throw (.blockInNextWord f.c)
    else
      let before := 50 * (f.c - 1)
      let (lastItem, lastRegister) :=
        if f.b = 0 then (".", ".") else (decimal (before + f.b), decimal (f.a + f.b))
      return (register f.a ++ "[" ++ decimal (before + 1) ++ ".." ++ lastItem ++ "] = "
        ++ register (f.a + 1) ++ ".." ++ lastRegister, .straight, 0)
  | .close => return ("CLOSE " ++ register f.a ++ "+", .straight, 0)
  | .closure =>
    return (register f.a ++ " = closure(KPROTO[" ++ decimalInt f.bx ++ "], " ++ register f.a
      ++ ", ...)", .straight, 0)
  | .varArg => return (registerList (f.b == 0) f.a (f.a + f.b) ++ " = ...", .straight, 0)

def Description.ofWord (constants : List Constant) (w : Int) : Except Fault Description := do
  let some m := Mnemonic.ofNumber? (operationNumber w) | throw .unknownOperation
  let line ← m.line w
  let (text, flow, distance) ← describe (Fields.ofWord w) constants m
  return ⟨text, line, flow, distance⟩

end ApkWorkshop.Bytecode
