import ApkWorkshop.Bytecode.Constant
import ApkWorkshop.Text.Utf8

/-!
# Compiled chunks

A chunk is a header and one function; a function has a source name, six parameters, instruction
words, constants, inner functions and debug records. This module has the tree and its encoding in
the chunk format: numbers are little-endian words of four bytes, and a text is a length, its bytes
and a zero byte, the length counting the zero byte; a missing text has length zero.
-/

namespace ApkWorkshop.Bytecode

open Text

def chunkHeader : List UInt8 :=
  [0x1b, 0x4c, 0x75, 0x61, 0x51, 0x00, 0x01, 0x04, 0x04, 0x04, 0x08, 0x00]

def plainReturn : Nat := 8388638

/-- The six numbers at the head of a function. -/
structure Parameters where
  firstLine : Nat
  lastLine : Nat
  upvalues : Nat
  parameters : Nat
  varArg : Nat
  registers : Nat
deriving DecidableEq

/-- A local variable: its name and the instructions where it is in scope. -/
structure LocalVariable where
  name : Option String
  first : Nat
  stop : Nat
deriving DecidableEq

/-- The debug records of a function. -/
structure DebugRecords where
  lines : List Nat := []
  locals : List LocalVariable := []
  upvalues : List (Option String) := []
deriving DecidableEq

/-- A function of a chunk with its inner functions. -/
inductive Function
  | mk (source : Option String) (parameters : Parameters) (code : List Nat)
      (constants : List Constant) (inner : List Function) (debug : DebugRecords)

/-! ### Encoding -/

def encodeWord (n : Nat) : List UInt8 :=
  [n.toUInt8, (n / 0x100).toUInt8, (n / 0x10000).toUInt8, (n / 0x1000000).toUInt8]

def encodeText : Option String → List UInt8
  | none => encodeWord 0
  | some s =>
    let bytes := encode s ++ [0]
    encodeWord bytes.length ++ bytes

def encodeDouble (x : Double) : List UInt8 :=
  let n := x.bits.toNat
  encodeWord (n % 0x100000000) ++ encodeWord (n / 0x100000000)

def encodeConstant : Constant → List UInt8
  | .nil => [0]
  | .absent => 4 :: encodeText none
  | .truth b => [1, if b then 1 else 0]
  | .number x => 3 :: encodeDouble x
  | .text s => 4 :: encodeText (some s)

def encodeParameters (p : Parameters) : List UInt8 :=
  encodeWord p.firstLine ++ encodeWord p.lastLine ++
    [p.upvalues.toUInt8, p.parameters.toUInt8, p.varArg.toUInt8, p.registers.toUInt8]

def encodeList {α : Type} (record : α → List UInt8) (items : List α) : List UInt8 :=
  encodeWord items.length ++ items.flatMap record

def encodeDebug (d : DebugRecords) : List UInt8 :=
  encodeList encodeWord d.lines
    ++ encodeList (fun v => encodeText v.name ++ encodeWord v.first ++ encodeWord v.stop) d.locals
    ++ encodeList encodeText d.upvalues

mutual

def Function.encode : Function → List UInt8
  | .mk source parameters code constants inner debug =>
    encodeText source ++ encodeParameters parameters ++ encodeList encodeWord code
      ++ encodeList encodeConstant constants ++ encodeWord inner.length ++ encodeAll inner
      ++ encodeDebug debug

def encodeAll : List Function → List UInt8
  | [] => []
  | f :: rest => f.encode ++ encodeAll rest

end

def encodeChunk (main : Function) : List UInt8 :=
  chunkHeader ++ main.encode

end ApkWorkshop.Bytecode
