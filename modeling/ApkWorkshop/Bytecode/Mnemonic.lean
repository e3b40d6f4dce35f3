/-!
# Operations of the virtual machine

The 38 operations of Lua 5.1 in the order of their numbers, the name each has in a listing, and
the format of its operands.
-/

namespace ApkWorkshop.Bytecode

/-- An operation of the virtual machine. -/
inductive Mnemonic
  | move | loadK | loadBool | loadNil | getUpvalue | getGlobal
  | getTable | setGlobal | setUpvalue | setTable | newTable | self
  | add | sub | mul | div | mod | pow | negate | not | length | concat
  | jump | equal | less | lessEqual | test | testSet | call | tailCall | return_
  | forLoop | forPrep | forIn | setList | close | closure | varArg
deriving DecidableEq

/-- Which fields of a word an operation uses as operands: `B` and `C` are registers or constants,
`Bx` is a number beside `A`, and `sBx` is such a number with a sign. -/
inductive Format
  | abc
  | ac
  | ab
  | a
  | abx
  | asbx
  | sbx
deriving DecidableEq

namespace Mnemonic

def all : List Mnemonic := [
  .move, .loadK, .loadBool, .loadNil, .getUpvalue, .getGlobal,
  .getTable, .setGlobal, .setUpvalue, .setTable, .newTable, .self,
  .add, .sub, .mul, .div, .mod, .pow, .negate, .not, .length, .concat,
  .jump, .equal, .less, .lessEqual, .test, .testSet, .call, .tailCall, .return_,
  .forLoop, .forPrep, .forIn, .setList, .close, .closure, .varArg]

def name : Mnemonic → String
  | .move => "Move"
  | .loadK => "LoadK"
  | .loadBool => "LoadBool"
  | .loadNil => "LoadNIL"
  | .getUpvalue => "GetUPVal"
  | .getGlobal => "GetGlobal"
  | .getTable => "GetTable"
  | .setGlobal => "SetGlobal"
  | .setUpvalue => "SetUPVal"
  | .setTable => "SetTable"
  | .newTable => "NewTable"
  | .self => "Self"
  | .add => "Add"
  | .sub => "Sub"
  | .mul => "Mul"
  | .div => "Div"
  | .mod => "Mod"
  | .pow => "Pow"
  | .negate => "UnM"
  | .not => "NOT"
  | .length => "Len"
  | .concat => "Concat"
  | .jump => "jmp"
  | .equal => "EQ"
  | .less => "LT"
  | .lessEqual => "LE"
  | .test => "Test"
  | .testSet => "TestSet"
  | .call => "Call"
  | .tailCall => "TailCall"
  | .return_ => "Return"
  | .forLoop => "ForLoop"
  | .forPrep => "ForPrep"
  | .forIn => "TForLoop"
  | .setList => "SetList"
  | .close => "Close"
  | .closure => "Closure"
  | .varArg => "VARarg"

def format : Mnemonic → Format
  | .move | .loadNil | .getUpvalue | .setUpvalue | .negate | .not | .length
  | .return_ | .tailCall | .varArg => .ab
  | .loadBool | .getTable | .setTable | .newTable | .self
  | .add | .sub | .mul | .div | .mod | .pow | .concat
  | .equal | .less | .lessEqual | .testSet | .call | .setList => .abc
  | .loadK | .getGlobal | .setGlobal | .closure => .abx
  | .test | .forIn => .ac
  | .forLoop | .forPrep => .asbx
  | .jump => .sbx
  | .close => .a

def number (m : Mnemonic) : Nat :=
  all.idxOf m

def ofNumber? (n : Nat) : Option Mnemonic :=
  all[n]?

def ofName? (s : String) : Option Mnemonic :=
  all.find? fun m => m.name == s

end Mnemonic

end ApkWorkshop.Bytecode
