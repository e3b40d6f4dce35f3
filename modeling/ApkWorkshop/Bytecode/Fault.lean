import ApkWorkshop.Text.Quoted
import ApkWorkshop.Text.Utf8

/-!
# Faults of bytecode and listings

Everything that can be wrong with an instruction word, a compiled chunk or an assembly listing,
as causes. `Fault.message?` is the one place where a cause gets its wording; causes that are
fully described by their kind have none.
-/

namespace ApkWorkshop.Bytecode

open Text

/-- What can be wrong with bytecode or a listing of it. -/
inductive Fault
  | unknownOperation
  /-- An instruction refers to a constant that the function does not have. -/
  | constantOutOfRange
  | fieldRefused (value : Nat)
  /-- The last two fields of an operation with one operand are not both zero. -/
  | fieldsRefused (b c : Nat)
  /-- The name of a global is not a text; the position of the constant is kept. -/
  | globalNotText (position : Int)
  | spacedMethod (name : String)
  | methodNotText
  /-- A list is filled by an instruction whose block number stands in the next word. -/
  | blockInNextWord (c : Nat)
  | notAnInstruction
  | operandNotNumber
  | unknownMnemonic
  | operandCount (operands : List Int)
  | badHeader (found : List UInt8)
  | shortRead
  | missingTag
  | unknownTag (tag : UInt8)
  | badTruth (byte : UInt8)
  | emptyText
  | unterminatedText (found : List UInt8)
  | badText (fault : Utf8Fault)
  | noInstructions
  /-- The last instruction of a function is not the plain return. -/
  | noFinalReturn (word : Nat)
  | brokenLoop
  | notForward (source target : Int)
  | outsideFunction
  /-- The file name does not have the ending that is asked for. -/
  | wrongEnding (ending name : String)
  | noFileName
  | usageShown
  | badFunctionLine (line : String)
  | badConstantLine (line : String)
  | strayLine (line : String)
  | noInstruction
  | badLiteral
  | unknownName
  /-- The parameters of a function are a single value that cannot be spread. -/
  | parametersNotList
  | outOfRecord
  | constantRefused
  | unencodable
  /-- The listing ends before all announced functions; the shown counts are still open. -/
  | openFunctions (shown : List String)
deriving DecidableEq

def Fault.message? : Fault → Option String
  | .fieldRefused value => decimal value
  | .fieldsRefused b c => parenthesized [decimal b, decimal c]
  | .globalNotText position => decimalInt position
  | .spacedMethod name => name
  | .blockInNextWord c => bracketed [decimal c, quoted
      "If C is 0, the next instruction is cast as an integer, and used as the C value"]
  | .operandCount operands => bracketed (operands.map decimalInt)
  | .badHeader found => quotedBytes found
  | .unknownTag tag => bracketed [decimal tag.toNat]
  | .badTruth byte => decimal byte.toNat
  | .unterminatedText found => quotedBytes found
  | .noFinalReturn word => decimal word
  | .brokenLoop => ""
  | .notForward source target => bracketed [decimalInt source, decimalInt target]
  | .wrongEnding ending name =>
    "Имя файла должно заканчиваться на " ++ ending ++ ": " ++ name
  | .usageShown => "0"
  | .badFunctionLine line => bracketed [quoted "ERROR FUNC:", quoted line]
  | .badConstantLine line => bracketed [quoted "ERROR CONST:", quoted line]
  | .strayLine line => bracketed [quoted line]
  | .openFunctions shown => bracketed shown
  | _ => none

end ApkWorkshop.Bytecode
