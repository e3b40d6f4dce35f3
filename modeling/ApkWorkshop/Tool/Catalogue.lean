import ApkWorkshop.Tool.Car
import ApkWorkshop.Tool.Compiler
import ApkWorkshop.Tool.Decoder
import ApkWorkshop.Tool.Decompiler
import ApkWorkshop.Tool.PackApk
import ApkWorkshop.Tool.Script
import ApkWorkshop.Tool.UnpackApk
import ApkWorkshop.Tool.Versions

/-!
# The catalogue of tools

Settings bind buttons to tools by name. Some names stand for bases of tools only, which lack
operations and cannot be started.
-/

namespace ApkWorkshop.Tool

def maker? (name : String) : Option (String → Job Nat) :=
  match name with
  | "UnAPK" => some UnpackApk.create
  | "Pack" => some PackApk.create
  | "GenerateKeystore" => some KeyForms.create
  | "KeystoreManager" => some KeyStore.create
  | "VersionManager" => some Versions.create
  | "deCAR" => some fun file => Tool.create file .unpackCar
  | "ToCAR" => some fun file => Tool.create file .packCar
  | "Unluac" => some fun file => Decompiler.create file .inputToOutput
  | "Unluac_All" => some fun file => Decompiler.create file .luToLua
  | "LuacBase" => some fun file => Compiler.create file none
  | "Luac" => some fun file => Compiler.create file (some .inputToOutput)
  | "Luac_All" => some fun file => Compiler.create file (some .editingToLu)
  | "UTF8Decoder_LUA_to_UTF8" => some fun file => Decoder.create file .luaToUtf8
  | "UTF8Decoder_EDITING_to_UTF8" => some fun file => Decoder.create file .editingToUtf8
  | "UTF8Decoder_INPUT_to_OUTPUT" => some fun file => Decoder.create file .inputToOutput
  | "ASMLu" => some Script.createAssembler
  | "DisASMLu" => some Script.createDisassembler
  | _ => none

def missingOperations? (name : String) : Option (List String) :=
  match name with
  | "BaseTool" | "DRTool" | "APKTool" => some ["message", "run"]
  | "UnluacBase" | "UTF8Decoder" => some ["get_input_output_paths"]
  | "CLScript" => some ["run"]
  | _ => none

def createNamed (name file : String) : Job Nat :=
  match maker? name with
  | some create => create file
  | none =>
    match missingOperations? name with
    | some missing => throw (.incompleteTool name missing)
    | none => throw (.unknownTool name)

def createBound (name : Value) (file : String) : Job Nat :=
  match name with
  | .text s => createNamed s file
  | v => throw (.badCall ("attribute name must be string, not '" ++ v.kind ++ "'"))

def setLog (id : Nat) (sink : Sink) : Job Unit := do
  match (← byNumber id).part with
  | .keyStore .. => KeyStore.setLog id sink
  | _ => update id fun t => { t with log := sink }

def setProgress (id : Nat) (sink : Sink) : Job Unit :=
  update id fun t => { t with progress := sink }

def listen (id : Nat) (event : String) (handler : Handler) : Job Unit :=
  update id fun t => { t with handlers := t.handlers ++ [(event, handler)] }

def run (id : Nat) : Job Unit := do
  match (← byNumber id).part with
  | .unpackApk .. => UnpackApk.run id
  | .packApk .. => PackApk.run id
  | .generator .. => KeyForms.run id
  | .keyStore .. => KeyStore.run id
  | .versions .. => Versions.run id
  | .unpackCar => Car.unpack id
  | .packCar => Car.pack id
  | .decompiler .. => Decompiler.run id
  | .compiler .. => Compiler.run id
  | .decoder .. => Decoder.run id
  | .assembler .. => Script.assemble id
  | .disassembler .. => Script.disassemble id

def message (id : Nat) : Job String := do
  let tool ← byNumber id
  match tool.part with
  | .generator .. => return "Keystore generation completed"
  | .keyStore .. => KeyStore.message id
  | .versions .. => Versions.message id
  | _ => return tool.report

end ApkWorkshop.Tool
