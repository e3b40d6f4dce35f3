import ApkWorkshop.Files.Files
import ApkWorkshop.Listing.Assembly
import ApkWorkshop.Listing.Disassembly

/-!
# Commands on listings

The two commands on files: one writes the listing of a chunk, the other writes the chunk of a
listing. A command changes the file system, writes to the console and ends well or with a fault;
what it wrote before a fault stays.
-/

namespace ApkWorkshop.Listing

open Bytecode
open Text

/-- Why a command ends early. -/
inductive CommandFault
  | bytecode (fault : Fault)
  | file (fault : FileFault)
deriving DecidableEq

/-- What a command leaves behind. -/
structure CommandResult where
  files : Files
  console : String := ""
  fault : Option CommandFault := none

def splitTail (count : Nat) (name : String) : String × String :=
  let cs := name.toList
  (String.ofList (cs.take (cs.length - count)), String.ofList (cs.drop (cs.length - count)))

def disassembleUsage : String :=
  "usage:  disasm_lu.py  [-c] [-d] [-x] [-C]  filename.lu  [filename_out|-]\n"
    ++ "-c -- to show constants (required for future assemble)\n-d -- enable debugging\n"
    ++ "-x -- include hex code\n-C -- concise output\n"

def optionsOf (args : List String) : Options where
  constants := args.contains "-c"
  trace := args.contains "-d"
  hexadecimal := args.contains "-x"
  concise := args.contains "-C"

/-- Write the listing of a chunk file. The listing goes to the second name, to the console if that
is `-`, or else to the name of the chunk with the ending of listings. The output is opened, and so
emptied, before the chunk is read. -/
def disassembleCommand (files : Files) (args : List String) : CommandResult :=
  let names := args.filter fun s => s ∉ ["-c", "-d", "-x", "-C"]
  match names with
  | [] => { files, console := disassembleUsage, fault := some (.bytecode .usageShown) }
  | input :: rest =>
    let (stem, tail) := splitTail 3 input
    if tail ≠ ".lu" then { files, fault := some (.bytecode (.wrongEnding ".lu" input)) }
    else
      match files.read input with
      | .error fault => { files, fault := some (.file fault) }
      | .ok _ =>
        let output := match rest with
          | [] => stem ++ ".asm"
          | name :: _ => name
        let onConsole := !rest.isEmpty && output == "-"
        let opened := if onConsole then .ok files else files.write output []
        match opened with
        | .error fault => { files, fault := some (.file fault) }
        | .ok emptied =>
          let bytes := (emptied.read input).toOption.getD []
          let outcome := disassemble (optionsOf args) onConsole bytes
          let written :=
            if onConsole then emptied
            else (emptied.write output (encode outcome.listing)).toOption.getD emptied
          { files := written
            console := outcome.console
            fault := match outcome.result with
              | .ok _ => none
              | .error fault => some (.bytecode fault) }

/-- Write the chunk of a listing file, to the second name or else to the name of the listing with
the ending of chunks. -/
def assembleCommand (files : Files) (args : List String) : CommandResult :=
  match args with
  | [] => { files, fault := some (.bytecode .noFileName) }
  | input :: rest =>
    let (stem, tail) := splitTail 4 input
    if tail ≠ ".asm" then { files, fault := some (.bytecode (.wrongEnding ".asm" input)) }
    else
      match files.read input with
      | .error fault => { files, fault := some (.file fault) }
      | .ok _ =>
        let output := match rest with
          | [] => stem ++ ".lu"
          | name :: _ => name
        match files.write output [] with
        | .error fault => { files, fault := some (.file fault) }
        | .ok emptied =>
          let (result, bytes) := assembleBytes ((emptied.read input).toOption.getD [])
          { files := (emptied.write output bytes).toOption.getD emptied
            fault := match result with
              | .ok _ => none
              | .error fault => some (.bytecode fault) }

end ApkWorkshop.Listing
