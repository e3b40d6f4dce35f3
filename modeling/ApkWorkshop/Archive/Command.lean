import ApkWorkshop.Archive.Packing
import ApkWorkshop.Archive.Unpacking

/-!
# The archive command

The command packs a folder or unpacks an archive. It starts with nothing remembered. The facts
about the package can be asked for one by one.
-/

namespace ApkWorkshop.Archive

def usage : List String := [
  "Usage: ",
  "\tpacking:\tcorona-archiver.py -p 'input_dir' 'output_file'",
  "\tunpacking:\tcorona-archiver.py -u 'input_file' 'output_dir'"]

/-- The command with its arguments. Folders are taken with a slash at their end. -/
def command : List String → Work Unit
  | [method, input, output] =>
    if method = "-p" then pack (Path.join input "") output
    else if method = "-u" then unpack input (Path.join output "")
    else say "Invalid method"
  | _ => do
    usage.forM say
    throw .usageShown

def packageFacts : List (String × String) := [
  ("--name", "CoronaArchiver"),
  ("--version", "1.1"),
  ("--fullname", "CoronaArchiver-1.1"),
  ("--description", "Corona archive file packer/unpacker"),
  ("--author", "0BuRner"),
  ("--url", "https://github.com/0BuRner/corona-archiver")]

def packageLines (options : List String) : String :=
  String.join (options.filterMap fun option => (packageFacts.lookup option).map (· ++ "\n"))

end ApkWorkshop.Archive
