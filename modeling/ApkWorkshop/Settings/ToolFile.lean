import ApkWorkshop.Files.Path
import ApkWorkshop.Text.Lowercase
import ApkWorkshop.Text.Search

/-!
# Recognising the files of external programs

A file is taken for an external program if its ending is the expected one and its name holds one
of the words that the program is known by. Programs without such words are known by their ending
alone.
-/

namespace ApkWorkshop.Settings

open Text

def programWords : List (String × List String) := [
  ("java", ["java"]),
  ("apktool", ["apktool"]),
  ("apksigner", ["apksigner"]),
  ("zipalign", ["zipalign"]),
  ("unluac", ["unluac"]),
  ("corona-archiver", ["corona", "archiver"])]

def isProgramFile (program file usual : String) : Bool :=
  let wanted := lower (Path.ending usual)
  if wanted ≠ "" && lower (Path.ending file) ≠ wanted then false
  else
    match programWords.lookup program with
    | some known => known.any fun word => holds (lower file) word
    | none => true

end ApkWorkshop.Settings
