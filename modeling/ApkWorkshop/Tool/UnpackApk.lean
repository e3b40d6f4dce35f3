import ApkWorkshop.Tool.Base

/-!
# Unpacking a package

The package of the current version is unpacked by an outside program in the background.
-/

namespace ApkWorkshop.Tool.UnpackApk

open Text

def create (file : String) : Job Nat := do
  let id ← Tool.create file (.unpackApk .null .null)
  let apktool ← setting id "apktool" .null
  let java ← setting id "java" .null
  setPart id (.unpackApk apktool java)
  return id

def unpack (id : Nat) (apktool java : Value) : Job Unit :=
  attempted.orElse fun fault => say id ("❌ Error: " ++ fault.message)
where
  attempted : Job Unit := do
    if !(← get).versionPath.isGiven then
      say id "❌ No version selected"
      return
    let packages ← folder id "apk"
    let target ← folder id "apk_unpacked"
    if !(← Job.files).isFolder packages then
      say id "❌ APK folder not found"
      return
    match ← packageFiles packages with
    | [] => say id "❌ No APK files found"
    | name :: _ =>
      say id ("🔧 Unpacking: " ++ name)
      Job.makeFolders target
      say id "🔄 Running APKTool..."
      let outcome ← Job.run [java, .text "-jar", apktool, .text "d",
        .text (Path.join packages name), .text "-o", .text target, .text "-f"] none
      if outcome.code = 0 then
        conclude id "APK unpacked successfully"
        say id ("✅ APK unpacked successfully to " ++ target)
      else say id ("❌ APKTool error: " ++ outcome.errors)

def run (id : Nat) : Job Unit := do
  match (← byNumber id).part with
  | .unpackApk apktool java =>
    if !apktool.isGiven then throw (.notConfigured "APKTool path not configured")
    if !java.isGiven then throw (.notConfigured "JDK path not configured")
    Job.inBackground (unpack id apktool java)
  | _ => pure ()

end ApkWorkshop.Tool.UnpackApk
