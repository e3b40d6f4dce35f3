import ApkWorkshop.Tool.Base

/-!
# Game archives

The archive inside an unpacked package is unpacked and packed by the archive program, which is
started as a script.
-/

namespace ApkWorkshop.Tool.Car

open Text

def archivePath (unpacked : String) : String :=
  Path.joinAll unpacked ["assets", "resource.car"]

def unpack (id : Nat) : Job Unit := do
  say id "🔓 Starting CAR unpacking..."
  let script ← setting id "corona-archiver" .null
  let archive := archivePath (← folder id "apk_unpacked")
  let target ← folder id "lu"
  if !(← Job.standsAt archive) then
    conclude id "CAR file not found"
    say id ("❌ resource.car not found in: " ++ archive)
    return
  let started : Job Unit := do
    say id ("✅ CAR decompilation started to " ++ target)
    let words ← Job.attempt (Value.commandWords
      [.text "python", script, .text "-u", .text archive, .text target])
    let _ ← Job.start words
  started.orElse fun fault => do
    conclude id ("Error: " ++ fault.message)
    say id ("❌ CAR unpacking error: " ++ fault.message)
  say id ("✅ CAR decompiled to " ++ target)

def pack (id : Nat) : Job Unit := do
  let wanted ← Job.ask "CAR Packaging"
    "Are you sure you want to package CAR file?\nThis will overwrite existing resource.car"
  if !wanted then
    say id "❌ CAR packaging cancelled by user"
    return
  let script ← setting id "corona-archiver" .null
  let source := (← folder id "lu") ++ "/"
  let archive := archivePath (← folder id "apk_unpacked")
  if !(← Job.standsAt source) then
    conclude id "Input directory not found"
    say id ("❌ Input directory not found: " ++ source)
    return
  say id ("📁 Input: " ++ source)
  say id ("📁 Output: " ++ archive)
  let packed : Job Unit := do
    let output ← folder id "output"
    Job.makeFolders output
    say id "🔄 Packaging CAR file..."
    let _ ← Job.run [.text "python", script, .text "-p", .text source, .text archive] none
    if ← Job.standsAt archive then
      conclude id "CAR packaging completed successfully"
      say id "✅ CAR packaging completed"
    else
      conclude id "Error: Output file not created"
      say id "❌ Output file not found"
  packed.orElse fun fault => do
    conclude id ("Error: " ++ fault.message)
    say id ("❌ CAR packaging error: " ++ fault.message)

end ApkWorkshop.Tool.Car
