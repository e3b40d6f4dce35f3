import ApkWorkshop.Tool.Base

/-!
# Packing and signing a package

The unpacked package of the current version is built, aligned and signed by three outside programs,
one after the other. Progress goes from 10 to 100, or back to 0 if a step fails.
-/

namespace ApkWorkshop.Tool.PackApk

open Text

def packageName (path : String) : Job String := do
  if ← Job.standsAt path then
    match ← packageFiles path with
    | name :: _ => return Path.withoutEnding name
    | [] => return "app"
  else return "app"

def create (file : String) : Job Nat := do
  let id ← Tool.create file (.packApk "" "" {})
  let name ← packageName (← folder id "apk")
  setPart id (.packApk name (← folder id "output") {})
  return id

def target (id : Nat) : Job (String × String × PackTimes) := do
  match (← byNumber id).part with
  | .packApk name output times => return (name, output, times)
  | _ => return ("", "", {})

def remember (id : Nat) (f : PackTimes → PackTimes) : Job Unit := do
  let (name, output, times) ← target id
  setPart id (.packApk name output (f times))

def removeIfThere (path : String) : Job Unit := do
  if ← Job.standsAt path then Job.onFiles (·.removeFile path)

/-! ### Building -/

def build (id : Nat) : Job (Option String) :=
  attempted.orElse fun fault => do
    match fault with
    | .processFailed _ _ errors => say id ("❌ APKTool packaging error: " ++ errors)
    | fault => say id ("❌ Packaging error: " ++ fault.message)
    return none
where
  attempted : Job (Option String) := do
    let unpacked ← folder id "apk_unpacked"
    let output ← folder id "output"
    let (name, _, times) ← target id
    setPart id (.packApk name output times)
    let unsigned := "unsigned_" ++ name ++ ".apk"
    let path := Path.join output unsigned
    if !(← Job.standsAt unpacked) then
      say id ("❌ Unpacked APK directory not found: " ++ unpacked)
      return none
    Job.makeFolders output
    let apktool ← setting id "apktool" .null
    let java ← setting id "java" .null
    if !apktool.isGiven || !java.isGiven then
      say id "❌ APKTool or Java path not configured"
      return none
    if ← Job.standsAt path then
      say id "🗑️ Removing old APK file..."
      Job.onFiles (·.removeFile path)
    say id ("🔄 Building APK: " ++ unsigned)
    let _ ← Job.runChecked [java, .text "-jar", apktool, .text "b", .text unpacked, .text "-o",
      .text path] none
    if ← Job.standsAt path then
      say id ("✅ APK packaged (unsigned): " ++ unsigned)
      return some path
    else
      say id "❌ APK file not created"
      return none

/-! ### The key -/

/-- The key store, its password and the key, as the settings have them at this moment. -/
def keyData (id : Nat) : Job (Option Value) :=
  attempted.orElse fun fault => do
    say id ("❌ Keystore data error: " ++ fault.message)
    return none
where
  attempted : Job (Option Value) := do
    let settings ← Settings.openFile (← Settings.byNumber (← byNumber id).settings).file
    update id fun t => { t with settings }
    let path ← setting id "last_keystore" .null
    let password ← setting id "last_keystore_password" .null
    let keyName ← setting id "last_alias" .null
    if !path.isGiven then
      say id "❌ Keystore path not configured"
      return none
    if !(← Job.stands path) then
      say id ("❌ Keystore file not found: " ++ path.plain)
      return none
    if !password.isGiven then
      say id "❌ Keystore password not configured"
      return none
    if !keyName.isGiven then
      say id "❌ Keystore alias not configured"
      return none
    say id ("✅ Keystore data loaded: " ++ Path.name (← Job.attempt path.path))
    say id (" 📍 Alias: " ++ keyName.plain)
    return some (.object [("path", path), ("password", password), ("alias", keyName)])

/-! ### Signing -/

def signCommand (signer key : Value) (signed aligned : String) : Except Fault (List Value) := do
  let path ← key.require (.text "path")
  let password ← key.require (.text "password")
  let keyName ← key.require (.text "alias")
  let secret := Value.text ("pass:" ++ password.plain)
  return [signer, .text "sign", .text "--ks", path, .text "--ks-pass", secret,
    .text "--key-pass", secret, .text "--ks-key-alias", keyName, .text "--out", .text signed,
    .text aligned]

def sign (id : Nat) (package key : Value) : Job Bool :=
  attempted.orElse fun fault => do
    match fault with
    | .processFailed _ _ errors => say id ("❌ Signing process error: " ++ strip errors)
    | fault => say id ("❌ Signing error: " ++ fault.message)
    return false
where
  attempted : Job Bool := do
    say id "🔏 Signing APK..."
    if !(← Job.stands package) then
      say id "❌ APK file not found for signing"
      return false
    let signer ← setting id "apksigner" .null
    let aligner ← setting id "zipalign" .null
    let java ← setting id "java" .null
    if !(signer.isGiven && aligner.isGiven && java.isGiven) then
      say id "❌ Required tools not configured"
      return false
    let _ ← Job.attempt java.path
    let (name, output, _) ← target id
    let signed := Path.join output (name ++ ".apk")
    let aligned := Path.join output ("aligned_" ++ name ++ ".apk")
    removeIfThere aligned
    removeIfThere signed
    say id "🔄 Aligning APK..."
    showProgress id 65
    let _ ← Job.runChecked [aligner, .text "-v", .text "-p", .text "4", package, .text aligned]
      none
    say id "🔄 Signing APK..."
    showProgress id 80
    let command ← Job.attempt (signCommand signer key signed aligned)
    let _ ← Job.runChecked command (some 120)
    say id "✅ APK signed successfully"
    say id "🔄 Finalizing..."
    showProgress id 90
    removeIfThere aligned
    if ← Job.stands package then
      let path ← Job.attempt package.path
      Job.onFiles (·.removeFile path)
    removeIfThere (signed ++ ".idsig")
    say id ("📦 Signed APK: " ++ name ++ ".apk")
    return true

/-! ### The whole run -/

def spanText (seconds : Double) : Except Fault String :=
  if seconds.lt (.ofInt 1) then .ok ((seconds.mul (.ofInt 1000)).fixed 0 ++ "ms")
  else if seconds.lt (.ofInt 60) then .ok (seconds.fixed 1 ++ "s")
  else
    match seconds.floorDivNat? 60 with
    | some minutes => .ok (decimalInt minutes ++ "m " ++ (seconds.modNat 60).fixed 1 ++ "s")
    | none => .error .noWholePart

def showTimes (id : Nat) : Job Unit := do
  let now ← Job.clock
  let (_, _, times) ← target id
  match times.start with
  | none => throw (.badCall "unsupported operand type(s) for -: 'float' and 'NoneType'")
  | some start =>
    say id "⏱️  Time summary:"
    sayTime "   📦 Packaging: " times.packing
    sayTime "   🔑 Keystore: " times.keys
    sayTime "   🔏 Signing: " times.signing
    sayTime "   ⏱️  Total: " (now.sub start)
where
  /-- Say how long something took. -/
  sayTime (what : String) (seconds : Double) : Job Unit := do
    say id (what ++ (← Job.attempt (spanText seconds)))

def timed {α : Type} (job : Job α) : Job (α × Double) := do
  let start ← Job.clock
  let result ← job
  return (result, (← Job.clock).sub start)

def packAndSign (id : Nat) : Job Unit := do
  let start ← Job.clock
  remember id fun t => { t with start := some start }
  attempted.orElse fun fault => do
    say id ("❌ Packaging error: " ++ fault.message)
    showProgress id 0
where
  attempted : Job Unit := do
    say id "📦 Starting APK packaging and signing..."
    showProgress id 10
    let (package, packing) ← timed (build id)
    remember id fun t => { t with packing }
    match package with
    | none => showProgress id 0
    | some package =>
      showProgress id 50
      let (key, keys) ← timed (keyData id)
      remember id fun t => { t with keys }
      match key with
      | none => showProgress id 0
      | some key =>
        showProgress id 60
        let (success, signing) ← timed (sign id (.text package) key)
        remember id fun t => { t with signing }
        if success then
          showProgress id 100
          showTimes id
          conclude id "APK packaged and signed successfully"
          say id "✅ APK packaging and signing completed."
        else
          showProgress id 0
          say id "❌ APK signing failed"

def run (id : Nat) : Job Unit :=
  Job.inBackground (packAndSign id)

end ApkWorkshop.Tool.PackApk
