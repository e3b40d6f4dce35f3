import ApkWorkshop.Tool.KeyStore
import ApkWorkshop.Tool.VersionName

/-!
# Versions

Every version of the package has a folder of its own below one folder of versions. A package that
is added gets a folder named after the version in its file name, and becomes current.
-/

namespace ApkWorkshop.Tool.Versions

open Text

/-- What the tool knows about versions: the folder that has a folder for each of them, the one chosen
last, the subfolders that a new one gets, and the list in which they are shown. -/
structure Shelf where
  folder : Value := .null
  last : Value := .null
  subfolders : List Value := []
  list : Option ChoiceList := none

def shelf (id : Nat) : Job Shelf := do
  match (← byNumber id).part with
  | .versions folder last subfolders list => return ⟨folder, last, subfolders, list⟩
  | _ => return {}

def change (id : Nat) (f : Shelf → Shelf) : Job Unit := do
  let s := f (← shelf id)
  setPart id (.versions s.folder s.last s.subfolders s.list)

def publish (id : Nat) : Job Unit := do
  let s ← shelf id
  if s.folder.isGiven && s.last.isGiven then
    let path ← Job.attempt (s.folder.joinPath s.last)
    chooseVersion (.text path)
    say id ("📍 Global path updated: " ++ path)

def create (file : String) : Job Nat := do
  let id ← Tool.create file (.versions .null .null [] none)
  let folder ← setting id "versions_dir" .null
  change id fun s => { s with folder }
  let last ← setting id "last_version" .null
  change id fun s => { s with last }
  publish id
  let folders ← Job.attempt ((← setting id "folder_structure" .null).members "values")
  change id fun s => { s with subfolders := folders.map Prod.snd }
  return id

def versions (id : Nat) : Job (List String) := do
  let folder := (← shelf id).folder
  if !folder.isGiven then return []
  if !(← Job.stands folder) then return []
  let path ← Job.attempt folder.path
  let files ← Job.files
  return ((← Job.names path).filter fun name => files.isFolder (Path.join path name)).reverse

/-! ### Telling others -/

def refreshDesktop (desktop : Nat) : Job Unit := do
  let d ← Desktop.byNumber desktop
  match d.versions, d.versionList with
  | some id, some list =>
    let found ← versions id
    Job.setChoices list.choice (found.map .text)
    let last := (← shelf id).last
    if last.isGiven && KeyStore.holdsText found last then ThemePanel.enter list.cell last.fieldText
    else ThemePanel.enter list.cell (found.headD "")
  | _, _ => pure ()

def desktopVersionChanged (desktop : Nat) (data : Value) : Job Unit := do
  let version ← Job.attempt (data.lookup "version" (.text ""))
  Desktop.write desktop ("📍 Active version: " ++ version.plain)

def desktopVersionsUpdated (desktop : Nat) : Job Unit := do
  Desktop.write desktop "🔄 Versions updated - refreshing UI..."
  refreshDesktop desktop

def tell (event : String) (data : Value) : Handler → Job Unit
  | .recorder name failure => recordEvent name failure data
  | .desktop desktop =>
    if event = "version_changed" then desktopVersionChanged desktop data
    else if event = "versions_updated" then desktopVersionsUpdated desktop
    else refreshDesktop desktop

def emit (id : Nat) (event : String) (data : Value) : Job Unit := do
  let handlers := (← byNumber id).handlers.filter fun (name, _) => name == event
  handlers.forM fun (_, handler) =>
    (tell event data handler).orElse fun fault =>
      say id ("❌ Event handler error: " ++ fault.message)

/-! ### Choosing a version -/

/-- Show the versions in the list on the screen. If the last version is gone, the highest one takes
its place. -/
def refreshList (id : Nat) : Job Unit := do
  let s ← shelf id
  match s.list with
  | none => pure ()
  | some list =>
    let found ← versions id
    Job.setChoices list.choice (found.map .text)
    if s.last.isGiven && KeyStore.holdsText found s.last then
      ThemePanel.enter list.cell s.last.fieldText
    else
      match found with
      | first :: _ =>
        ThemePanel.enter list.cell first
        change id fun s => { s with last := .text first }
        setSetting id "last_version" (.text first)
        publish id
      | [] => ThemePanel.enter list.cell ""

def showIn (id : Nat) (list : Option ChoiceList) : Job Unit := do
  change id fun s => { s with list }
  refreshList id

def announce (id : Nat) : Job Unit :=
  told.orElse fun fault => say id ("⚠️ Version refresh notification failed: " ++ fault.message)
where
  told : Job Unit := do
    say id "🔄 Version changed - refreshing tools..."
    say id "VERSION_CHANGED"

def proclaim (id : Nat) (version : Value) : Job Unit := do
  publish id
  say id ("🔀 Switched to version: " ++ version.plain)
  let path ← Job.attempt ((← shelf id).folder.joinPath version)
  emit id "version_changed" (.object [("version", version), ("version_path", .text path)])
  announce id

def select (id : Nat) (version : Value) : Job Unit := do
  if !version.isGiven then return
  change id fun s => { s with last := version }
  setSetting id "last_version" version
  setFolders id
  proclaim id version

def refresh (id : Nat) : Job Unit := do
  say id "🔄 Refreshing versions list..."
  refreshList id
  publish id
  let found ← versions id
  emit id "versions_refreshed" (.object [
    ("versions_list", .list (found.map .text)),
    ("current_version", (← shelf id).last)])

def openFolder (id : Nat) : Job Unit :=
  attempted.orElse fun fault => say id ("❌ Failed to open folder: " ++ fault.message)
where
  attempted : Job Unit := do
    let chosen ← setting id "last_version" .null
    let last := (← shelf id).last
    let version := if chosen.isGiven then chosen else last
    let versions ← setting id "versions_dir" .null
    if !version.isGiven || !versions.isGiven then
      say id "❌ No version selected or versions directory not configured"
      return
    let path ← Job.attempt (versions.joinPath version)
    if !(← Job.standsAt path) then
      say id ("❌ Version folder not found: " ++ path)
      return
    match (← get).platform with
    | .windows => Job.note fun j => { j with commands := j.commands ++ [["startfile", path]] }
    | .darwin => let _ ← Job.run [.text "open", .text path] none
    | .linux => let _ ← Job.run [.text "xdg-open", .text path] none
    | .other => say id "❌ Unsupported OS"

/-! ### Adding a package -/

/-- Make the folders of a version. Folders that are there are only replaced if that is wanted. -/
def makeVersion (id : Nat) (version : Value) : Job (Option String) := do
  let s ← shelf id
  if !s.folder.isGiven then
    say id "❌ Versions directory not configured"
    return none
  let path ← Job.attempt (s.folder.joinPath version)
  if ← Job.standsAt path then
    let wanted ← Job.ask "Version exists"
      ("Version " ++ version.plain ++ " already exists. Overwrite?")
    if !wanted then return none
    Job.removeTree path
  (made s path).orElse fun fault => do
    say id ("❌ Failed to create directory structure: " ++ fault.message)
    return none
where
  /-- The folders themselves. -/
  made (s : Shelf) (path : String) : Job (Option String) := do
    say id "🔨 Creating new directory structure..."
    Job.makeFolders path
    s.subfolders.forM fun name => do
      let folder ← Job.attempt (Value.joinPath (.text path) name)
      Job.makeFolders folder
      say id ("   📁 Created: " ++ name.plain)
    say id ("✅ New directory structure created: " ++ path)
    return some path

def copyPackage (id : Nat) (package version : Value) : Job (Option String) :=
  attempted.orElse fun fault => do
    say id ("❌ Failed to copy APK: " ++ fault.message)
    return none
where
  attempted : Job (Option String) := do
    let source ← Job.attempt package.path
    let folders ← setting id "folder_structure" (.object [])
    let name ← Job.attempt (folders.lookup "apk" (.text "1_APK"))
    let folder ← Job.attempt (version.joinPath name)
    Job.makeFolders folder
    let target := Path.join folder (Path.name source)
    say id "🔄 Copying APK file..."
    Job.onFiles (·.copy source target)
    say id ("✅ APK copied to: " ++ name.plain ++ "/" ++ Path.name source)
    return some target

/-- Take the version from the name of a file, and say so if the name holds none. -/
def versionOf (id : Nat) (name : String) : Job String := do
  let (version, notes) := VersionName.ofFileNoted name
  notes.forM (say id)
  return version

def addPackage (id : Nat) (package : Value) : Job Bool :=
  attempted.orElse fun fault => do
    say id ("❌ Error importing APK: " ++ fault.message)
    return false
where
  attempted : Job Bool := do
    let name := Path.name (← Job.attempt package.path)
    say id ("📁 Processing: " ++ name)
    let folder := (← shelf id).folder
    if !folder.isGiven then
      say id "❌ Please configure versions directory first"
      Job.showBox (.error "Error" "Please configure versions directory in Settings → Paths")
      return false
    if !(← Job.stands folder) then
      say id ("📁 Creating versions directory: " ++ folder.plain)
      let path ← Job.attempt folder.path
      Job.makeFolders path
    imported name
  /-- Make the version and copy the package there. -/
  imported (name : String) : Job Bool := do
    let version ← versionOf id name
    if version = "" then
      say id "❌ Cannot extract version from filename"
      return false
    match ← makeVersion id (.text version) with
    | none | some "" => return false
    | some path =>
      match ← copyPackage id package (.text path) with
      | none | some "" => return false
      | some _ => adopt version path
  /-- Make the new version the current one. -/
  adopt (version path : String) : Job Bool := do
    setSetting id "last_version" (.text version)
    change id fun s => { s with last := .text version }
    publish id
    refreshList id
    say id "✅ APK imported successfully!"
    say id ("📂 Version " ++ version ++ " set as current")
    say id ("📍 Working directory: " ++ path)
    let found ← versions id
    emit id "versions_updated" (.object [
      ("version", .text version),
      ("version_dir", .text path),
      ("versions_list", .list (found.map .text))])
    return true

def run (id : Nat) : Job Unit := do
  if !(← setting id "versions_dir" .null).isGiven then
    say id "❌ Please configure versions directory first"
    Job.showBox (.warning "Configuration Required"
      "Please set Versions Folder in Settings → Paths first")
    return
  let package ← Job.chooseFile "Select APK file"
  if package = "" then
    say id "ℹ️ File selection cancelled"
    return
  Job.inBackground (do let _ ← addPackage id (.text package))

def message (id : Nat) : Job String := do
  let last := (← shelf id).last
  return if last.isGiven then "Version Manager - Current: " ++ last.plain else "Version Manager"

end ApkWorkshop.Tool.Versions
