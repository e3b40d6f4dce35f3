import ApkWorkshop.Display.Display
import ApkWorkshop.World.Outside

/-!
# The workshop

Everything a run works with: files, the screen, the settings, and the tools, panels and forms that
are in use, each known by its number.
-/

namespace ApkWorkshop

/-- Who is told about an event. -/
inductive Handler
  /-- Notes the event under a name and then fails if it has a message to fail with. -/
  | recorder (name : String) (failure : Option String)
  | desktop (id : Nat)
deriving DecidableEq

/-- Who is told about log lines or progress. -/
inductive Sink
  | silent
  | recorder (failsOn : List Value)
  | desktop (id : Nat)

/-- Settings read from a file. -/
structure Settings where
  file : String
  data : Value
  handlers : List (String × Handler) := []
  /-- The fields of the window for paths, by program, once it was opened. -/
  pathCells : Option (List (String × Nat)) := none

/-- The colours of a theme and those derived from them. -/
structure ThemeColours where
  background : Value := .null
  lighter : Value := .null
  darker : Value := .null
  text : Value := .null
  buttonText : Value := .null
  scrollText : Value := .null

/-- A panel that chooses and changes themes. -/
structure ThemePanel where
  settings : Nat
  window : Nat
  panel : Nat
  /-- Its own themes; without any it works on those of the settings. -/
  ownThemes : Option Value := none
  current : Value
  font : Value
  group : Nat := 0
  colourCells : Option (List (String × Nat)) := none

/-- A form that edits buttons, folders and bindings. -/
structure Editor where
  settings : Nat
  background : Value
  lighter : Value
  text : Value
  buttonText : Value
  window : Option Nat := none
  /-- The fields for the grid, rows before columns, once they were put up. -/
  rows : Option Nat := none
  columns : Option Nat := none
  folders : List (String × Nat) := []
  bindings : List Value := []
  bindingCells : List Nat := []
  bindingNames : List Nat := []

/-- Where a tool takes its files from and where it puts them. -/
inductive Route
  | inputToOutput
  | luToLua
  | editingToLu
  | luaToUtf8
  | editingToUtf8
deriving DecidableEq

/-- A list of choices on the screen and the cell with the chosen one. -/
structure ChoiceList where
  choice : Nat
  cell : Nat
deriving DecidableEq

/-- When the packing of a package began, and how long its steps took. -/
structure PackTimes where
  start : Option Double := none
  packing : Double := .ofInt 0
  keys : Double := .ofInt 0
  signing : Double := .ofInt 0

/-- What each tool keeps for itself. -/
inductive ToolPart
  | unpackApk (apktool java : Value)
  | packApk (finalName output : String) (times : PackTimes)
  | generator (java : Value)
  | keyStore (generator : Nat) (path password keyName : Value) (list : Option ChoiceList)
  | versions (folder last : Value) (subfolders : List Value) (list : Option ChoiceList)
  | unpackCar
  | packCar
  | decompiler (route : Route) (unluac java : Value)
  | compiler (route : Option Route) (luac : Value)
  | decoder (route : Route)
  | assembler (script arguments : Value)
  | disassembler (script arguments : Value)

/-- A tool. -/
structure Tool where
  settings : Nat
  theme : ThemeColours := {}
  part : ToolPart
  log : Sink := .silent
  progress : Sink := .silent
  handlers : List (String × Handler) := []
  paths : List (String × String) := []
  report : String := ""

/-- A dialog that asks for a password. -/
structure PasswordDialog where
  window : Nat
  password : Nat
  save : Nat
  result : Option (String × Bool) := none

/-- A button of the desktop that starts a tool. -/
structure ToolButton where
  tool : Value
  name : Value

/-- The desktop: a window with the tools, a log and a command line. -/
structure Desktop where
  settings : Nat
  theme : ThemeColours := {}
  window : Nat := 0
  versionList : Option ChoiceList := none
  keyList : Option ChoiceList := none
  openButton : Nat := 0
  addButton : Nat := 0
  keyBrowseButton : Nat := 0
  keyNewButton : Nat := 0
  buttonFrame : Nat := 0
  log : Option Nat := none
  gauge : Nat := 0
  entry : Nat := 0
  versions : Option Nat := none
  keyStore : Option Nat := none
  buttons : List ToolButton := []
  buttonWidgets : List Nat := []

/-- Everything a run works with. -/
structure World where
  files : Files
  outside : Outside := {}
  platform : Platform := .linux
  journal : Journal := {}
  display : Display := {}
  /-- The folder of the current version, which all tools share. -/
  versionPath : Value := .null
  settings : List Settings := []
  panels : List ThemePanel := []
  editors : List Editor := []
  tools : List Tool := []
  dialogs : List PasswordDialog := []
  desktops : List Desktop := []

/-- Work that changes the world and may stop with a fault; what was done before stays done. -/
abbrev Job (α : Type) : Type := ExceptT Fault (StateM World) α

namespace World

def programFolder (w : World) : String :=
  Path.ofNames w.files.home

/-- The flag with which programs are started, so that no console opens. -/
def processFlags (w : World) : Int :=
  if w.platform = .windows then 0x8000000 else 0

end World

end ApkWorkshop
