/-!
# Actions

What a button, a key or a timer does. Actions are data: they name windows, cells, settings and
tools by their numbers, so that a display can hold them and a later step can carry them out.
-/

namespace ApkWorkshop

/-- A part of the settings that has a button of its own. -/
inductive Section
  | themes
  | paths
  | reset
  | file
  | advanced
deriving DecidableEq

/-- The window and the fields of a form that describes a key. -/
structure KeyForm where
  window : Nat
  fileName : Nat
  storePath : Nat
  keyName : Nat
  password : Nat
  commonName : Nat
  unit : Nat
  organisation : Nat
  locality : Nat
  state : Nat
  country : Nat
deriving DecidableEq

/-- What a button, a key or a timer does. -/
inductive Action
  | close (window : Nat)
  | openSettings (settings : Nat)
  | openSection (settings window : Nat) (part : Section)
  | browseFolder (cell : Nat)
  | browseProgram (program : String) (cell : Nat)
  /-- Check the paths of all programs and offer to look for them. -/
  | repairPaths (settings window : Nat)
  | repairRuntime (settings : Nat)
  | savePaths (settings window : Nat)
  | selectTheme (panel : Nat) (name : String)
  | customiseTheme (panel : Nat)
  | changeFont (panel : Nat)
  | saveTheme (panel : Nat)
  | pickColour (cell : Nat) (key : String)
  | applyFont (panel family size window : Nat)
  | saveEditor (editor : Nat)
  /-- Close a window and show the form for a new key store, or for a key of an existing one. -/
  | showKeyForm (tool window : Nat) (adding : Bool)
  | browseKeyStore (cell : Nat)
  | showPassword (field cell : Nat)
  | submitKeyForm (tool : Nat) (form : KeyForm) (adding : Bool)
  | confirmPassword (dialog : Nat)
  | openVersionFolder (tool : Nat)
  | addVersion (tool : Nat)
  | chooseKeyStore (tool : Nat)
  | offerKeyForms (tool : Nat)
  | openDesktopSettings (desktop : Nat)
  | reloadDesktop (desktop : Nat)
  | rebuildDesktop (desktop : Nat)
  | runBinding (desktop button : Nat)
  | enterCommand (desktop : Nat)
deriving DecidableEq

end ApkWorkshop
