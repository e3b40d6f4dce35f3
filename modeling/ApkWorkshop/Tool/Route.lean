import ApkWorkshop.Tool.Base

/-!
# Routes

A batch tool takes its files from one folder of the version and puts them into another.
-/

namespace ApkWorkshop.Tool

def routeFolders (id : Nat) : Route → Job (String × String)
  | .inputToOutput => return (← folder id "input", ← folder id "output")
  | .luToLua => return (← folder id "lu", ← folder id "lua")
  | .editingToLu => return (← folder id "editing", ← folder id "lu")
  | .luaToUtf8 => return (← folder id "lua", Path.join (← folder id "editing") "UTF-8")
  | .editingToUtf8 =>
    return (← folder id "editing", Path.join (← folder id "editing") "UTF-8")

def relativePath (input path : String) : Job String :=
  return Path.relative (← Job.files).home path input

end ApkWorkshop.Tool
