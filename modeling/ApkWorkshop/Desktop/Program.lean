import ApkWorkshop.Desktop.Perform
import ApkWorkshop.Update.Update

/-!
# The program

The program prepares its first start, opens the desktop, and ends with a code if either fails. As a
whole it looks for updates first.
-/

namespace ApkWorkshop.Desktop

def prepare : Job Bool := do
  Settings.prepareFirstStart (← Settings.openFile "config.json")

def endWith {α : Type} (fault : Fault) : Job α := do
  Job.say ("Application error: " ++ fault.message)
  throw (.ended 1)

def start : Job Unit := do
  let ready ← prepare.orElse endWith
  if !ready then
    Job.say "❌ Initial setup failed. Please check configuration."
    throw (.ended 1)
  let opened : Job Unit := do let _ ← create "config.json"
  opened.orElse endWith

def startUpdated : Job Unit := do
  Update.run
  start

end ApkWorkshop.Desktop
