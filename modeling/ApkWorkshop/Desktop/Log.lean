import ApkWorkshop.Display.Screen

/-!
# The log of a desktop

Log lines and progress reach a recorder or the window of a desktop. A desktop whose log is not yet
on the screen writes to the console.
-/

namespace ApkWorkshop

open Text

namespace Desktop

def byNumber (id : Nat) : Job Desktop := do
  match (← get).desktops[id]? with
  | some desktop => return desktop
  | none => return { settings := 0 }

def update (id : Nat) (f : Desktop → Desktop) : Job Unit :=
  modify fun w => { w with desktops := w.desktops.modify id f }

def write (id : Nat) (line : String) : Job Unit := do
  match (← byNumber id).log with
  | some area =>
    Job.change area fun w => { w with state := some "normal" }
    Job.write area (line ++ "\n")
    Job.change area fun w => { w with state := some "disabled" }
  | none => Job.say line

def showProgress (id : Nat) (v : Value) : Job Unit := do
  Job.change (← byNumber id).gauge fun w => { w with amount := v }

/-- The settings of a desktop have changed: it says so and rebuilds itself a moment later. -/
def settingsChanged (id : Nat) (data : Value) : Job Unit := do
  let kind ← Job.attempt (data.lookup "type" (.text ""))
  write id ("🔄 Config updated: " ++ kind.plain)
  Job.onDisplay (·.schedule (.reloadDesktop id))

end Desktop

namespace Sink

def failOn (failsOn : List Value) (v : Value) : Job Unit :=
  if failsOn.any (·.same v) then throw (.listener ("callback failed on " ++ v.plain)) else pure ()

def tellLog (s : Sink) (v : Value) : Job Unit :=
  match s with
  | .silent => pure ()
  | .recorder failsOn => do
    Job.note fun j => { j with log := j.log ++ [v] }
    failOn failsOn v
  | .desktop id => Desktop.write id v.plain

def tellProgress (s : Sink) (v : Value) : Job Unit :=
  match s with
  | .silent => pure ()
  | .recorder failsOn => do
    Job.note fun j => { j with progress := j.progress ++ [v] }
    failOn failsOn v
  | .desktop id => Desktop.showProgress id v

end Sink

def recordEvent (name : String) (failure : Option String) (data : Value) : Job Unit := do
  Job.note fun j => { j with events := j.events ++ [(name, data)] }
  match failure with
  | some message => throw (.listener message)
  | none => pure ()

end ApkWorkshop
