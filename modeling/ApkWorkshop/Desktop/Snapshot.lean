import ApkWorkshop.Desktop.Log
import ApkWorkshop.Display.Snapshot

/-!
# Snapshots of a desktop

What a desktop shows at a moment: its log, its command line, its lists and its buttons.
-/

namespace ApkWorkshop.Desktop

def describeButton (w : Widget) : Value :=
  .list [w.text, .text (w.state.getD "normal"), w.background]

def snapshot (desktop : Desktop) (d : Display) : Value :=
  let choices (list : Option ChoiceList) : Value :=
    (list.map fun l => d.choicesOf l.choice).getD .null
  let chosen (list : Option ChoiceList) : Value := (list.map fun l => d.cell l.cell).getD .null
  .object [
    ("log", .text ((desktop.log.map d.contentOf).getD "")),
    ("entry", .text (d.contentOf desktop.entry)),
    ("progress", ((d.widget? desktop.gauge).map (·.amount)).getD .null),
    ("versions", choices desktop.versionList),
    ("version", chosen desktop.versionList),
    ("aliases", choices desktop.keyList),
    ("alias", chosen desktop.keyList),
    ("buttons", .list (desktop.buttonWidgets.filterMap fun i => (d.widget? i).map describeButton))]

end ApkWorkshop.Desktop
