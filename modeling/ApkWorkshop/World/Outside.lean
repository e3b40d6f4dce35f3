import ApkWorkshop.World.Fault

/-!
# The world outside

What programs, people, the clock and the network answer. The answers are given beforehand and are
taken one after the other, so that a run depends on nothing else.
-/

namespace ApkWorkshop

/-- The operating system. -/
inductive Platform
  | linux
  | darwin
  | windows
  | other
deriving DecidableEq

/-- Where a process leaves a file: at a path, or at the path that is a word of its command, counted
from the end if negative. -/
inductive MadeAt
  | path (path : String)
  | word (index : Int)
deriving DecidableEq

/-- Why a process gives no result. -/
inductive Refusal
  | missing
  | timeout
deriving DecidableEq

/-- What a process does. -/
structure Outcome where
  code : Int := 0
  output : String := ""
  errors : String := ""
  made : List (MadeAt × Option (List UInt8)) := []
  refusal : Option Refusal := none

/-- What a person does in a dialog. -/
inductive DialogMove
  | type (field : Nat) (text : String)
  | press (text : String)
  | confirm
deriving DecidableEq

/-- All answers that are still to come. -/
structure Outside where
  outcomes : List Outcome := []
  /-- Answers to questions; then every question is answered with no. -/
  answers : List Bool := []
  choices : List String := []
  colours : List Value := []
  dialogs : List (List DialogMove) := []
  clock : List Double := []
  now : Double := .ofInt 0
  programs : List (String × String) := []
  /-- What the network delivers at an address, or why it delivers nothing. -/
  remote : String → Except String (List UInt8) := fun _ => .error "<urlopen error not found>"
  /-- The names on the way to the folder that is made when a new one for a while is asked for. -/
  temporary : List String := ["tmp", "update"]
  /-- Libraries that can unpack, each with what it fails with, if it does. -/
  libraries : List (String × Option String) := []

/-- A box on the screen that interrupts the work. -/
inductive Box
  | question (title message : String)
  | error (title message : String)
  | info (title message : String)
  | warning (title message : String)
  | fileChooser (title : String)
  | folderChooser (title : String)
  | colourChooser (title : String)
deriving DecidableEq

/-- What was to be seen from outside, in order. -/
structure Journal where
  console : String := ""
  log : List Value := []
  progress : List Value := []
  commands : List (List String) := []
  events : List (String × Value) := []
  addresses : List String := []
  broken : List Fault := []
  boxes : List Box := []

end ApkWorkshop
