import ApkWorkshop.Document.Reader
import ApkWorkshop.Files.Files
import ApkWorkshop.Text.Utf8

/-!
# Faults

Why a piece of work stops. Log lines and message boxes quote the wording of a fault, so each cause
has its exact words in `Fault.message`.
-/

namespace ApkWorkshop

open Text

/-- Why work stops. -/
inductive Fault
  | file (fault : FileFault)
  | badText (fault : Utf8Fault)
  | badUnits (message : String)
  | noByte
  | document (fault : Document.Fault)
  | processFailed (command : List String) (code : Int) (errors : String)
  | processTimedOut (command : List String) (seconds : Option Nat)
  | notConfigured (what : String)
  | notPath (kind : String)
  | notPathPart (kind : String)
  /-- A value that is no text stands where a path is looked for. -/
  | notLookedUp (kind : String)
  | noOperation (kind operation : String)
  | noMember (key : Value)
  | notKeyed (kind key : String)
  | notAssignable (kind : String)
  | badKey (kind : String)
  | noItems (kind : String)
  | noLength (kind : String)
  | notTakenApart (kind : String)
  | tooFewItems (needed found : Nat)
  | tooManyItems (needed : Nat)
  | notWhole (kind : String)
  | notText (position : Nat) (kind : String)
  | notAppended (kind other : String)
  | badNumeral (s : String)
  | noWholePart
  | listener (message : String)
  | unreachable (message : String)
  | leftOpen (message : String)
  | ended (code : Int)
  /-- This operating system has no windows of its own for programs. -/
  | noConsoleWindows
  | unknownTool (name : String)
  | incompleteTool (name : String) (missing : List String)
  | badCall (message : String)
  | noReadingPlace
  /-- A folder is to be removed by a path that ends with one dot or with two. -/
  | dottedRemoval (path : String) (climbs : Bool)

namespace Fault

def ending (code : Int) : String :=
  if code < 0 then
    match signals.lookup (-code) with
    | some name => "died with <Signals." ++ name ++ ": " ++ decimalInt (-code) ++ ">."
    | none => "died with unknown signal " ++ decimalInt (-code) ++ "."
  else "returned non-zero exit status " ++ decimalInt code ++ "."
where
  signals : List (Int × String) := [
    (1, "SIGHUP"), (2, "SIGINT"), (3, "SIGQUIT"), (4, "SIGILL"), (5, "SIGTRAP"), (6, "SIGABRT"),
    (7, "SIGBUS"), (8, "SIGFPE"), (9, "SIGKILL"), (10, "SIGUSR1"), (11, "SIGSEGV"),
    (12, "SIGUSR2"), (13, "SIGPIPE"), (14, "SIGALRM"), (15, "SIGTERM"), (16, "SIGSTKFLT"),
    (17, "SIGCHLD"), (18, "SIGCONT"), (19, "SIGSTOP"), (20, "SIGTSTP"), (21, "SIGTTIN"),
    (22, "SIGTTOU"), (23, "SIGURG"), (24, "SIGXCPU"), (25, "SIGXFSZ"), (26, "SIGVTALRM"),
    (27, "SIGPROF"), (28, "SIGWINCH"), (29, "SIGIO"), (30, "SIGPWR"), (31, "SIGSYS"),
    (34, "SIGRTMIN"), (64, "SIGRTMAX")]

def commandText (command : List String) : String :=
  "Command '" ++ bracketed (command.map quoted) ++ "' "

def message : Fault → String
  | .file fault => fault.message
  | .badText fault => fault.message
  | .badUnits message => message
  | .noByte => "bytes must be in range(0, 256)"
  | .document fault => fault.message
  | .processFailed command code _ => commandText command ++ ending code
  | .processTimedOut command seconds =>
    commandText command ++ "timed out after " ++ (seconds.map decimal).getD "None" ++ " seconds"
  | .notConfigured what => what
  | .notPath kind => "expected str, bytes or os.PathLike object, not " ++ kind
  | .notPathPart kind =>
    "join() argument must be str, bytes, or os.PathLike object, not '" ++ kind ++ "'"
  | .notLookedUp kind =>
    "stat: path should be string, bytes, os.PathLike or integer, not " ++ kind
  | .noOperation kind operation =>
    "'" ++ kind ++ "' object has no attribute '" ++ operation ++ "'"
  | .noMember key => key.shown
  | .notKeyed kind key =>
    if kind = "list" then "list indices must be integers or slices, not " ++ key
    else if kind = "str" then "string indices must be integers, not '" ++ key ++ "'"
    else "'" ++ kind ++ "' object is not subscriptable"
  | .notAssignable kind => "'" ++ kind ++ "' object does not support item assignment"
  | .badKey kind => "unhashable type: '" ++ kind ++ "'"
  | .noItems kind => "'" ++ kind ++ "' object is not iterable"
  | .noLength kind => "object of type '" ++ kind ++ "' has no len()"
  | .notTakenApart kind => "cannot unpack non-iterable " ++ kind ++ " object"
  | .tooFewItems needed found =>
    "not enough values to unpack (expected " ++ decimal needed ++ ", got " ++ decimal found ++ ")"
  | .tooManyItems needed => "too many values to unpack (expected " ++ decimal needed ++ ")"
  | .notWhole kind => "'" ++ kind ++ "' object cannot be interpreted as an integer"
  | .notText position kind =>
    "sequence item " ++ decimal position ++ ": expected str instance, " ++ kind ++ " found"
  | .notAppended kind other =>
    if kind = "str" then "can only concatenate str (not \"" ++ other ++ "\") to str"
    else "unsupported operand type(s) for +: '" ++ kind ++ "' and '" ++ other ++ "'"
  | .badNumeral s => "invalid literal for int() with base 10: " ++ quoted s
  | .noWholePart => "cannot convert float NaN to integer"
  | .listener message => message
  | .unreachable message => message
  | .leftOpen message => message
  | .ended code => decimalInt code
  | .noConsoleWindows => "module 'subprocess' has no attribute 'CREATE_NEW_CONSOLE'"
  | .unknownTool name => "module 'drtool' has no attribute '" ++ name ++ "'"
  | .incompleteTool name missing =>
    "Can't instantiate abstract class " ++ name ++ " with abstract method"
      ++ (if missing.length = 1 then " " else "s ") ++ joinWith ", " missing
  | .badCall message => message
  | .noReadingPlace => "Text.get() missing 1 required positional argument: 'index1'"
  | .dottedRemoval path climbs =>
    (if climbs then "[Errno 39] Directory not empty: " else "[Errno 22] Invalid argument: ")
      ++ quoted path

end Fault

end ApkWorkshop
