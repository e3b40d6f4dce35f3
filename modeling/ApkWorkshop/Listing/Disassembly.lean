import ApkWorkshop.Bytecode.Chunk
import ApkWorkshop.Listing.Grouping
import ApkWorkshop.Listing.Structure

/-!
# Disassembly

A chunk is read from its first byte to its last, and the listing is written while it is read: what
was written before a fault stays written. The offset of every byte is counted along, so that the
listing can show where an instruction stands in the file.
-/

namespace ApkWorkshop.Listing

open Bytecode
open Text

/-- What the listing shows. -/
structure Options where
  constants : Bool := false
  trace : Bool := false
  hexadecimal : Bool := false
  concise : Bool := false
deriving DecidableEq

/-- The state of a disassembly: the bytes still to be read, the offset counted so far, the texts
written to the listing and to the console, the number of functions begun, and the path of the
function being read, its last step first. -/
structure Reading where
  rest : List UInt8
  offset : Nat := 0
  listing : String := ""
  console : String := ""
  onConsole : Bool := false
  begun : Nat := 0
  path : List Nat := [0]
deriving DecidableEq

abbrev Disassembly := ExceptT Fault (StateM Reading)

/-! ### Writing -/

def writeListing (s : String) : Disassembly Unit :=
  modify fun r =>
    if r.onConsole then { r with console := r.console ++ s }
    else { r with listing := r.listing ++ s }

def writeLine (s : String) : Disassembly Unit :=
  writeListing (s ++ "\n")

def writeConsole (s : String) : Disassembly Unit :=
  modify fun r => { r with console := r.console ++ s ++ "\n" }

/-! ### Reading -/

def takeBytes (n : Nat) : Disassembly (List UInt8) := do
  let r ← get
  set { r with rest := r.rest.drop n }
  return r.rest.take n

def countBytes (n : Nat) : Disassembly Unit :=
  modify fun r => { r with offset := r.offset + n }

def littleEndian (bytes : List UInt8) : Nat :=
  bytes.foldr (fun b n => b.toNat + 256 * n) 0

def takeExactly (n : Nat) : Disassembly (List UInt8) := do
  let bytes ← takeBytes n
  if bytes.length = n then return bytes else throw .shortRead

def readWord : Disassembly Nat := do
  countBytes 4
  return littleEndian (← takeExactly 4)

/-- A text record. It ends with a zero byte; that it has all the bytes it announces is not
checked. -/
def readText : Disassembly (Option String) := do
  let length ← readWord
  if length = 0 then return none
  countBytes length
  let bytes ← takeBytes length
  match bytes.getLast? with
  | none => throw .emptyText
  | some last =>
    if last ≠ 0 then throw (.unterminatedText bytes)
    match decode bytes.dropLast with
    | .ok s => return some s
    | .error fault => throw (.badText fault)

def readByte : Disassembly UInt8 := do
  countBytes 1
  match ← takeBytes 1 with
  | b :: _ => return b
  | [] => throw .missingTag

def readConstant : Disassembly Constant := do
  match ← readByte with
  | 0 => return .nil
  | 1 =>
    match ← readByte with
    | 0 => return .truth false
    | 1 => return .truth true
    | b => throw (.badTruth b)
  | 3 =>
    countBytes 8
    return .number ⟨(littleEndian (← takeExactly 8)).toUInt64⟩
  | 4 =>
    match ← readText with
    | some s => return .text s
    | none => return .absent
  | tag => throw (.unknownTag tag)

def repeated {α : Type} (step : Disassembly α) : Nat → Disassembly (List α)
  | 0 => return []
  | n + 1 => do
    let x ← step
    let xs ← repeated step n
    return x :: xs

def readList {α : Type} (record : Disassembly α) : Disassembly (List α) := do
  repeated record (← readWord)

def readCode : Disassembly (List Nat) := do
  let code ← readList readWord
  match code.getLast? with
  | none => throw .noInstructions
  | some last => if last = plainReturn then return code else throw (.noFinalReturn last)

def readConstants (o : Options) : Disassembly (List Constant) := do
  let constants ← readList readConstant
  if o.constants then
    for (k, i) in constants.zipIdx do
      writeLine ("CONST " ++ decimal i ++ " " ++ k.shown)
  return constants

def readParameters : Disassembly Parameters := do
  countBytes 12
  let bytes ← takeExactly 12
  return {
    firstLine := littleEndian (bytes.take 4)
    lastLine := littleEndian ((bytes.drop 4).take 4)
    upvalues := littleEndian ((bytes.drop 8).take 1)
    parameters := littleEndian ((bytes.drop 9).take 1)
    varArg := littleEndian ((bytes.drop 10).take 1)
    registers := littleEndian ((bytes.drop 11).take 1) }

/-! ### Annotations -/

def sortPairs (pairs : List (Int × Int)) : List (Int × Int) :=
  pairs.mergeSort fun p q => decide (p.1 < q.1 ∨ (p.1 = q.1 ∧ p.2 ≤ q.2))

def sortConditions (conditions : List (Nat × Int)) : List (Nat × Int) :=
  conditions.mergeSort fun p q => decide (p.1 < q.1 ∨ (p.1 = q.1 ∧ p.2 ≤ q.2))

def placesText (places : List Nat) : String :=
  "\x7b" ++ joinWith ", " ((places.mergeSort (· ≤ ·)).map decimal) ++ "\x7d"

def conditionsText (conditions : List (Nat × Int)) : String :=
  bracketed (conditions.map fun (i, j) => parenthesized [decimal i, decimalInt j])

def branchesText (stack : List Branch) : String :=
  bracketed (stack.reverse.map Branch.text)

/-- The jumps that are not accounted for, by kind in the order in which the kinds first occur,
and last the alternatives. -/
def openJumps (s : Shape) : List (String × List Nat) :=
  let kinds := (s.lines.map (·.flow)).eraseDups.filterMap fun
    | .straight => none
    | .skipNext => some (Flow.skipNext.label, s.skips)
    | .jump => some (Flow.jump.label, s.jumps)
    | .branch => some (Flow.branch.label, s.branches)
    | .forStart => some (Flow.forStart.label, s.forStarts)
    | .forEnd => some (Flow.forEnd.label, s.forEnds)
    | .forIn => some (Flow.forIn.label, s.forIns)
  (kinds ++ [("else", s.elses)]).filter fun (_, places) => !places.isEmpty

def openJumpsText (jumps : List (String × List Nat)) : String :=
  "\x7b" ++ joinWith ", " (jumps.map fun (kind, places) => quoted kind ++ ": " ++ placesText places)
    ++ "\x7d"

def commentLine (lines : List CodeLine) (i : Int) (comment : String) :
    Except Fault (List CodeLine) :=
  changeLine lines i fun l => { l with comment := some comment }

def writeMerge (m : Merge) : Disassembly Unit := do
  let rule := match m.rule with
    | .into => "ОбъединяемX: "
    | .beside => "ОбъединяемY: "
  writeConsole (rule ++ branchesText m.before)
  writeConsole ("   --->      " ++ branchesText m.after)

def commentLoops (loops : List (Int × Int)) (lines : List CodeLine) :
    Except Fault (List CodeLine) :=
  loops.foldlM (fun ls (i, j) => do commentLine (← commentLine ls i "") (j + 1) "") lines

/-- Structure the lines of a function, comment its groups of conditions and write what is shown
about its structure. -/
def annotate (o : Options) (order : Enumeration) (lines : List CodeLine) :
    Disassembly (List CodeLine) := do
  let shape ← Shape.ofLines order lines
  let conditions := sortConditions shape.conditions
  if o.trace then writeConsole ("STACK: " ++ conditionsText conditions)
  let (merges, stack) := groupBranches conditions
  if o.trace then merges.forM writeMerge
  let mut lines := shape.lines
  if o.trace then lines ← commentLoops shape.loops lines
  for b in stack.reverse do
    if b.group.isMerged then lines ← commentLine lines b.target ""
    if o.trace then writeLine ("# " ++ b.text)
  for b in stack.reverse do
    if b.group.isMerged then
      lines ← commentLine lines b.group.first
        ("\t# " ++ decimalInt b.target ++ ": " ++ b.group.text)
  let jumps := openJumps shape
  if o.trace then
    writeLine ("#blocks: " ++ bracketed ((sortPairs shape.loops).map fun (i, j) =>
      bracketed [decimalInt i, decimalInt j]))
    writeLine ("#stack:  " ++ conditionsText conditions)
    writeLine ("#stack2: " ++ branchesText stack)
  if o.trace || jumps.any (·.1 == Flow.jump.label) then
    writeLine ("#gotoes: " ++ openJumpsText jumps)
  return lines

/-! ### Functions -/

/-- The label of a function: how many functions began before it, and the way to it. -/
def functionLabel (begun : Nat) (path : List Nat) : String :=
  "[" ++ decimal begun ++ ": " ++ joinWith ", " (path.map decimal) ++ "]"

def functionLine (begun : Nat) (path : List Nat) (p : Parameters) : String :=
  "FUNC " ++ functionLabel begun path ++ " "
    ++ parenthesized ([p.firstLine, p.lastLine, p.upvalues, p.parameters, p.varArg,
        p.registers].map decimal)
    ++ " ;; #upvalues, #parameters, 1=VARARG_HASARG|2=VARARG_ISVARARG|4=VARARG_NEEDSARG, #registers"

/-- An instruction on a full line: place, jump, indented description and canonical line. -/
def fullLine (place : Nat) (l : CodeLine) : String :=
  let target := match l.target with
    | some t => decimalInt t
    | none => ""
  padStart 3 ' ' (decimal place) ++ ".  " ++ padEnd 8 l.flow.label ++ " " ++ padStart 3 ' ' target
    ++ "   " ++ times l.indent ".   " ++ padEnd 60 l.text ++ " ; " ++ l.line

/-- Write the instructions of a function. The first instruction word stands at `offset`. -/
def writeCode (o : Options) (offset : Nat) (words : List Nat) (lines : List CodeLine) :
    Disassembly Unit :=
  (words.zip lines).zipIdx.forM fun ((word, l), i) =>
    if o.concise then writeLine (times l.indent "   " ++ l.text)
    else do
      if let some comment := l.comment then writeLine comment
      if o.hexadecimal then
        writeListing (padStart 5 ' ' (hex (offset + 4 * i)) ++ " " ++ padStart 8 ' ' (hex word)
          ++ " ")
      writeLine (fullLine i l)

def optionalText : Option String → String
  | none => "None"
  | some s => quoted s

def readDebug : Disassembly DebugRecords := do
  let lines ← readList readWord
  if !lines.isEmpty then
    writeLine ("#source_line_positions: " ++ bracketed (lines.map decimal))
  let locals ← readList do
    let name ← readText
    let first ← readWord
    let stop ← readWord
    return ({ name, first, stop } : LocalVariable)
  if !locals.isEmpty then
    writeLine ("#local_vars: " ++ bracketed (locals.map fun v =>
      parenthesized [optionalText v.name, decimal v.first, decimal v.stop]))
  let upvalues ← readList readText
  if !upvalues.isEmpty then
    writeLine ("#upvalues: " ++ bracketed (upvalues.map optionalText))
  return { lines, locals, upvalues }

/-- Enter the inner functions: a function has begun, and the path gets a step. -/
def enterInner : Disassembly Unit :=
  modify fun r => { r with begun := r.begun + 1, path := 0 :: r.path }

/-- Leave the inner functions: the path loses its step, and its last step counts up. -/
def leaveInner : Disassembly Unit :=
  modify fun r => { r with path := match r.path.drop 1 with
    | [] => []
    | step :: above => (step + 1) :: above }

/-- Read a function and write its listing. Every function takes bytes, so the number of bytes
bounds the depth of nesting. -/
def readFunction (o : Options) (order : Enumeration) : Nat → Disassembly Function
  | 0 => throw .shortRead
  | depth + 1 => do
    let source ← readText
    let parameters ← readParameters
    let r ← get
    writeLine ("\n" ++ functionLine r.begun r.path.reverse parameters)
    if let some name := source then
      if name ≠ "" then writeLine ("#func_name: " ++ quoted name)
    let offset := r.offset + 4
    let code ← readCode
    let constants ← readConstants o
    let descriptions ← code.mapM fun (w : Nat) => (Description.ofWord constants w : Except Fault _)
    let lines ← annotate o order (codeLines descriptions)
    writeCode o offset code lines
    enterInner
    let count ← readWord
    if o.constants then writeLine ("FUNCS_NUM: " ++ decimal count)
    let inner ← repeated (readFunction o order depth) count
    leaveInner
    let debug ← readDebug
    return .mk source parameters code constants inner debug

def readChunk (o : Options) (order : Enumeration) : Disassembly Function := do
  let header ← takeBytes 12
  if header ≠ chunkHeader then throw (.badHeader header)
  modify fun r => { r with offset := 12 }
  readFunction o order (← get).rest.length

/-- The outcome of a disassembly: the function tree or the fault, and what was written. -/
structure Outcome where
  result : Except Fault Function
  listing : String
  console : String

def disassemble (o : Options) (onConsole : Bool) (bytes : List UInt8) : Outcome :=
  let (result, reading) := (readChunk o .ascending).run { rest := bytes, onConsole } |>.run
  ⟨result, reading.listing, reading.console⟩

end ApkWorkshop.Listing
