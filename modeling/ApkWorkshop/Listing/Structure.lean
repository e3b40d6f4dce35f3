import ApkWorkshop.Bytecode.Description

/-!
# The structure of a function body

Instructions only jump; a reader wants loops, conditions and their nesting. Six passes find the
structure: numeric loops, loops over iterators, other backward jumps, breaks, conditions and
their alternatives. Each pass enumerates a set of line numbers, checks the shape that compiled
code has there, raises the indent of the lines inside and marks the lines that open something.

The sets have no order of their own, so the order in which a pass takes its lines is a parameter,
an `Enumeration`; listings are made with the ascending one.
-/

namespace ApkWorkshop.Listing

open Bytecode

/-- A line of a function body: the description of an instruction, where it jumps to, its indent
and the comment above it. -/
structure CodeLine where
  text : String
  line : String
  flow : Flow
  target : Option Int
  indent : Int := 0
  comment : Option String := none
deriving DecidableEq

/-- The line of a described instruction at a place: distances become line numbers. -/
def CodeLine.ofDescription (place : Nat) (d : Description) : CodeLine where
  text := d.text
  line := d.line
  flow := d.flow
  target := if d.flow = .straight then none else some (d.distance + place + 1)

def CodeLine.leads (l : CodeLine) (flow : Flow) (target : Int) : Bool :=
  l.flow == flow && l.target == some target

def codeLines (ds : List Description) : List CodeLine :=
  ds.zipIdx.map fun (d, i) => CodeLine.ofDescription i d

/-- The order in which each pass takes the lines of its set. -/
structure Enumeration where
  forLoops : List Nat → List Nat
  forIns : List Nat → List Nat
  backJumps : List Nat → List Nat
  breaks : List Nat → List Nat
  conditions : List Nat → List Nat
  alternatives : List Nat → List Nat

def Enumeration.ascending : Enumeration := ⟨id, id, id, id, id, id⟩

/-- What is known about a function body: its lines, the loops and conditions found so far, and
for each kind of jump the lines that are not accounted for. -/
structure Shape where
  lines : List CodeLine
  loops : List (Int × Int) := []
  conditions : List (Nat × Int) := []
  forStarts : List Nat
  forEnds : List Nat
  forIns : List Nat
  jumps : List Nat
  branches : List Nat
  skips : List Nat
  elses : List Nat := []
deriving DecidableEq

def placesOf (flow : Flow) (lines : List CodeLine) : List Nat :=
  (lines.zipIdx.filter fun (l, _) => l.flow == flow).map (·.2)

def Shape.start (lines : List CodeLine) : Shape where
  lines := lines
  forStarts := placesOf .forStart lines
  forEnds := placesOf .forEnd lines
  forIns := placesOf .forIn lines
  jumps := placesOf .jump lines
  branches := placesOf .branch lines
  skips := placesOf .skipNext lines

def lineAt (lines : List CodeLine) (i : Int) : Except Fault CodeLine :=
  match Position.get? lines i with
  | some l => .ok l
  | none => .error .outsideFunction

def changeLine (lines : List CodeLine) (i : Int) (f : CodeLine → CodeLine) :
    Except Fault (List CodeLine) :=
  match Position.modify? lines i f with
  | some ls => .ok ls
  | none => .error .outsideFunction

def requireLoop (b : Bool) : Except Fault Unit :=
  if b then .ok () else .error .brokenLoop

def positions (first stop : Int) : List Int :=
  (List.range (stop - first).toNat).map fun (k : Nat) => first + k

def indentLines (lines : List CodeLine) (first stop : Int) : Except Fault (List CodeLine) :=
  (positions first stop).foldlM
    (fun ls i => changeLine ls i fun l => { l with indent := l.indent + 1 }) lines

def markLine (lines : List CodeLine) (i : Int) (mark : String) : Except Fault (List CodeLine) :=
  changeLine lines i fun l => { l with text := mark ++ l.text }

def without (places : List Nat) (i : Int) : List Nat :=
  places.filter fun place => (place : Int) != i

/-- A numeric loop: its start jumps forward to its end, which jumps back behind the start. -/
def takeForLoop (s : Shape) (i : Nat) : Except Fault Shape := do
  let some j := (← lineAt s.lines i).target | throw .brokenLoop
  requireLoop (i < j)
  let last ← lineAt s.lines j
  requireLoop (last.flow == .forEnd)
  requireLoop (last.target == some (i + 1 : Int))
  let lines ← indentLines s.lines (i + 1) (j + 1)
  return { s with
    lines := lines
    loops := s.loops ++ [((i : Int), j)]
    forEnds := without s.forEnds j
    forStarts := without s.forStarts i }

/-- A loop over an iterator: the iterator is followed by a jump back to the body, and the line
before the body jumps to the iterator. -/
def takeForIn (s : Shape) (i : Nat) : Except Fault Shape := do
  let back ← lineAt s.lines (i + 1)
  requireLoop (back.flow == .jump)
  let some j := back.target | throw .brokenLoop
  requireLoop (j < i)
  let entry ← lineAt s.lines (j - 1)
  requireLoop (entry.leads .jump i)
  let lines ← indentLines s.lines j (i + 2)
  let lines ← markLine lines (j - 1) "TFOR:  "
  return { s with
    lines := lines
    loops := s.loops ++ [(j - 1, (i + 1 : Int))]
    jumps := without (without s.jumps (i + 1)) (j - 1)
    forIns := without s.forIns i }

/-- A jump back ends a loop; a condition directly before it makes it the end of a repetition. -/
def takeBackJump (s : Shape) (i : Nat) : Except Fault Shape := do
  let some j := (← lineAt s.lines i).target | throw .brokenLoop
  if (i : Int) < j then return s
  let lines ← indentLines s.lines (j + 1) (i + 1)
  let before ← lineAt lines (i - 1)
  let repeats := before.flow == .branch
  let lines ← markLine lines j (if repeats then "REPEAT: " else "WHILE: ")
  return { s with
    lines := lines
    loops := s.loops ++ [(j, (i : Int))]
    jumps := without s.jumps i
    branches := if repeats then without s.branches (i - 1) else s.branches }

/-- A jump out of one loop to the line behind it. A jump that belongs to a condition stays in the
set, since the condition still has to be found. -/
def takeBreakOf (i : Nat) (s : Shape) (loop : Int × Int) : Except Fault Shape := do
  let l ← lineAt s.lines i
  if loop.1 < i && (i : Int) < loop.2 && l.target == some (loop.2 + 1) then
    let lines ← markLine s.lines i "BREAK: "
    let before ← lineAt lines (i - 1)
    return { s with
      lines := lines
      jumps := if before.leads .branch (i + 1) then s.jumps else without s.jumps i }
  else return s

def takeBreak (s : Shape) (i : Nat) : Except Fault Shape :=
  s.loops.foldlM (takeBreakOf i) s

def takeCondition (s : Shape) (i : Nat) : Except Fault Shape := do
  requireLoop (s.jumps.contains (i + 1))
  let some j := (← lineAt s.lines (i + 1)).target | throw .brokenLoop
  if j ≤ i then throw (.notForward i j)
  let lines ← indentLines s.lines (i + 2) j
  return { s with
    lines := lines
    branches := without s.branches i
    jumps := without s.jumps (i + 1)
    conditions := s.conditions ++ [(i, j)] }

/-- A jump that is left over starts the alternative of the condition whose body ends here, or of
one whose body ends one line later when two truth values are loaded; otherwise it is the
alternative of a condition that is always true. -/
def takeAlternative (s : Shape) (i : Nat) : Except Fault Shape := do
  let some j := (← lineAt s.lines i).target | throw .brokenLoop
  if j ≤ i then throw (.notForward i j)
  let ends (place : Int) : Bool := s.conditions.any fun (_, target) => target == place
  let lower (l : CodeLine) : CodeLine := { l with indent := l.indent - 1 }
  let loads ←
    if ends (i + 2) then pure ((← lineAt s.lines (i + 1)).leads .skipNext (i + 3))
    else pure false
  if ends (i + 1) then
    let lines ← markLine (← changeLine s.lines i lower) i "ELSE: "
    let lines ← indentLines lines (i + 1) j
    return { s with
      lines := lines, jumps := without s.jumps i, elses := s.elses ++ [i + 1] }
  else if loads then
    let lines ← markLine (← changeLine s.lines i lower) i "ELSE2: "
    let lines ← indentLines lines (i + 1) j
    return { s with
      lines := lines, jumps := without s.jumps i, elses := s.elses ++ [i + 2] }
  else
    let lines ← markLine s.lines i "IF-TRUE-ELSE: "
    let lines ← indentLines lines (i + 1) j
    return { s with lines := lines }

def Shape.ofLines (order : Enumeration) (lines : List CodeLine) : Except Fault Shape := do
  let s := Shape.start lines
  let s ← (order.forLoops s.forStarts).foldlM takeForLoop s
  requireLoop s.forEnds.isEmpty
  let s ← (order.forIns s.forIns).foldlM takeForIn s
  let s ← (order.backJumps s.jumps).foldlM takeBackJump s
  let s ← (order.breaks s.jumps).foldlM takeBreak s
  let s ← (order.conditions s.branches).foldlM takeCondition s
  (order.alternatives s.jumps).foldlM takeAlternative s

end ApkWorkshop.Listing
