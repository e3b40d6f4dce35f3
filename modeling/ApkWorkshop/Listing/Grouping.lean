import ApkWorkshop.Text.Quoted

/-!
# Groups of conditions

Conditions that guard one body together are merged into groups. The conditions are taken in
ascending order onto a stack; the two topmost groups merge when the lower one leads into the body
of the condition just taken (`x`), or when both lead to the same line (`y`). A group is shown in
postfix notation with the line numbers of its conditions as leaves.
-/

namespace ApkWorkshop.Listing

open Text

/-- A group of conditions, by their line numbers. -/
inductive Group
  | leaf (line : Nat)
  | into (left right : Group)
  | beside (left right : Group)
deriving DecidableEq

def Group.text : Group → String
  | .leaf line => decimal line
  | .into left right => left.text ++ " " ++ right.text ++ " x"
  | .beside left right => left.text ++ " " ++ right.text ++ " y"

def Group.first : Group → Nat
  | .leaf line => line
  | .into left _ => left.first
  | .beside left _ => left.first

def Group.isMerged : Group → Bool
  | .leaf _ => false
  | _ => true

/-- A group and the line it leads to. -/
structure Branch where
  target : Int
  group : Group
deriving DecidableEq

def Branch.text (b : Branch) : String :=
  bracketed [decimalInt b.target, quoted b.group.text]

/-- Which of the two rules merged two branches. -/
inductive MergeRule
  | into
  | beside
deriving DecidableEq

/-- Merge the two topmost branches, if a rule applies; `line` is the condition taken last, and the
top of the stack stands first. -/
def mergeTop? (line : Nat) : List Branch → Option (MergeRule × List Branch)
  | top :: under :: rest =>
    if under.target = (line : Int) + 2 then
      some (.into, ⟨top.target, .into under.group top.group⟩ :: rest)
    else if under.target = top.target then
      some (.beside, ⟨under.target, .beside under.group top.group⟩ :: rest)
    else none
  | _ => none

/-- A merge as it is traced: the rule, and the stack before and after. -/
structure Merge where
  rule : MergeRule
  before : List Branch
  after : List Branch
deriving DecidableEq

/-- Merge while a rule applies. Every merge shortens the stack, so its length bounds their
number. -/
def mergeAll (line : Nat) : Nat → List Branch → List Merge × List Branch
  | 0, stack => ([], stack)
  | fuel + 1, stack =>
    match mergeTop? line stack with
    | none => ([], stack)
    | some (rule, next) =>
      let (merges, last) := mergeAll line fuel next
      (⟨rule, stack, next⟩ :: merges, last)

def takeBranch (state : List Merge × List Branch) (condition : Nat × Int) :
    List Merge × List Branch :=
  let stack := ⟨condition.2, .leaf condition.1⟩ :: state.2
  let (merges, stack) := mergeAll condition.1 stack.length stack
  (state.1 ++ merges, stack)

/-- The groups of conditions given in ascending order, with the merges that made them; the group
that was opened last stands first. -/
def groupBranches (conditions : List (Nat × Int)) : List Merge × List Branch :=
  conditions.foldl takeBranch ([], [])

end ApkWorkshop.Listing
