/-!
# Positions counted from either end

A position in a sequence is a whole number: from zero on it counts from the front, below zero it
counts from the back, so that -1 is the last place. Positions outside both ranges name no place.
-/

namespace ApkWorkshop.Position

def resolve? (length : Nat) (i : Int) : Option Nat :=
  if 0 ≤ i then if i.toNat < length then some i.toNat else none
  else if (-i).toNat ≤ length then some (length - (-i).toNat) else none

def get? {α : Type} (items : List α) (i : Int) : Option α :=
  (resolve? items.length i).bind (items[·]?)

/-- The items with the one at a position changed, if the position names a place. -/
def modify? {α : Type} (items : List α) (i : Int) (f : α → α) : Option (List α) :=
  (resolve? items.length i).map (items.modify · f)

end ApkWorkshop.Position
