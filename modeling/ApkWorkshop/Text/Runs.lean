/-!
# Runs of code points

A character class of the Unicode standard is kept as the lengths of its runs of code points: those
outside of the class and those inside of it, in turn, beginning with those outside. Membership is
a walk over the runs up to the one that holds the code point.
-/

namespace ApkWorkshop.Text

/-- Is the code point in a run inside of the class? `inside` tells whether the first run is. -/
def insideRuns (inside : Bool) : List Nat → Nat → Bool
  | [], _ => false
  | length :: rest, c => if c < length then inside else insideRuns (!inside) rest (c - length)

end ApkWorkshop.Text
