import ApkWorkshop.Text.Numeral

/-!
# Distinguished names

The owner of a key is named by up to six fields, written with their types in a fixed order and
divided by commas. Empty fields are left out.
-/

namespace ApkWorkshop

open Text

/-- The fields that name the owner of a key. -/
structure DistinguishedName where
  commonName : String
  unit : String
  organisation : String
  locality : String
  state : String
  country : String
deriving DecidableEq

namespace DistinguishedName

def fields (d : DistinguishedName) : List (String × String) := [
  ("CN", d.commonName), ("OU", d.unit), ("O", d.organisation), ("L", d.locality),
  ("ST", d.state), ("C", d.country)]

def text (d : DistinguishedName) : String :=
  joinWith "," ((d.fields.filter fun (_, value) => value != "").map fun (type, value) =>
    type ++ "=" ++ value)

end DistinguishedName

end ApkWorkshop
