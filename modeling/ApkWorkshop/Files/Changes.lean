import ApkWorkshop.Files.Files

/-!
# Changes of a file system

What lies below the working folder can be compared at two moments: what is new or different, and
what is gone.
-/

namespace ApkWorkshop.Files

def listedPath (path : String) (content : Option (List UInt8)) : String :=
  if content.isNone then path ++ "/" else path

def listing (f : Files) : List (String × Option (List UInt8)) :=
  f.inventory.map fun (path, content) => (listedPath path content, content)

def made (before after : Files) : List (String × Option (List UInt8)) :=
  let old := before.listing
  after.listing.filter fun (path, content) => old.lookup path != some content

def gone (before after : Files) : List String :=
  let new := after.listing
  (before.listing.filter fun (path, _) => (new.lookup path).isNone).map Prod.fst

end ApkWorkshop.Files
