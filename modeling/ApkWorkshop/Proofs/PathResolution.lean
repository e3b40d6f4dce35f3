import ApkWorkshop.Proofs.ArchivePacking

/-!
# Where Paths Lead

A path is resolved part by part, without a look at the files: a dot stays, two dots go up, a name
goes down. Following a path through the files can fail, but where it leads somewhere, it leads to
the place that resolving gives. So the place of a file is known from its path.
-/

namespace ApkWorkshop

open List

variable {root : Node} {start place parts : List String}

/-! ### Resolving -/

namespace Path

variable {place parts below : List String}

def advance (place : List String) (part : String) : List String :=
  if part = "" ∨ part = "." then place
  else if part = ".." then place.dropLast
  else place ++ [part]

def resolve (place : List String) (parts : List String) : List String :=
  parts.foldl advance place

@[simp] theorem resolve_nil (place : List String) : resolve place [] = place := rfl

@[simp] theorem resolve_cons (place : List String) (part : String) (rest : List String) :
    resolve place (part :: rest) = resolve (advance place part) rest := rfl

theorem resolve_append (place xs ys : List String) :
    resolve place (xs ++ ys) = resolve (resolve place xs) ys :=
  foldl_append

theorem resolve_slashes {slashes : List String} (h : ∀ part ∈ slashes, part = "") :
    resolve place slashes = place := by
  induction slashes with
  | nil => rfl
  | cons part rest ih =>
    rw [resolve_cons, advance, if_pos (.inl (h part mem_cons_self))]
    exact ih fun other hother => h other (mem_cons_of_mem part hother)

theorem mem_of_mem_resolve {name : String} (h : name ∈ resolve place parts) :
    name ∈ place ∨ name ∈ parts := by
  induction parts generalizing place with
  | nil => exact Or.inl h
  | cons part rest ih =>
    rcases ih h with hplace | hrest
    · rw [advance] at hplace
      split at hplace
      · exact Or.inl hplace
      split at hplace
      · exact Or.inl (mem_of_mem_dropLast hplace)
      · rcases mem_append.mp hplace with hold | hnew
        · exact Or.inl hold
        · exact Or.inr (by simp [mem_singleton.mp hnew])
    · exact Or.inr (mem_cons_of_mem _ hrest)

/-! ### Staying below -/

/-- Do parts, followed from a place so far below a folder, never lead out of the folder and end
below it? -/
def descends : Nat → List String → Bool
  | depth, [] => depth != 0
  | depth, part :: rest =>
    if part = "" ∨ part = "." then descends depth rest
    else if part = ".." then depth != 0 && descends (depth - 1) rest
    else descends (depth + 1) rest

theorem exists_resolve_of_descends (h : descends below.length parts = true) (base : List String) :
    ∃ rest, rest ≠ [] ∧ resolve (base ++ below) parts = base ++ rest := by
  induction parts generalizing below with
  | nil =>
    refine ⟨below, ?_, rfl⟩
    rintro rfl
    simp [descends] at h
  | cons part rest ih =>
    rw [descends] at h
    rw [resolve_cons, advance]
    split at h
    · rename_i hstay
      rw [if_pos hstay]
      exact ih h
    rename_i hstay
    rw [if_neg hstay]
    split at h
    · rename_i hup
      rw [if_pos hup]
      simp only [Bool.and_eq_true, bne_iff_ne, ne_eq, length_eq_zero_iff] at h
      rw [dropLast_append_of_ne_nil h.1]
      exact ih (by rw [length_dropLast]; exact h.2)
    · rename_i hup
      rw [if_neg hup, append_assoc]
      exact ih (by rw [length_append]; exact h)

theorem resolve_ne_of_descends_eq_false {base : String} (h : descends below.length parts = false)
    (hparts : base ∉ parts) (rest : List String) (hrest : rest ≠ []) :
    resolve (base :: below) parts ≠ base :: rest := by
  induction parts generalizing below with
  | nil =>
    obtain rfl : below = [] := by simpa [descends] using h
    simpa using hrest
  | cons part parts ih =>
    rw [mem_cons, not_or] at hparts
    rw [descends] at h
    rw [resolve_cons, advance]
    split at h
    · rename_i hstay
      rw [if_pos hstay]
      exact ih h hparts.2
    rename_i hstay
    rw [if_neg hstay]
    split at h
    · rename_i hup
      rw [if_pos hup]
      cases below with
      | nil =>
        -- the way is above the folder, and the name of the folder does not come again
        intro heq
        rcases mem_of_mem_resolve (heq ▸ mem_cons_self : base ∈ _) with hnil | hmem
        · simp at hnil
        · exact hparts.2 hmem
      | cons name below =>
        refine ih ?_ hparts.2
        simpa using h
    · rename_i hup
      rw [if_neg hup, cons_append]
      exact ih (by rw [length_append]; exact h) hparts.2

/-- The place lies below the other one. -/
def Inside (base place : List String) : Prop :=
  ∃ below, below ≠ [] ∧ place = base ++ below

theorem descends_iff (parts : List String) :
    descends 0 parts = true ↔ ∀ base, Inside base (resolve base parts) := by
  constructor
  · intro h base
    obtain ⟨rest, hrest, heq⟩ := @exists_resolve_of_descends parts [] h base
    exact ⟨rest, hrest, by simpa using heq⟩
  · intro h
    by_contra hnot
    obtain ⟨base, hbase⟩ := Infinite.exists_notMem_finset parts.toFinset
    obtain ⟨rest, hrest, heq⟩ := h [base]
    exact @resolve_ne_of_descends_eq_false parts [] base (by simpa using hnot)
      (by simpa using hbase) rest hrest heq

/-! ### Joined paths -/

theorem join_ne_empty {first : String} (h : first ≠ "") (second : String) :
    join first second ≠ "" := by
  rw [join]
  split
  · rename_i habsolute
    rintro rfl
    cases habsolute
  split
  · exact fun hempty => h (String.append_eq_empty_iff.mp hempty).1
  · exact fun hempty => h (String.append_eq_empty_iff.mp (String.append_eq_empty_iff.mp hempty).1).1

end Path

/-! ### The place of a path -/

theorem Leads.advance {next : List String} {part : String} (h : Leads root start part next) :
    Path.advance start part = next := by
  rw [Path.advance]
  cases h with
  | stay h => rw [if_pos h]
  | up h => rw [if_neg (by simp [h]), if_pos h]
  | down hname h => rw [if_neg hname.1, if_neg hname.2]

theorem resolve_of_follow_eq_found {node : Node} (h : follow root start parts = .found place node) :
    Path.resolve start parts = place := by
  induction parts generalizing start with
  | nil => exact (follow_nil_eq_found h).1
  | cons part rest ih =>
    obtain ⟨-, next, -, hleads, hnext⟩ := follow_cons_eq_found h
    rw [Path.resolve_cons, hleads.advance, ih hnext]

theorem resolve_of_follow_eq_vacant {slash : Bool}
    (h : follow root start parts = .vacant place slash) : Path.resolve start parts = place := by
  induction parts generalizing start with
  | nil => exact absurd h follow_nil_ne_vacant
  | cons part rest ih =>
    obtain ⟨⟨entries, hentries⟩, ⟨next, hleads, hnext⟩ | ⟨hname, hnone, -⟩⟩ := follow_cases h trivial
    · rw [Path.resolve_cons, hleads.advance, ih hnext]
    · rw [Path.resolve_cons, Path.advance, if_neg hname.1, if_neg hname.2]
      rw [follow_cons hentries, if_neg hname.1, if_neg hname.2, hnone, if_neg (by simp)] at h
      split at h
      · rename_i hslashes
        rw [Path.resolve_slashes (by simpa using hslashes)]
        exact (Spot.vacant.inj h).1
      · cases h

/-! ### Contents by place -/

theorem Node.content?_put {new : Node} (h : root.HasFolder place)
    (hfree : ∀ entries, root.get? place ≠ some (.folder entries))
    (hnew : ∀ name rest, new.get? (name :: rest) = none) (other : List String) :
    ((root.put place new).get? other).bind content? =
      if other = place then new.content? else (root.get? other).bind content? := by
  by_cases habove : place <+: other
  · obtain ⟨rest, rfl⟩ := habove
    rw [get?_put_append h]
    cases rest with
    | nil => simp
    | cons name rest =>
      have hbefore : root.get? (place ++ name :: rest) = none := by
        by_contra hsome
        obtain ⟨entries, hentries⟩ := exists_folder_of_get?_append
          (Option.isSome_iff_ne_none.mpr hsome) (by simp)
        exact hfree entries hentries
      rw [hnew, hbefore, if_neg (by simp)]
  · have hne : other ≠ place := by
      rintro rfl
      exact habove (prefix_refl _)
    rw [if_neg hne]
    by_cases hbelow : other <+: place
    · obtain ⟨rest, rfl⟩ := hbelow
      have hrest : rest ≠ [] := by
        rintro rfl
        exact hne (by simp)
      -- what is above the place is a folder, before and after
      obtain ⟨-, found, hfound⟩ := h
      rw [dropLast_append_of_ne_nil hrest] at hfound
      obtain ⟨entries, hentries⟩ : ∃ entries, root.get? other = some (.folder entries) := by
        by_cases hlast : rest.dropLast = []
        · exact ⟨found, by simpa [hlast] using hfound⟩
        · exact exists_folder_of_get?_append (by rw [hfound]; rfl) hlast
      obtain ⟨entries', hentries'⟩ := exists_folder_put new hentries habove
      rw [hentries, hentries']
      rfl
    · rw [get?_put_of_aside new habove hbelow]

namespace Files

variable {f f' : Files} {path : String} {content : List UInt8} {R : Files → Files → Prop}

/-- The place that a path names: the names on the way to it from the root. -/
def wayTo (f : Files) (path : String) : List String :=
  Path.resolve (f.origin path) (Path.parts path)

/-- The content of the file at a place. -/
def contentAt (f : Files) (place : List String) : Option (List UInt8) :=
  (f.root.get? place).bind Node.content?

theorem CanWrite.wayTo {place : List String} (h : f.CanWrite path place) :
    f.wayTo path = place := by
  rcases h.spot with ⟨old, hspot⟩ | hspot
  · exact resolve_of_follow_eq_found (locate_eq_follow hspot trivial).2.2
  · exact resolve_of_follow_eq_vacant (locate_eq_follow hspot trivial).2.2

/-- **Writing a file** changes the content at the place of its path, and at no other place. -/
theorem contentAt_write (h : f.write path content = .ok f') (place : List String) :
    f'.contentAt place = if place = f.wayTo path then some content else f.contentAt place := by
  obtain ⟨written, hwritten, rfl⟩ := canWrite_of_write h
  rw [hwritten.wayTo]
  exact Node.content?_put hwritten.place.1 hwritten.place.2 (fun _ _ => rfl) place

theorem home_write (h : f.write path content = .ok f') : f'.home = f.home := by
  obtain ⟨place, -, rfl⟩ := canWrite_of_write h
  rfl

/-- The same files with the same contents, and the same working folder. -/
structure SameContents (f f' : Files) : Prop where
  home : f'.home = f.home
  contentAt : ∀ place, f'.contentAt place = f.contentAt place

theorem SameContents.refl (f : Files) : f.SameContents f :=
  ⟨rfl, fun _ => rfl⟩

theorem SameContents.trans {f'' : Files} (h : f.SameContents f') (h' : f'.SameContents f'') :
    f.SameContents f'' :=
  ⟨h'.home.trans h.home, fun place => (h'.contentAt place).trans (h.contentAt place)⟩

theorem SameContents.makeFolder (h : f.makeFolder path = .ok f') : f.SameContents f' := by
  rw [Files.makeFolder] at h
  split at h
  · cases h
  · rename_i place slash hvacant
    obtain ⟨hfolder, hnone⟩ := free_of_locate hvacant
    cases h
    refine ⟨rfl, fun other => ?_⟩
    refine (@Node.content?_put _ _ (.folder .nil) hfolder (by simp [hnone]) (fun _ _ => rfl)
      other).trans ?_
    split
    · rename_i heq
      rw [Files.contentAt, heq, hnone]
      rfl
    · rfl
  · cases h

theorem makeFolders_keeps_on {P : String → Prop} (hrefl : ∀ f, R f f)
    (htrans : ∀ f f' f'', R f f' → R f' f'' → R f f'')
    (hfolder : ∀ path, P path → P (Path.folder path))
    (hmake : ∀ f f' path, P path → f.makeFolder path = .ok f' → R f f') (f : Files)
    (hpath : P path) : R f (f.makeFolders path).1 := by
  have hensure : ∀ f path, P path → R f (Files.ensureFolder f path).1 := by
    intro f path hpath
    rw [Files.ensureFolder]
    split
    · rename_i made hmade
      exact hmake f made path hpath hmade
    · split <;> exact hrefl f
  rw [makeFolders]
  generalize path.length + 1 = fuel
  induction fuel generalizing f path with
  | zero => exact hrefl f
  | succ fuel ih =>
    have htrimmed : P (if Path.name path = "" then Path.folder path else path) := by
      split
      · exact hfolder path hpath
      · exact hpath
    rw [Files.makeFoldersFuel]
    generalize (if Path.name path = "" then Path.folder path else path) = trimmed at *
    split
    · have habove := ih f (hfolder trimmed htrimmed)
      split
      · rename_i f' hf'
        rw [hf'] at habove
        split
        · exact habove
        · exact htrans _ _ _ habove (hensure f' path hpath)
      · rename_i f' occupied hf'
        rw [hf'] at habove
        split
        · exact habove
        · exact htrans _ _ _ habove (hensure f' path hpath)
      · exact habove
    · exact hensure f path hpath

theorem makeFolders_keeps (hrefl : ∀ f, R f f) (htrans : ∀ f f' f'', R f f' → R f' f'' → R f f'')
    (hmake : ∀ f f' path, f.makeFolder path = .ok f' → R f f') (f : Files) (path : String) :
    R f (f.makeFolders path).1 :=
  makeFolders_keeps_on (P := fun _ => True) hrefl htrans (fun _ _ => trivial)
    (fun f f' path _ => hmake f f' path) f trivial

theorem SameContents.makeFolders (f : Files) (path : String) :
    f.SameContents (f.makeFolders path).1 :=
  makeFolders_keeps .refl (fun _ _ _ => .trans) (fun _ _ _ => .makeFolder) f path

end Files

end ApkWorkshop
