import ApkWorkshop.Proofs.FileTree

/-!
# Reading What Was Written

Paths as texts and the operations on files that use them.
-/

namespace ApkWorkshop

open List ApkWorkshop.Path

/-! ### The parts of a path -/

namespace Path

theorem partsFrom_append (part xs ys : List Char) :
    partsFrom part (xs ++ '/' :: ys) = partsFrom part xs ++ partsFrom [] ys := by
  induction xs generalizing part with
  | nil => rfl
  | cons c xs ih =>
    by_cases hc : c = '/'
    · subst hc
      rw [cons_append, partsFrom, ih, partsFrom, cons_append]
    · rw [cons_append, partsFrom.eq_3 _ _ _ (by simpa using hc), ih,
        partsFrom.eq_3 _ _ _ (by simpa using hc)]

theorem partsFrom_of_not_mem {cs : List Char} (h : '/' ∉ cs) (part : List Char) :
    partsFrom part cs = [String.ofList (part.reverse ++ cs)] := by
  induction cs generalizing part with
  | nil => rw [partsFrom, append_nil]
  | cons c cs ih =>
    simp only [mem_cons, not_or] at h
    rw [partsFrom.eq_3 _ _ _ (by simpa using Ne.symm h.1), ih h.2, reverse_cons, append_assoc]
    rfl

theorem partsFrom_ne_nil (part cs : List Char) : partsFrom part cs ≠ [] := by
  induction cs generalizing part with
  | nil => simp [partsFrom]
  | cons c cs ih =>
    by_cases hc : c = '/'
    · subst hc
      simp [partsFrom]
    · rw [partsFrom.eq_3 _ _ _ (by simpa using hc)]
      exact ih _

theorem slash_of_getLast?_partsFrom {part cs : List Char}
    (h : (partsFrom part cs).getLast? = some "") :
    cs.getLast? = some '/' ∨ part = [] ∧ cs = [] := by
  induction cs generalizing part with
  | nil =>
    rw [partsFrom, getLast?_singleton, Option.some.injEq] at h
    exact Or.inr ⟨by simpa using h, rfl⟩
  | cons c cs ih =>
    by_cases hc : c = '/'
    · subst hc
      rw [partsFrom, getLast?_cons_of_ne_nil (partsFrom_ne_nil _ _)] at h
      rcases ih h with hlast | ⟨-, rfl⟩
      · left
        rw [getLast?_cons, hlast]
        rfl
      · exact Or.inl rfl
    · rw [partsFrom.eq_3 _ _ _ (by simpa using hc)] at h
      rcases ih h with hlast | ⟨hpart, -⟩
      · left
        rw [getLast?_cons, hlast]
        rfl
      · simp at hpart

/-- **The parts of a path behind a folder** are the parts of the folder and that name. -/
theorem parts_append {folder name : String} {xs : List Char} (hfolder : folder.toList = xs ++ ['/'])
    (hname : '/' ∉ name.toList) :
    parts folder = partsFrom [] xs ++ [""] ∧ parts (folder ++ name) = partsFrom [] xs ++ [name] := by
  constructor
  · rw [parts, hfolder, partsFrom_append]
    rfl
  · rw [parts, String.toList_append, hfolder, append_assoc, singleton_append,
      partsFrom_append, partsFrom_of_not_mem hname]
    simp

theorem bare_eq_self {cs : List Char} (h : cs.getLast? ≠ some '/') : bare cs = cs := by
  rw [bare]
  split
  · rfl
  · cases hrev : cs.reverse with
    | nil => simpa using hrev.symm
    | cons c rest =>
      obtain rfl : cs = rest.reverse ++ [c] := by
        rw [← reverse_reverse cs, hrev, reverse_cons]
      have hc : c ≠ '/' := by simpa using h
      rw [dropWhile_cons_of_neg (by simpa using hc)]
      simp

theorem endsWith_slash (path : String) :
    endsWith path "/" = true ↔ path.toList.getLast? = some '/' := by
  rw [endsWith, isSuffixOf_iff_suffix, getLast?_eq_some_iff]
  constructor
  · rintro ⟨xs, hxs⟩
    exact ⟨xs, hxs.symm⟩
  · rintro ⟨xs, hxs⟩
    exact ⟨xs, hxs.symm⟩

end Path

/-! ### Writing and reading -/

theorem slash_of_follow_eq_vacant {root : Node} {start place : List String} {parts : List String}
    (h : follow root start parts = .vacant place true) : parts.getLast? = some "" := by
  induction parts generalizing start with
  | nil => exact absurd h follow_nil_ne_vacant
  | cons part rest ih =>
    have hfollow := h
    obtain ⟨⟨entries, hentries⟩, ⟨next, -, hnext⟩ | ⟨hname, hnone, hvacant⟩⟩ := follow_cases h trivial
    · have hlast := ih hnext
      rw [getLast?_cons, hlast]
      rfl
    · have hrest : rest ≠ [] := by
        rintro rfl
        simp at hvacant
      rw [follow_cons hentries, if_neg hname.1, if_neg hname.2, if_neg (by simp [hnone])] at hfollow
      split at hfollow
      · rename_i hall
        rw [getLast?_cons_of_ne_nil hrest, getLast?_eq_some_getLast hrest]
        have hempty := all_eq_true.mp hall _ (getLast_mem hrest)
        rw [beq_iff_eq.mp hempty]
      · cases hfollow

namespace Files

variable {f f' : Files} {path : String} {root : Node} {content : List UInt8}

def origin (f : Files) (path : String) : List String :=
  if Path.isAbsolute path then [] else f.home

theorem locate_eq_follow {spot : Spot} (h : f.locate path = spot) (hreached : spot.Reached) :
    path.toList.contains (Char.ofNat 0) = false ∧ path ≠ "" ∧
      follow f.root (f.origin path) (parts path) = spot := by
  subst h
  rw [locate] at hreached ⊢
  split at hreached
  · exact hreached.elim
  split at hreached
  · exact hreached.elim
  · rename_i hzero hempty
    rw [if_neg hzero, if_neg hempty]
    exact ⟨by simpa using hzero, hempty, rfl⟩

theorem locate_of_follow (hzero : path.toList.contains (Char.ofNat 0) = false)
    (hempty : path ≠ "") :
    locate { f with root } path = follow root (f.origin path) (parts path) := by
  rw [locate, if_neg (by simpa using hzero), if_neg hempty]
  rfl

section

variable {place : List String} {node : Node}

theorem get?_of_locate (h : f.locate path = .found place node) : f.root.get? place = some node :=
  get?_of_follow_eq_found (locate_eq_follow h trivial).2.2

theorem free_of_locate {slash : Bool} (h : f.locate path = .vacant place slash) :
    f.root.HasFolder place ∧ f.root.get? place = none :=
  free_of_follow_eq_vacant (locate_eq_follow h trivial).2.2

theorem isFolder_of_follow {entries : Entries} (hzero : path.toList.contains (Char.ofNat 0) = false)
    (hempty : path ≠ "")
    (h : follow f.root (f.origin path) (parts path) = .found place (.folder entries)) :
    f.isFolder path = true := by
  rw [isFolder, locate_of_follow hzero hempty, h]

theorem locate_grows (h : f.locate path = .found place node)
    (hg : Grows f.root root) :
    ∃ node', locate { f with root } path = .found place node' ∧ root.get? place = some node' := by
  obtain ⟨hzero, hempty, hfollow⟩ := locate_eq_follow h trivial
  obtain ⟨node', hnode'⟩ := hg.follow hfollow
  exact ⟨node', by rw [locate_of_follow hzero hempty, hnode'], get?_of_follow_eq_found hnode'⟩

theorem exists_locate_of_read (h : f.read path = .ok content) :
    ∃ place, f.locate path = .found place (.file content) := by
  rw [read] at h
  split at h
  · rename_i place found hlocate
    rw [Except.ok.injEq] at h
    exact ⟨place, h ▸ hlocate⟩
  · cases h
  · cases h

theorem ne_nil_of_locate_file (h : f.locate path = .found place (.file content)) : place ≠ [] := by
  obtain ⟨-, -, hfollow⟩ := locate_eq_follow h trivial
  have hfile := get?_of_follow_eq_found hfollow
  -- the first part of the path was followed from a folder, so the root is no file
  obtain ⟨part, rest, hparts⟩ := exists_cons_of_ne_nil (partsFrom_ne_nil [] path.toList)
  rw [parts, hparts] at hfollow
  obtain ⟨entries, -, hentries, -⟩ := follow_cons_eq_found hfollow
  rintro rfl
  rw [Node.get?_nil, Option.some.injEq] at hfile
  rw [hfile] at hentries
  cases horigin : f.origin path with
  | nil => simp [horigin] at hentries
  | cons name names => simp [horigin] at hentries

end

/-- A file can be **written** at a path, which leads to a place: a file stands there, or nothing
does in a folder that exists. -/
structure CanWrite (f : Files) (path : String) (place : List String) : Prop where
  bare : path.toList.getLast? ≠ some '/'
  spot : (∃ old, f.locate path = .found place (.file old)) ∨ f.locate path = .vacant place false

theorem locateBare_eq_locate (h : path.toList.getLast? ≠ some '/') :
    f.locateBare path = f.locate path := by
  rw [locateBare, bare_eq_self h, String.ofList_toList]

theorem CanWrite.write {place : List String} (h : f.CanWrite path place) (content : List UInt8) :
    f.write path content = .ok { f with root := f.root.put place (.file content) } := by
  have hends : ¬ endsWith path "/" = true := by
    rw [endsWith_slash]
    exact h.bare
  rw [Files.write, locateBare_eq_locate h.bare]
  rcases h.spot with ⟨old, hspot⟩ | hspot <;> rw [hspot] <;> simp only [if_neg hends]

theorem canWrite_of_write (h : f.write path content = .ok f') :
    ∃ place, f.CanWrite path place ∧ f' = { f with root := f.root.put place (.file content) } := by
  have hbare : path.toList.getLast? ≠ some '/' := by
    intro hslash
    rw [Files.write] at h
    split at h
    · rw [if_pos ((endsWith_slash path).mpr hslash)] at h
      cases h
    · rw [if_pos ((endsWith_slash path).mpr hslash)] at h
      cases h
    · cases h
    · cases h
  have hspot : ∃ place, f.CanWrite path place := by
    rw [Files.write, locateBare_eq_locate hbare] at h
    split at h
    · rename_i place old hfound
      exact ⟨place, hbare, Or.inl ⟨old, hfound⟩⟩
    · rename_i place slash hvacant
      refine ⟨place, hbare, Or.inr ?_⟩
      cases slash with
      | false => exact hvacant
      | true =>
        obtain ⟨-, hempty, hfollow⟩ := locate_eq_follow hvacant trivial
        rcases slash_of_getLast?_partsFrom (slash_of_follow_eq_vacant hfollow) with
          hlast | ⟨-, hnil⟩
        · exact absurd hlast hbare
        · exact absurd (by simpa using hnil) hempty
    · cases h
    · cases h
  obtain ⟨place, hplace⟩ := hspot
  refine ⟨place, hplace, ?_⟩
  rw [hplace.write] at h
  exact (Except.ok.inj h).symm

theorem CanWrite.place {place : List String} (h : f.CanWrite path place) :
    f.root.HasFolder place ∧ ∀ entries, f.root.get? place ≠ some (.folder entries) := by
  rcases h.spot with ⟨old, hspot⟩ | hspot
  · have hne := ne_nil_of_locate_file hspot
    have hfile := get?_of_locate hspot
    refine ⟨⟨hne, ?_⟩, by simp [hfile]⟩
    rw [← dropLast_append_getLast hne] at hfile
    exact Node.exists_folder_of_get?_append (by rw [hfile]; rfl) (by simp)
  · obtain ⟨hfolder, hnone⟩ := free_of_locate hspot
    exact ⟨hfolder, by simp [hnone]⟩

variable {place : List String}

theorem CanWrite.grows (h : f.CanWrite path place) (content : List UInt8) :
    Grows f.root (f.root.put place (.file content)) :=
  Grows.put_file h.place.1 h.place.2 content

theorem CanWrite.locate_put (h : f.CanWrite path place) (content : List UInt8) :
    locate { f with root := f.root.put place (.file content) } path =
      .found place (.file content) := by
  have hself := Node.get?_put_self h.place.1 (.file content)
  rcases h.spot with ⟨old, hspot⟩ | hspot
  · obtain ⟨node', hnode', hget⟩ := locate_grows hspot (h.grows content)
    rw [hself, Option.some.injEq] at hget
    rw [hnode', hget]
  · obtain ⟨hzero, hempty, hfollow⟩ := locate_eq_follow hspot trivial
    rw [locate_of_follow hzero hempty, (h.grows content).follow_of_vacant hfollow hself]

theorem CanWrite.put (h : f.CanWrite path place) (content : List UInt8) :
    CanWrite { f with root := f.root.put place (.file content) } path place :=
  ⟨h.bare, Or.inl ⟨content, h.locate_put content⟩⟩

theorem read_write (h : f.write path content = .ok f') : f'.read path = .ok content := by
  obtain ⟨place, hplace, rfl⟩ := canWrite_of_write h
  rw [read, hplace.locate_put]

end Files

end ApkWorkshop
