import ApkWorkshop.Proofs.FileAccess

/-!
# The Files of a Folder

A path that ends with a slash and leads to a folder, followed by a name, leads to the entry with
that name, or to the free place for it.
-/

namespace ApkWorkshop

open List String ApkWorkshop.Path

variable {root node : Node} {place : List String}

/-- A name that an entry of a folder can have: not empty, without slash and zero byte, and none of
the two names with a meaning in paths. -/
structure ProperName (name : String) : Prop where
  ne_empty : name ≠ ""
  no_slash : '/' ∉ name.toList
  no_zero : name.toList.contains (Char.ofNat 0) = false
  ne_dot : name ≠ "."
  ne_dots : name ≠ ".."

/-- A folder with proper names, each once, listed in any order. -/
structure Entries.Proper (entries : Entries) : Prop where
  nodup : entries.names.Nodup
  name : ∀ name ∈ entries.names, ProperName name

/-! ### Entries and their names -/

namespace Entries

variable {name : String} {node : Node}

theorem names_cons (name : String) (node : Node) (rest : Entries) :
    (cons name node rest).names = name :: rest.names := rfl

theorem toList_cons (name : String) (node : Node) (rest : Entries) :
    (cons name node rest).toList = (name, node) :: rest.toList := rfl

theorem perm_toList_put (node : Node) : ∀ {entries : Entries},
    name ∉ entries.names → (entries.put name node).toList.Perm ((name, node) :: entries.toList)
  | .nil, _ => .refl _
  | .cons other old rest, h => by
      rw [names_cons, mem_cons, not_or] at h
      rw [put, if_neg h.1]
      split
      · exact .refl _
      · exact ((perm_toList_put node h.2).cons _).trans (.swap _ _ _)

theorem mem_names_put {other : String} : ∀ {entries : Entries},
    other ∈ (entries.put name node).names → other = name ∨ other ∈ entries.names
  | .nil, h => by simpa [put, names, toList] using h
  | .cons first old rest, h => by
      rw [put] at h
      split at h
      · rw [names_cons, mem_cons] at h ⊢
        exact h.imp_right Or.inr
      split at h
      · simpa [names_cons] using h
      · rw [names_cons, mem_cons] at h ⊢
        rcases h with h | h
        · exact Or.inr (Or.inl h)
        · exact (mem_names_put h).imp_right Or.inr

theorem nodup_names_put (name : String) (node : Node) : ∀ {entries : Entries},
    entries.names.Nodup → (entries.put name node).names.Nodup
  | .nil, _ => by simp [put, names, toList]
  | .cons other old rest, h => by
      have hrest := nodup_cons.mp (names_cons other old rest ▸ h)
      rw [put]
      split
      · rename_i hname
        rw [hname]
        exact h
      split
      · rename_i hname hnew
        refine nodup_cons.mpr ⟨fun hmem => ?_, h⟩
        exact (mem_cons.mp hmem).elim hname hnew.2
      · rename_i hname _
        refine nodup_cons.mpr ⟨fun hmem => ?_, nodup_names_put name node hrest.2⟩
        exact (mem_names_put hmem).elim (hname ∘ Eq.symm) hrest.1

theorem mem_names_of_get? : ∀ {entries : Entries},
    entries.get? name = some node → name ∈ entries.names
  | .nil, h => by simp at h
  | .cons other old rest, h => by
      rw [get?_cons] at h
      rw [names_cons, mem_cons]
      split at h
      · rename_i hname
        exact .inl hname
      · exact .inr (mem_names_of_get? h)

theorem exists_toList_put {old : Node} (new : Node) : ∀ {entries : Entries},
    entries.get? name = some old →
      ∃ before after, entries.toList = before ++ (name, old) :: after ∧
        (entries.put name new).toList = before ++ (name, new) :: after
  | .nil, h => by simp at h
  | .cons other node rest, h => by
      rw [get?_cons] at h
      split at h
      · rename_i hname
        obtain rfl := Option.some.inj h
        refine ⟨[], rest.toList, by rw [hname]; rfl, ?_⟩
        rw [put, if_pos hname]
        rfl
      · rename_i hname
        obtain ⟨before, after, hold, hnew⟩ := exists_toList_put new h
        refine ⟨(other, node) :: before, after, by rw [toList_cons, hold]; rfl, ?_⟩
        rw [put, if_neg hname, if_neg fun hlt => hlt.2 (mem_names_of_get? h), toList_cons, hnew]
        rfl

theorem get?_of_mem : ∀ {entries : Entries},
    entries.names.Nodup → (name, node) ∈ entries.toList → entries.get? name = some node
  | .nil, _, h => by simp [toList] at h
  | .cons other old rest, hnodup, h => by
      rw [names_cons, nodup_cons] at hnodup
      rw [toList_cons, mem_cons] at h
      rcases h with h | h
      · cases h
        rw [get?_cons, if_pos rfl]
      · have hne : name ≠ other := by
          rintro rfl
          exact hnodup.1 (mem_map_of_mem h)
        rw [get?_cons, if_neg hne]
        exact get?_of_mem hnodup.2 h

theorem get?_eq_none : ∀ {entries : Entries}, name ∉ entries.names → entries.get? name = none
  | .nil, _ => rfl
  | .cons other old rest, h => by
      rw [names_cons, mem_cons, not_or] at h
      rw [get?_cons, if_neg h.1]
      exact get?_eq_none h.2

theorem put_put (name : String) (first second : Node) : ∀ entries : Entries,
    (entries.put name first).put name second = entries.put name second
  | .nil => by simp [put]
  | .cons other old rest => by
      rw [put, put]
      by_cases hname : name = other
      · rw [if_pos hname, if_pos hname, put, if_pos rfl]
      rw [if_neg hname, if_neg hname]
      by_cases hnew : name < other ∧ name ∉ rest.names
      · rw [if_pos hnew, if_pos hnew, put, if_pos rfl]
      · have hput : (rest.put name first).get? name = some first := by
          rw [get?_put, if_pos rfl]
        rw [if_neg hnew, if_neg hnew, put, if_neg hname,
          if_neg fun hlt => hlt.2 (mem_names_of_get? hput), put_put name first second rest]

end Entries

theorem Node.put_put (root : Node) (place : List String) (first second : Node) :
    (root.put place first).put place second = root.put place second := by
  induction place generalizing root with
  | nil => cases root <;> rfl
  | cons name place ih =>
    cases root with
    | file content => cases place <;> rfl
    | folder entries =>
      cases place with
      | nil => rw [put_singleton, put_singleton, put_singleton, Entries.put_put]
      | cons next place =>
        cases hnode : entries.get? name with
        | none =>
          rw [put_cons_cons_of_none hnode]
        | some node =>
          have hput : (entries.put name (node.put (next :: place) first)).get? name =
              some (node.put (next :: place) first) := by
            rw [Entries.get?_put, if_pos rfl]
          rw [put_cons_cons hnode, put_cons_cons hput, put_cons_cons hnode, Entries.put_put, ih]

theorem Node.put_append (h : root.get? place = some node) (rest : List String) (new : Node) :
    root.put (place ++ rest) new = root.put place (node.put rest new) := by
  induction place generalizing root with
  | nil =>
    obtain rfl : root = node := by simpa using h
    rw [nil_append, put]
  | cons first place ih =>
    cases root with
    | file content => cases h
    | folder above =>
      rw [get?_folder_cons] at h
      obtain ⟨below, hbelow, h⟩ := Option.bind_eq_some_iff.mp h
      have hrest := ih h
      cases place with
      | nil =>
        obtain rfl : below = node := by simpa using h
        cases rest with
        | nil => rfl
        | cons next rest =>
          rw [singleton_append, put_cons_cons hbelow, put_singleton]
      | cons next place =>
        rw [cons_append, cons_append, put_cons_cons hbelow, put_cons_cons hbelow,
          ← cons_append, hrest]

theorem Node.get?_put_of_get? (h : root.get? place = some node) (new : Node) :
    (root.put place new).get? place = some new := by
  cases place with
  | nil => rw [put, get?_nil]
  | cons first place =>
    refine get?_put_self ⟨by simp, ?_⟩ new
    have hsome : (root.get? ((first :: place).dropLast ++
        [(first :: place).getLast (by simp)])).isSome = true := by
      rw [dropLast_concat_getLast, h]
      rfl
    exact exists_folder_of_get?_append hsome (by simp)

/-! ### Paths into a folder -/

theorem follow_of_slash {start : List String} {parts : List String}
    (h : follow root start (parts ++ [""]) = .found place node) :
    follow root start parts = .found place node := by
  induction parts generalizing start with
  | nil =>
    obtain ⟨-, next, -, hleads, hnext⟩ := follow_cons_eq_found h
    cases hleads with
    | stay => exact hnext
    | up hup => simp at hup
    | down hname => simp at hname
  | cons part rest ih =>
    obtain ⟨entries, next, hentries, hleads, hnext⟩ := follow_cons_eq_found h
    rw [hleads.follow_cons hentries]
    exact ih hnext

theorem follow_name {entries : Entries} (hplace : root.get? place = some (.folder entries))
    {name : String} (hname : ProperName name) :
    follow root place [name] = match root.get? (place ++ [name]) with
      | some node => .found (place ++ [name]) node
      | none => .vacant (place ++ [name]) false := by
  rw [follow_cons hplace, if_neg (by simp [hname.ne_empty, hname.ne_dot]), if_neg hname.ne_dots]
  cases hentry : root.get? (place ++ [name]) with
  | none => rfl
  | some node => rw [if_pos (show (some node).isSome = true from rfl), follow, hentry]

theorem Path.exists_slash_join {folder : String} (h : folder ≠ "") :
    ∃ xs, (join folder "").toList = xs ++ ['/'] := by
  rw [join, if_neg (by decide)]
  by_cases hlast : folder.toList.getLast? = some '/'
  · obtain ⟨xs, hxs⟩ := getLast?_eq_some_iff.mp hlast
    exact ⟨xs, by simp [hxs]⟩
  · exact ⟨folder.toList, by simp [hlast, h]⟩

namespace Files

variable {f : Files} {folder name : String} {place : List String} {entries : Entries}

/-- A path that ends with a slash and leads to a folder, so that a name can follow it. -/
structure LeadsInto (f : Files) (path : String) (place : List String) (entries : Entries) :
    Prop where
  slash : ∃ xs, path.toList = xs ++ ['/']
  found : f.locate path = .found place (.folder entries)

theorem leadsInto_join (h : f.locate (join folder "") = .found place (.folder entries)) :
    f.LeadsInto (join folder "") place entries := by
  refine ⟨exists_slash_join ?_, h⟩
  rintro rfl
  exact (locate_eq_follow h trivial).2.1 rfl

theorem LeadsInto.get? (h : f.LeadsInto folder place entries) :
    f.root.get? place = some (.folder entries) :=
  get?_of_locate h.found

theorem locate_child (h : f.LeadsInto folder place entries) (hname : ProperName name) :
    f.locate (folder ++ name) = match entries.get? name with
      | some node => .found (place ++ [name]) node
      | none => .vacant (place ++ [name]) false := by
  obtain ⟨xs, hslash⟩ := h.slash
  obtain ⟨hzero, hempty, hfollow⟩ := locate_eq_follow h.found trivial
  obtain ⟨hparts, hparts'⟩ := parts_append hslash hname.no_slash
  have hplace := h.get?
  have hzero' : (folder ++ name).toList.contains (Char.ofNat 0) = false := by
    rw [toList_append, contains_append, hzero, hname.no_zero]
    rfl
  have hempty' : folder ++ name ≠ "" := by
    rw [Ne, ← toList_inj, toList_append, hslash]
    simp
  have horigin : f.origin (folder ++ name) = f.origin folder := by
    have habsolute : isAbsolute (folder ++ name) = isAbsolute folder := by
      rw [isAbsolute, isAbsolute, toList_append]
      rw [hslash]
      simp
    rw [origin, origin, habsolute]
  have hchild : f.root.get? (place ++ [name]) = entries.get? name := by
    rw [Node.get?_append, hplace, Option.bind_some, Node.get?_folder_cons]
    cases entries.get? name <;> simp
  rw [hparts] at hfollow
  rw [locate_of_follow hzero' hempty', horigin, hparts',
    follow_append (follow_of_slash hfollow), follow_name hplace hname, hchild]

theorem read_child (h : f.LeadsInto folder place entries) (hname : ProperName name)
    {content : List UInt8} (hentry : entries.get? name = some (.file content)) :
    f.read (folder ++ name) = .ok content := by
  rw [read, locate_child h hname, hentry]

theorem canWrite_child (h : f.LeadsInto folder place entries) (hname : ProperName name)
    (hentry : entries.get? name = none) : f.CanWrite (folder ++ name) (place ++ [name]) := by
  refine ⟨fun hlast => ?_, Or.inr (by rw [locate_child h hname, hentry])⟩
  have hne : name.toList ≠ [] := by simpa using hname.ne_empty
  rw [toList_append, getLast?_append_of_ne_nil _ hne] at hlast
  exact hname.no_slash (mem_of_mem_getLast? hlast)

/-- Everything that is neither above nor below a place is the same in two trees of files, and paths
begin at the same folder. -/
structure SameAside (f f' : Files) (place : List String) : Prop where
  home : f'.home = f.home
  aside : ∀ other, ¬ place <+: other → ¬ other <+: place → f'.root.get? other = f.root.get? other

theorem SameAside.refl (f : Files) (place : List String) : f.SameAside f place :=
  ⟨rfl, fun _ _ _ => rfl⟩

theorem SameAside.trans {f' f'' : Files} (h : f.SameAside f' place) (h' : f'.SameAside f'' place) :
    f.SameAside f'' place :=
  ⟨h'.home.trans h.home, fun other habove hbelow =>
    (h'.aside other habove hbelow).trans (h.aside other habove hbelow)⟩

/-- **A new file of a folder** is written, and all that changes is the folder, which has one entry
more. -/
theorem write_child (h : f.LeadsInto folder place entries) (hname : ProperName name)
    (hentry : entries.get? name = none) (content : List UInt8) :
    ∃ f' : Files, f.write (folder ++ name) content = .ok f' ∧ f.SameAside f' place ∧
      f'.LeadsInto folder place (entries.put name (.file content)) := by
  have hwrite := canWrite_child h hname hentry
  have hput : f.root.put (place ++ [name]) (.file content) =
      f.root.put place (.folder (entries.put name (.file content))) := by
    rw [Node.put_append h.get?, Node.put_singleton]
  obtain ⟨node, hnode, hget⟩ := locate_grows h.found (hwrite.grows content)
  rw [hput, Node.get?_put_of_get? h.get?, Option.some.injEq] at hget
  refine ⟨_, hwrite.write content, ⟨rfl, fun other habove hbelow => ?_⟩, h.slash, ?_⟩
  · rw [hput, Node.get?_put_of_aside _ habove hbelow]
  · rw [hnode, hget]

end Files

end ApkWorkshop
