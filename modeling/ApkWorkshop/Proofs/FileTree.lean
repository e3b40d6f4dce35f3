import ApkWorkshop.Files.Files
import Mathlib.Tactic

/-!
# Writing into a Tree of Files

What putting a node into a tree changes, and what it leaves alone:

* `Entries.get?_put`, `Node.get?_put_append`, `Node.get?_put_of_aside` — the node is at its
  place, everything that is neither above nor below that place is as it was, and what is above it
  is still a folder;
* `Grows` — a tree in which everything that stood in another one still stands; paths that led
  somewhere there lead to the same place (`Grows.follow`);
* `Grows.follow_of_vacant` — a path that led to a free place leads to what was put there.
-/

namespace ApkWorkshop

open List Option Node Entries

/-! ### Entries -/

namespace Entries

@[simp] theorem get?_nil (name : String) : nil.get? name = none := rfl

theorem get?_cons (name other : String) (node : Node) (rest : Entries) :
    (cons other node rest).get? name = if name = other then some node else rest.get? name := rfl

theorem get?_put (name other : String) (node : Node) : ∀ entries : Entries,
    (entries.put name node).get? other = if other = name then some node else entries.get? other
  | .nil => by rw [put, get?_cons]
  | .cons first old rest => by
      have ih := get?_put name other node rest
      rw [put]
      by_cases hname : name = first
      · subst hname
        rw [if_pos rfl, get?_cons, get?_cons]
        split <;> rfl
      · rw [if_neg hname]
        split
        · rw [get?_cons]
        · rw [get?_cons, ih, get?_cons]
          by_cases hother : other = first
          · rw [if_pos hother, if_pos hother, if_neg (by rintro rfl; exact hname hother)]
          · rw [if_neg hother, if_neg hother]

end Entries

/-! ### Nodes -/

namespace Node

variable {root node : Node} {name : String} {entries : Entries} {place other rest : List String}

@[simp] theorem get?_nil (node : Node) : node.get? [] = some node := by
  cases node <;> rfl

@[simp] theorem get?_file_cons (content : List UInt8) (name : String) (rest : List String) :
    (file content).get? (name :: rest) = none := rfl

theorem get?_folder_cons (entries : Entries) (name : String) (rest : List String) :
    (folder entries).get? (name :: rest) = (entries.get? name).bind (·.get? rest) := by
  rw [get?]
  cases entries.get? name <;> rfl

theorem get?_append (node : Node) (place rest : List String) :
    node.get? (place ++ rest) = (node.get? place).bind (·.get? rest) := by
  induction place generalizing node with
  | nil => simp
  | cons name place ih =>
    cases node with
    | file content => rfl
    | folder entries =>
      rw [cons_append, get?_folder_cons, get?_folder_cons, bind_assoc]
      exact bind_congr fun node _ => ih node

theorem exists_folder_of_get?_append (h : (node.get? (place ++ rest)).isSome = true)
    (hrest : rest ≠ []) : ∃ entries, node.get? place = some (.folder entries) := by
  obtain ⟨name, rest, rfl⟩ := exists_cons_of_ne_nil hrest
  rw [get?_append] at h
  cases hplace : node.get? place with
  | none => simp [hplace] at h
  | some found =>
    cases found with
    | file content => simp [hplace] at h
    | folder entries => exact ⟨entries, rfl⟩

/-! ### Putting a node -/

def HasFolder (root : Node) (place : List String) : Prop :=
  place ≠ [] ∧ ∃ entries, root.get? place.dropLast = some (.folder entries)

theorem hasFolder_cons {next : String} (h : root.HasFolder (name :: next :: rest)) :
    ∃ entries node, root = .folder entries ∧ entries.get? name = some node ∧
      node.HasFolder (next :: rest) := by
  obtain ⟨-, found, hfound⟩ := h
  rw [dropLast_cons_of_ne_nil (by simp)] at hfound
  cases root with
  | file content => cases hfound
  | folder entries =>
    rw [get?_folder_cons] at hfound
    obtain ⟨node, hnode, hfound⟩ := bind_eq_some_iff.mp hfound
    exact ⟨entries, node, rfl, hnode, by simp, found, hfound⟩

theorem put_singleton (entries : Entries) (name : String) (new : Node) :
    (folder entries).put [name] new = .folder (entries.put name new) := rfl

theorem put_cons_cons (h : entries.get? name = some node) (next : String) (rest : List String)
    (new : Node) :
    (folder entries).put (name :: next :: rest) new =
      .folder (entries.put name (node.put (next :: rest) new)) := by
  rw [put, h]
  simp

theorem put_cons_cons_of_none (h : entries.get? name = none) (next : String) (rest : List String)
    (new : Node) : (folder entries).put (name :: next :: rest) new = .folder entries := by
  rw [put, h]
  simp

/-- **A node that was put** is at its place, with all that is below it. -/
theorem get?_put_append (h : root.HasFolder place) (new : Node) (rest : List String) :
    (root.put place new).get? (place ++ rest) = new.get? rest := by
  induction place generalizing root with
  | nil => exact absurd rfl h.1
  | cons name place ih =>
    cases place with
    | nil =>
      cases root with
      | file content => obtain ⟨-, entries, hentries⟩ := h; cases hentries
      | folder entries =>
        rw [put_singleton, cons_append, get?_folder_cons, get?_put, if_pos rfl]
        rfl
    | cons next place =>
      obtain ⟨entries, node, rfl, hnode, hbelow⟩ := hasFolder_cons h
      rw [put_cons_cons hnode, cons_append, get?_folder_cons, get?_put, if_pos rfl]
      exact ih hbelow

theorem get?_put_self (h : root.HasFolder place) (new : Node) :
    (root.put place new).get? place = some new := by
  have hself := get?_put_append h new []
  rwa [append_nil] at hself

theorem get?_put_of_aside (new : Node) (habove : ¬ place <+: other) (hbelow : ¬ other <+: place) :
    (root.put place new).get? other = root.get? other := by
  induction place generalizing root other with
  | nil => exact absurd nil_prefix habove
  | cons name place ih =>
    cases other with
    | nil => exact absurd nil_prefix hbelow
    | cons first other =>
      cases root with
      | file content => cases place <;> rfl
      | folder entries =>
        cases place with
        | nil =>
          have hne : first ≠ name := by
            rintro rfl
            exact habove ⟨other, rfl⟩
          rw [put_singleton, get?_folder_cons, get?_put, if_neg hne, get?_folder_cons]
        | cons next place =>
          cases hnode : entries.get? name with
          | none => rw [put_cons_cons_of_none hnode]
          | some node =>
            rw [put_cons_cons hnode, get?_folder_cons, get?_put, get?_folder_cons]
            split
            · rename_i heq
              subst heq
              rw [hnode]
              exact ih (fun hp => habove (cons_prefix_cons.mpr ⟨rfl, hp⟩))
                fun hp => hbelow (cons_prefix_cons.mpr ⟨rfl, hp⟩)
            · rfl

theorem exists_folder_put (new : Node) (hother : root.get? other = some (.folder entries))
    (habove : ¬ place <+: other) :
    ∃ entries', (root.put place new).get? other = some (.folder entries') := by
  induction other generalizing root place with
  | nil =>
    obtain rfl : root = .folder entries := by simpa using hother
    cases place with
    | nil => exact absurd nil_prefix habove
    | cons name place =>
      cases place with
      | nil => exact ⟨_, rfl⟩
      | cons next place =>
        cases hnode : entries.get? name with
        | none => exact ⟨entries, by rw [put_cons_cons_of_none hnode, get?_nil]⟩
        | some node => exact ⟨_, by rw [put_cons_cons hnode]; rfl⟩
  | cons first other ih =>
    by_cases hbelow : first :: other <+: place
    · obtain ⟨rest, rfl⟩ := hbelow
      cases root with
      | file content => cases hother
      | folder above =>
        rw [get?_folder_cons] at hother
        obtain ⟨node, hnode, hother⟩ := bind_eq_some_iff.mp hother
        cases hrest : other ++ rest with
        | nil =>
          obtain ⟨rfl, rfl⟩ := append_eq_nil_iff.mp hrest
          exact absurd (prefix_refl _) habove
        | cons next below =>
          rw [cons_append, hrest, put_cons_cons hnode, get?_folder_cons,
            get?_put, if_pos rfl, ← hrest]
          refine ih hother fun hp => habove ?_
          exact cons_prefix_cons.mpr ⟨rfl, hp⟩
    · exact ⟨entries, by rw [get?_put_of_aside new habove hbelow, hother]⟩

end Node

/-! ### Paths in a tree that grows -/

/-- A tree in which everything that stood in another one still stands, and folders are folders. -/
structure Grows (root root' : Node) : Prop where
  stands : ∀ place, (root.get? place).isSome = true → (root'.get? place).isSome = true
  folder : ∀ place entries, root.get? place = some (.folder entries) →
    ∃ entries', root'.get? place = some (.folder entries')

theorem Grows.refl (root : Node) : Grows root root :=
  ⟨fun _ h => h, fun _ entries h => ⟨entries, h⟩⟩

theorem Grows.trans {a b c : Node} (hab : Grows a b) (hbc : Grows b c) : Grows a c := by
  refine ⟨fun place h => hbc.stands place (hab.stands place h), fun place entries h => ?_⟩
  obtain ⟨entries', h'⟩ := hab.folder place entries h
  exact hbc.folder place entries' h'

section

variable {root root' node : Node} {place start next parts : List String} {part : String}
  {entries : Entries} {slash : Bool}

theorem Grows.put_file (h : root.HasFolder place)
    (hfree : ∀ entries, root.get? place ≠ some (.folder entries)) (content : List UInt8) :
    Grows root (root.put place (.file content)) := by
  -- nothing stands below the place, so what is below it is the place itself
  have hself : ∀ rest, (root.get? (place ++ rest)).isSome = true → rest = [] := by
    intro rest hrest
    by_contra hne
    obtain ⟨entries, hentries⟩ := exists_folder_of_get?_append hrest hne
    exact hfree entries hentries
  refine ⟨fun other hother => ?_, fun other entries hother => ?_⟩
  · by_cases habove : place <+: other
    · obtain ⟨rest, rfl⟩ := habove
      obtain rfl := hself rest hother
      rw [append_nil, get?_put_self h]
      rfl
    · obtain ⟨found, hfound⟩ := isSome_iff_exists.mp hother
      cases found with
      | folder entries =>
        obtain ⟨entries', h'⟩ := exists_folder_put (.file content) hfound habove
        rw [h']
        rfl
      | file old =>
        have hbelow : ¬ other <+: place := by
          rintro ⟨rest, rfl⟩
          have hne : rest ≠ [] := by
            rintro rfl
            exact habove (by rw [append_nil])
          obtain ⟨-, entries, hentries⟩ := h
          rw [dropLast_append_of_ne_nil hne, get?_append, hfound] at hentries
          cases hrest : rest.dropLast with
          | nil => simp [hrest] at hentries
          | cons name below => simp [hrest] at hentries
        rw [get?_put_of_aside _ habove hbelow, hfound]
        rfl
  · refine exists_folder_put (.file content) hother ?_
    rintro ⟨rest, rfl⟩
    obtain rfl := hself rest (by rw [hother]; rfl)
    rw [append_nil] at hother
    exact hfree entries hother

/-! ### Following paths -/

/-- Where one part of a path leads from a folder: nowhere else, up, or down to an entry. -/
inductive Leads (root : Node) (start : List String) (part : String) : List String → Prop
  | stay (h : part = "" ∨ part = ".") : Leads root start part start
  | up (h : part = "..") : Leads root start part start.dropLast
  | down (hname : ¬ (part = "" ∨ part = ".") ∧ part ≠ "..")
      (h : (root.get? (start ++ [part])).isSome = true) : Leads root start part (start ++ [part])

theorem Leads.grows (hg : Grows root root') (h : Leads root start part next) :
    Leads root' start part next := by
  cases h with
  | stay h => exact .stay h
  | up h => exact .up h
  | down hname h => exact .down hname (hg.stands _ h)

theorem follow_cons (h : root.get? start = some (.folder entries)) (part : String)
    (rest : List String) :
    follow root start (part :: rest) =
      if part = "" ∨ part = "." then follow root start rest
      else if part = ".." then follow root start.dropLast rest
      else if (root.get? (start ++ [part])).isSome then follow root (start ++ [part]) rest
      else if rest.all (· == "") then .vacant (start ++ [part]) (!rest.isEmpty)
      else .missing := by
  have hentry : root.get? (start ++ [part]) = entries.get? part := by
    rw [get?_append, h, bind_some, get?_folder_cons]
    cases entries.get? part <;> simp
  rw [follow, h, hentry]
  simp only [Bool.or_eq_true, decide_eq_true_eq]

theorem Leads.follow_cons (hl : Leads root start part next)
    (h : root.get? start = some (.folder entries)) (rest : List String) :
    follow root start (part :: rest) = follow root next rest := by
  rw [ApkWorkshop.follow_cons h]
  cases hl with
  | stay hstay => rw [if_pos hstay]
  | up hup => rw [if_neg (by simp [hup]), if_pos hup]
  | down hname hdown => rw [if_neg hname.1, if_neg hname.2, if_pos hdown]

/-- Something stands at the end of the path, or can be made there. -/
def Spot.Reached : Spot → Prop
  | .found .. | .vacant .. => True
  | _ => False

/-- **One step of a path** that leads anywhere: its first part leads on, or it is the name of a
free place. -/
theorem follow_cases {rest : List String} {spot : Spot}
    (h : follow root start (part :: rest) = spot) (hreached : spot.Reached) :
    (∃ entries, root.get? start = some (.folder entries)) ∧
      ((∃ next, Leads root start part next ∧ follow root next rest = spot) ∨
        ((¬ (part = "" ∨ part = ".") ∧ part ≠ "..") ∧ root.get? (start ++ [part]) = none ∧
          spot = .vacant (start ++ [part]) (!rest.isEmpty))) := by
  subst h
  have hfolder : ∃ entries, root.get? start = some (.folder entries) := by
    rw [follow] at hreached
    cases hstart : root.get? start with
    | none => simp [hstart, Spot.Reached] at hreached
    | some node =>
      cases node with
      | file content => simp [hstart, Spot.Reached] at hreached
      | folder entries => exact ⟨entries, rfl⟩
  refine ⟨hfolder, ?_⟩
  obtain ⟨entries, hentries⟩ := hfolder
  by_cases hstay : part = "" ∨ part = "."
  · exact Or.inl ⟨start, .stay hstay, ((Leads.stay hstay).follow_cons hentries rest).symm⟩
  by_cases hup : part = ".."
  · exact Or.inl ⟨_, .up hup, ((Leads.up hup).follow_cons hentries rest).symm⟩
  by_cases hdown : (root.get? (start ++ [part])).isSome = true
  · have hleads := Leads.down ⟨hstay, hup⟩ hdown
    exact Or.inl ⟨_, hleads, (hleads.follow_cons hentries rest).symm⟩
  · rw [ApkWorkshop.follow_cons hentries, if_neg hstay, if_neg hup, if_neg hdown] at hreached ⊢
    refine Or.inr ⟨⟨hstay, hup⟩, by simpa using hdown, ?_⟩
    by_cases hrest : rest.all (· == "") = true
    · rw [if_pos hrest]
    · rw [if_neg hrest] at hreached
      exact hreached.elim

theorem follow_cons_eq_found {rest : List String}
    (h : follow root start (part :: rest) = .found place node) :
    ∃ entries next, root.get? start = some (.folder entries) ∧ Leads root start part next ∧
      follow root next rest = .found place node := by
  obtain ⟨⟨entries, hentries⟩, ⟨next, hleads, hnext⟩ | ⟨-, -, hvacant⟩⟩ := follow_cases h trivial
  · exact ⟨entries, next, hentries, hleads, hnext⟩
  · cases hvacant

theorem follow_nil_eq_found (h : follow root start [] = .found place node) :
    start = place ∧ root.get? place = some node := by
  rw [follow] at h
  split at h
  · rename_i hstart
    cases h
    exact ⟨rfl, hstart⟩
  · cases h

theorem follow_nil_ne_vacant : follow root start [] ≠ .vacant place slash := by
  rw [follow]
  split <;> simp

theorem get?_of_follow_eq_found (h : follow root start parts = .found place node) :
    root.get? place = some node := by
  induction parts generalizing start with
  | nil => exact (follow_nil_eq_found h).2
  | cons part rest ih =>
    obtain ⟨-, next, -, -, hnext⟩ := follow_cons_eq_found h
    exact ih hnext

theorem follow_append {xs : List String} (h : follow root start xs = .found place node)
    (ys : List String) : follow root start (xs ++ ys) = follow root place ys := by
  induction xs generalizing start with
  | nil => rw [(follow_nil_eq_found h).1, nil_append]
  | cons part rest ih =>
    obtain ⟨entries, next, hentries, hleads, hnext⟩ := follow_cons_eq_found h
    rw [cons_append, hleads.follow_cons hentries]
    exact ih hnext

theorem follow_append_slash {xs : List String}
    (h : follow root start xs = .found place (.folder entries)) :
    follow root start (xs ++ [""]) = .found place (.folder entries) := by
  have hplace := get?_of_follow_eq_found h
  rw [follow_append h, follow_cons hplace, if_pos (.inl rfl), follow, hplace]

/-- **A path that led somewhere** leads to the same place in a tree that has grown. -/
theorem Grows.follow (hg : Grows root root') (h : follow root start parts = .found place node) :
    ∃ node', ApkWorkshop.follow root' start parts = .found place node' := by
  induction parts generalizing start with
  | nil =>
    obtain ⟨rfl, hstart⟩ := follow_nil_eq_found h
    obtain ⟨node', h'⟩ := isSome_iff_exists.mp (hg.stands start (by rw [hstart]; rfl))
    exact ⟨node', by rw [ApkWorkshop.follow, h']⟩
  | cons part rest ih =>
    obtain ⟨entries, next, hentries, hleads, hnext⟩ := follow_cons_eq_found h
    obtain ⟨entries', hentries'⟩ := hg.folder start entries hentries
    rw [(hleads.grows hg).follow_cons hentries']
    exact ih hnext

theorem free_of_follow_eq_vacant (h : follow root start parts = .vacant place slash) :
    root.HasFolder place ∧ root.get? place = none := by
  induction parts generalizing start with
  | nil => exact absurd h follow_nil_ne_vacant
  | cons part rest ih =>
    obtain ⟨⟨entries, hentries⟩, ⟨next, -, hnext⟩ | ⟨-, hnone, hvacant⟩⟩ := follow_cases h trivial
    · exact ih hnext
    · cases hvacant
      exact ⟨⟨by simp, entries, by rw [dropLast_concat, hentries]⟩, hnone⟩

/-- **A path that led to a free place** leads to what stands there in a tree that has grown. -/
theorem Grows.follow_of_vacant (hg : Grows root root')
    (h : ApkWorkshop.follow root start parts = .vacant place false)
    (hplace : root'.get? place = some node) :
    ApkWorkshop.follow root' start parts = .found place node := by
  induction parts generalizing start with
  | nil => exact absurd h follow_nil_ne_vacant
  | cons part rest ih =>
    obtain ⟨⟨entries, hentries⟩, hcases⟩ := follow_cases h trivial
    obtain ⟨entries', hentries'⟩ := hg.folder start entries hentries
    rcases hcases with ⟨next, hleads, hnext⟩ | ⟨hname, -, hvacant⟩
    · rw [(hleads.grows hg).follow_cons hentries']
      exact ih hnext
    · simp only [Spot.vacant.injEq, Bool.false_eq, Bool.not_eq_false', List.isEmpty_iff] at hvacant
      obtain ⟨rfl, rfl⟩ := hvacant
      have hleads : Leads root' start part (start ++ [part]) := .down hname (by rw [hplace]; rfl)
      rw [hleads.follow_cons hentries', ApkWorkshop.follow, hplace]

end

end ApkWorkshop
