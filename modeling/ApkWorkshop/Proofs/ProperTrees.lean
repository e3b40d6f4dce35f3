import ApkWorkshop.Proofs.TreeRemoval

/-!
# Proper Trees

In a file system no folder holds two entries with one name, and no name could be taken for a way
through folders. A tree with this property is proper.
-/

namespace ApkWorkshop

open List Entries

instance (name : String) : Decidable (ProperName name) :=
  decidable_of_iff (name ≠ "" ∧ '/' ∉ name.toList ∧
      name.toList.contains (Char.ofNat 0) = false ∧ name ≠ "." ∧ name ≠ "..")
    ⟨fun ⟨h₁, h₂, h₃, h₄, h₅⟩ => ⟨h₁, h₂, h₃, h₄, h₅⟩,
      fun h => ⟨h.ne_empty, h.no_slash, h.no_zero, h.ne_dot, h.ne_dots⟩⟩

theorem properName_append {s ending : String} (hslash : '/' ∉ s.toList)
    (hzero : s.toList.contains (Char.ofNat 0) = false) (hending : ProperName ending)
    (hlong : 2 < ending.length) : ProperName (s ++ ending) := by
  have hne {t : String} (ht : t.length ≤ 2) : s ++ ending ≠ t := by
    rintro rfl
    rw [String.length_append] at ht
    omega
  refine ⟨hne (by decide), ?_, ?_, hne (by decide), hne (by decide)⟩
  · rw [String.toList_append, mem_append, not_or]
    exact ⟨hslash, hending.no_slash⟩
  · rw [String.toList_append, contains_append, hzero, hending.no_zero]
    rfl

theorem ProperName.plainName {name : String} (h : ProperName name) : PlainName name :=
  ⟨h.ne_empty, h.no_slash, h.ne_dot, h.ne_dots⟩

/-! ### Entries -/

namespace Entries

variable {name : String} {entries : Entries}

theorem names_remove_sublist (name : String) : ∀ entries : Entries,
    (entries.remove name).names.Sublist entries.names
  | .nil => .slnil
  | .cons other node rest => by
      rw [remove]
      split
      · exact sublist_cons_self _ _
      · exact (names_remove_sublist name rest).cons_cons other

theorem get?_remove_self : ∀ {entries : Entries},
    entries.names.Nodup → (entries.remove name).get? name = none
  | .nil, _ => rfl
  | .cons other node rest, h => by
      rw [names_cons, nodup_cons] at h
      rw [remove]
      split
      · rename_i hname
        exact get?_eq_none (hname ▸ h.1)
      · rename_i hname
        rw [get?_cons, if_neg hname]
        exact get?_remove_self h.2

theorem Proper.put_name (h : entries.Proper) (hname : ProperName name) (node : Node) :
    (entries.put name node).Proper := by
  refine ⟨nodup_names_put name node h.nodup, fun other hother => ?_⟩
  rcases mem_names_put hother with rfl | hold
  · exact hname
  · exact h.name other hold

theorem Proper.remove (h : entries.Proper) (name : String) : (entries.remove name).Proper :=
  have hsub := names_remove_sublist name entries
  ⟨hsub.nodup h.nodup, fun other hother => h.name other (hsub.subset hother)⟩

end Entries

/-! ### Nodes -/

namespace Node

variable {root node : Node} {place : List String} {name : String}

/-- A tree in which every folder has proper names, each once. -/
def Proper (root : Node) : Prop :=
  ∀ place entries, root.get? place = some (.folder entries) → entries.Proper

theorem proper_file (content : List UInt8) : (file content).Proper := by
  intro place entries h
  cases place <;> simp at h

theorem proper_folder {entries : Entries} (h : entries.Proper)
    (hbelow : ∀ name node, entries.get? name = some node → node.Proper) :
    (folder entries).Proper := by
  intro place found hfound
  cases place with
  | nil =>
    obtain rfl : entries = found := by simpa using hfound
    exact h
  | cons name rest =>
    rw [get?_folder_cons] at hfound
    obtain ⟨node, hnode, hfound⟩ := Option.bind_eq_some_iff.mp hfound
    exact hbelow name node hnode rest found hfound

theorem Proper.below (h : root.Proper) (hnode : root.get? place = some node) :
    node.Proper := fun rest entries hrest =>
  h (place ++ rest) entries (by rw [get?_append, hnode]; exact hrest)

theorem Proper.entries {entries : Entries} (h : (folder entries).Proper) : entries.Proper :=
  h [] entries rfl

theorem Proper.entry {entries : Entries} (h : (folder entries).Proper)
    (hnode : entries.get? name = some node) : node.Proper :=
  h.below (show (folder entries).get? [name] = some node by
    rw [get?_folder_cons, hnode, Option.bind_some, get?_nil])

theorem Proper.properName (h : root.Proper) (hnode : root.get? place = some node)
    (hname : place.getLast? = some name) : ProperName name := by
  obtain ⟨above, rfl⟩ := getLast?_eq_some_iff.mp hname
  obtain ⟨entries, hentries⟩ := @exists_folder_of_get?_append root above [name]
    (by rw [hnode]; rfl) (by simp)
  rw [get?_append, hentries, Option.bind_some, get?_folder_cons] at hnode
  obtain ⟨found, hfound, -⟩ := Option.bind_eq_some_iff.mp hnode
  exact (h above entries hentries).name name (mem_names_of_get? hfound)

/-- **Putting a node** with a proper name keeps a tree proper. -/
theorem Proper.put {new : Node} (h : root.Proper) (hnew : new.Proper)
    (hname : ∀ name, place.getLast? = some name → ProperName name) :
    (root.put place new).Proper := by
  induction place generalizing root with
  | nil => rwa [Node.put]
  | cons first rest ih =>
    cases root with
    | file content => cases rest <;> exact h
    | folder entries =>
      have hput : ∀ node : Node, node.Proper → ProperName first →
          (folder (entries.put first node)).Proper := by
        intro node hnode hfirst
        refine proper_folder (h.entries.put_name hfirst node) fun other found hfound => ?_
        rw [get?_put] at hfound
        split at hfound
        · cases hfound
          exact hnode
        · exact h.entry hfound
      cases rest with
      | nil => exact hput new hnew (hname first rfl)
      | cons next rest =>
        cases hnode : entries.get? first with
        | none =>
          rw [put_cons_cons_of_none hnode]
          exact h
        | some node =>
          rw [put_cons_cons hnode]
          refine hput _ (ih (h.entry hnode) fun name hlast => hname name ?_)
            (h.entries.name first (mem_names_of_get? hnode))
          rw [getLast?_cons_cons, hlast]

theorem Proper.remove (h : root.Proper) (place : List String) : (root.remove place).Proper := by
  induction place generalizing root with
  | nil => cases root <;> exact h
  | cons first rest ih =>
    cases root with
    | file content => cases rest <;> exact h
    | folder entries =>
      cases rest with
      | nil =>
        refine proper_folder (h.entries.remove first) fun other found hfound => ?_
        by_cases hother : other = first
        · rw [hother, get?_remove_self h.entries.nodup] at hfound
          cases hfound
        · rw [get?_remove hother] at hfound
          exact h.entry hfound
      | cons next rest =>
        cases hnode : entries.get? first with
        | none =>
          rw [remove_cons_cons_of_none hnode]
          exact h
        | some node =>
          rw [remove_cons_cons hnode]
          have hfirst := h.entries.name first (mem_names_of_get? hnode)
          refine proper_folder (h.entries.put_name hfirst _) fun other found hfound => ?_
          rw [get?_put] at hfound
          split at hfound
          · cases hfound
            exact ih (h.entry hnode)
          · exact h.entry hfound

/-- **What was removed** from a proper tree is gone, with all that was below it. -/
theorem get?_remove_append (h : root.Proper) (hne : place ≠ []) (rest : List String) :
    (root.remove place).get? (place ++ rest) = none := by
  induction place generalizing root with
  | nil => exact absurd rfl hne
  | cons first place ih =>
    cases root with
    | file content => cases place <;> rfl
    | folder entries =>
      cases place with
      | nil =>
        rw [remove_singleton, singleton_append, get?_folder_cons, get?_remove_self h.entries.nodup]
        rfl
      | cons next place =>
        cases hnode : entries.get? first with
        | none =>
          rw [remove_cons_cons_of_none hnode, cons_append, get?_folder_cons, hnode]
          rfl
        | some node =>
          rw [remove_cons_cons hnode, cons_append, get?_folder_cons,
            get?_put, if_pos rfl]
          exact ih (h.entry hnode) (by simp)

end Node

mutual

def Node.isProper : Node → Bool
  | .file _ => true
  | .folder entries => entries.areProper

/-- Are the names of the entries proper and all different, and the entries proper? -/
def Entries.areProper : Entries → Bool
  | .nil => true
  | .cons name node rest =>
    decide (ProperName name) && decide (name ∉ rest.names) && node.isProper && rest.areProper

end

mutual

theorem Node.proper_of_isProper : ∀ {node : Node}, node.isProper = true → node.Proper
  | .file content, _ => Node.proper_file content
  | .folder entries, h =>
    have hentries := @Entries.proper_of_areProper entries h
    Node.proper_folder hentries.1 hentries.2

theorem Entries.proper_of_areProper : ∀ {entries : Entries}, entries.areProper = true →
    entries.Proper ∧ ∀ name node, entries.get? name = some node → node.Proper
  | .nil, _ => ⟨⟨List.Pairwise.nil, fun _ hname => by cases hname⟩, fun _ _ h => by cases h⟩
  | .cons name node rest, h => by
      rw [areProper, Bool.and_eq_true, Bool.and_eq_true, Bool.and_eq_true,
        decide_eq_true_eq, decide_eq_true_eq] at h
      obtain ⟨⟨⟨hname, hnew⟩, hnode⟩, hrest⟩ := h
      have ihnode := Node.proper_of_isProper hnode
      obtain ⟨ihrest, ihbelow⟩ := Entries.proper_of_areProper hrest
      refine ⟨⟨?_, fun other hother => ?_⟩, fun other found hfound => ?_⟩
      · rw [names_cons, nodup_cons]
        exact ⟨hnew, ihrest.nodup⟩
      · rw [names_cons, mem_cons] at hother
        rcases hother with rfl | hother
        · exact hname
        · exact ihrest.name other hother
      · rw [get?_cons] at hfound
        split at hfound
        · cases hfound
          exact ihnode
        · exact ihbelow other found hfound

end

/-! ### Files -/

theorem Path.of_mem_partsFrom {read cs : List Char} {part : String} (hread : '/' ∉ read)
    (h : part ∈ Path.partsFrom read cs) :
    '/' ∉ part.toList ∧ ∀ c ∈ part.toList, c ∈ read ∨ c ∈ cs := by
  induction cs generalizing read with
  | nil =>
    obtain rfl : part = String.ofList read.reverse := by simpa [Path.partsFrom] using h
    exact ⟨by simpa using hread, fun c hc => .inl (by simpa using hc)⟩
  | cons c cs ih =>
    by_cases hc : c = '/'
    · subst hc
      rw [Path.partsFrom, mem_cons] at h
      rcases h with rfl | h
      · exact ⟨by simpa using hread, fun d hd => .inl (by simpa using hd)⟩
      · obtain ⟨hslash, hmem⟩ := ih (by simp) h
        exact ⟨hslash, fun d hd => .inr (mem_cons_of_mem _ ((hmem d hd).resolve_left (by simp)))⟩
    · rw [Path.partsFrom.eq_3 _ _ _ (by simpa using hc)] at h
      obtain ⟨hslash, hmem⟩ := ih (by simp [hread, Ne.symm hc]) h
      refine ⟨hslash, fun d hd => ?_⟩
      rcases hmem d hd with hd | hd
      · rcases mem_cons.mp hd with rfl | hd
        · exact .inr mem_cons_self
        · exact .inl hd
      · exact .inr (mem_cons_of_mem _ hd)

theorem exists_part_of_follow_eq_vacant {root : Node} {start place parts : List String}
    {slash : Bool} (h : follow root start parts = .vacant place slash) :
    ∃ part ∈ parts, place.getLast? = some part ∧ ¬ (part = "" ∨ part = ".") ∧ part ≠ ".." := by
  induction parts generalizing start with
  | nil => exact absurd h follow_nil_ne_vacant
  | cons part rest ih =>
    obtain ⟨-, ⟨next, -, hnext⟩ | ⟨hname, -, hvacant⟩⟩ := follow_cases h trivial
    · obtain ⟨last, hmem, hlast⟩ := ih hnext
      exact ⟨last, mem_cons_of_mem _ hmem, hlast⟩
    · obtain ⟨rfl, -⟩ := Spot.vacant.inj hvacant
      exact ⟨part, mem_cons_self, getLast?_concat, hname⟩

namespace Files

variable {f f' : Files} {path : String}

theorem properName_of_locate_eq_vacant {place : List String} {slash : Bool}
    (h : f.locate path = .vacant place slash) {name : String} (hname : place.getLast? = some name) :
    ProperName name := by
  obtain ⟨hzero, -, hfollow⟩ := locate_eq_follow h trivial
  obtain ⟨part, hmem, hlast, hdot, hdots⟩ := exists_part_of_follow_eq_vacant hfollow
  obtain rfl : part = name := Option.some.inj (hlast.symm.trans hname)
  obtain ⟨hslash, hchars⟩ := Path.of_mem_partsFrom (by simp) hmem
  rw [not_or] at hdot
  refine ⟨hdot.1, hslash, ?_, hdot.2, hdots⟩
  rw [Bool.eq_false_iff, ne_eq, contains_iff_mem] at hzero ⊢
  exact fun hmem => hzero ((hchars _ hmem).resolve_left (by simp))

theorem proper_write {content : List UInt8} (hf : f.root.Proper)
    (h : f.write path content = .ok f') : f'.root.Proper := by
  obtain ⟨place, hplace, rfl⟩ := canWrite_of_write h
  refine hf.put (Node.proper_file content) fun name hname => ?_
  rcases hplace.spot with ⟨old, hspot⟩ | hspot
  · exact hf.properName (get?_of_locate hspot) hname
  · exact properName_of_locate_eq_vacant hspot hname

theorem proper_makeFolder (hf : f.root.Proper) (h : f.makeFolder path = .ok f') :
    f'.root.Proper := by
  rw [makeFolder] at h
  split at h
  · cases h
  · rename_i place slash hvacant
    cases h
    refine hf.put (Node.proper_folder ⟨List.Pairwise.nil, fun _ hname => by cases hname⟩ ?_)
      fun name hname => properName_of_locate_eq_vacant hvacant hname
    intro name node hnode
    cases hnode
  · cases h

theorem proper_makeFolders (hf : f.root.Proper) (path : String) :
    (f.makeFolders path).1.root.Proper :=
  makeFolders_keeps (R := fun f f' => f.root.Proper → f'.root.Proper) (fun _ h => h)
    (fun _ _ _ h h' hf => h' (h hf)) (fun _ _ _ h hf => proper_makeFolder hf h) f path hf

theorem proper_removeFile (hf : f.root.Proper) (h : f.removeFile path = .ok f') :
    f'.root.Proper := by
  rw [removeFile] at h
  split at h
  · cases h
    exact hf.remove _
  · cases h
  · cases h

end Files

end ApkWorkshop
