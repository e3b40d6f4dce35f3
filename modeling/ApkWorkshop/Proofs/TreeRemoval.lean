import ApkWorkshop.Proofs.JobEffects
import ApkWorkshop.Proofs.PathResolution
import ApkWorkshop.Proofs.VersionNames

/-!
# Making and Removing Folders

Removing a folder takes everything in it along, and making folders adds to what is there. This
module says what they leave alone.
-/

namespace ApkWorkshop

open List ApkWorkshop.Path Files Node

variable {f : Files → Except FileFault Files} {w : World}

/-! ### Nodes -/

theorem Entries.get?_remove {name other : String} (h : other ≠ name) : ∀ entries : Entries,
    (entries.remove name).get? other = entries.get? other
  | .nil => rfl
  | .cons first node rest => by
      rw [remove]
      split
      · rename_i heq
        rw [get?_cons, if_neg (heq ▸ h)]
      · rw [get?_cons, get?_cons, get?_remove h rest]

namespace Node

variable {root node : Node} {place other : List String} {entries : Entries} {name : String}

theorem HasFolder.above (h : root.HasFolder place) (hother : other <+: place)
    (hne : other ≠ place) : ∃ entries, root.get? other = some (.folder entries) := by
  obtain ⟨rest, rfl⟩ := hother
  have hrest : rest ≠ [] := by
    rintro rfl
    exact hne (by simp)
  obtain ⟨-, found, hfound⟩ := h
  rw [dropLast_append_of_ne_nil hrest] at hfound
  by_cases hlast : rest.dropLast = []
  · exact ⟨found, by simpa [hlast] using hfound⟩
  · exact exists_folder_of_get?_append (by rw [hfound]; rfl) hlast

theorem hasFolder_of_get? (h : root.get? place = some node) (hne : place ≠ []) :
    root.HasFolder place := by
  refine ⟨hne, @exists_folder_of_get?_append root _ [place.getLast hne] ?_ (by simp)⟩
  rw [dropLast_append_getLast hne, h]
  rfl

theorem map_content?_put (h : root.HasFolder place) (new : Node) (hother : ¬ place <+: other) :
    ((root.put place new).get? other).map content? = (root.get? other).map content? := by
  by_cases hbelow : other <+: place
  · have hne : other ≠ place := by
      rintro rfl
      exact hother (prefix_refl _)
    obtain ⟨entries, hentries⟩ := h.above hbelow hne
    obtain ⟨entries', hentries'⟩ := exists_folder_put new hentries hother
    rw [hentries, hentries']
    rfl
  · rw [get?_put_of_aside new hother hbelow]

theorem remove_singleton (entries : Entries) (name : String) :
    (folder entries).remove [name] = .folder (entries.remove name) := rfl

theorem remove_cons_cons (h : entries.get? name = some node) (next : String) (rest : List String) :
    (folder entries).remove (name :: next :: rest) =
      .folder (entries.put name (node.remove (next :: rest))) := by
  rw [remove, h]
  simp

theorem remove_cons_cons_of_none (h : entries.get? name = none) (next : String)
    (rest : List String) : (folder entries).remove (name :: next :: rest) = .folder entries := by
  rw [remove, h]
  simp

theorem map_content?_remove (hother : ¬ place <+: other) :
    ((root.remove place).get? other).map content? = (root.get? other).map content? := by
  induction place generalizing root other with
  | nil => exact absurd nil_prefix hother
  | cons name rest ih =>
    cases root with
    | file content => cases rest <;> rfl
    | folder entries =>
      cases rest with
      | nil =>
        rw [remove_singleton]
        cases other with
        | nil => rfl
        | cons first more =>
          have hne : first ≠ name := by
            rintro rfl
            exact hother (prefix_append [first] more)
          rw [get?_folder_cons, get?_folder_cons, Entries.get?_remove hne]
      | cons next rest =>
        cases hname : entries.get? name with
        | none => rw [remove_cons_cons_of_none hname]
        | some node =>
          rw [remove_cons_cons hname]
          cases other with
          | nil => rfl
          | cons first more =>
            rw [get?_folder_cons, get?_folder_cons, Entries.get?_put]
            split
            · rename_i heq
              subst heq
              rw [hname]
              exact ih fun hmore => hother (cons_prefix_cons.mpr ⟨rfl, hmore⟩)
            · rfl

end Node

namespace Files

variable {f f' : Files} {place : List String} {gone : List String → Prop} {root node : Node}
  {path name dir : String}

/-! ### What is spared -/

/-- What stands at a place: a file with its content, or a folder. -/
def standing (f : Files) (place : List String) : Option (Option (List UInt8)) :=
  (f.root.get? place).map Node.content?

theorem contentAt_eq_standing (f : Files) (place : List String) :
    f.contentAt place = (f.standing place).join := by
  rw [contentAt, standing]
  cases f.root.get? place <;> rfl

theorem standing_folder_iff :
    f.standing place = some none ↔ ∃ entries, f.root.get? place = some (.folder entries) := by
  rw [standing, Option.map_eq_some_iff]
  constructor
  · rintro ⟨node, hnode, hcontent⟩
    cases node with
    | file content => cases hcontent
    | folder entries => exact ⟨entries, hnode⟩
  · rintro ⟨entries, hentries⟩
    exact ⟨_, hentries, rfl⟩

theorem standing_file_iff {content : List UInt8} :
    f.standing place = some (some content) ↔ f.root.get? place = some (.file content) := by
  rw [standing]
  cases f.root.get? place with
  | none => simp
  | some node => cases node <;> simp [content?]

/-- Outside of the places that are gone, everything that stood still stands, and no file is new. -/
structure Spares (gone : List String → Prop) (f f' : Files) : Prop where
  home : f'.home = f.home
  stands : ∀ place x, ¬ gone place → f.standing place = some x → f'.standing place = some x
  contentAt : ∀ place, ¬ gone place → f'.contentAt place = f.contentAt place

theorem Spares.refl (gone : List String → Prop) (f : Files) : f.Spares gone f :=
  ⟨rfl, fun _ _ _ h => h, fun _ _ => rfl⟩

theorem Spares.trans {f'' : Files} (h : f.Spares gone f') (h' : f'.Spares gone f'') :
    f.Spares gone f'' :=
  ⟨h'.home.trans h.home,
    fun place x hplace hx => h'.stands place x hplace (h.stands place x hplace hx),
    fun place hplace => (h'.contentAt place hplace).trans (h.contentAt place hplace)⟩

theorem Spares.mono {gone' : List String → Prop} (h : f.Spares gone f')
    (hgone : ∀ place, gone place → gone' place) : f.Spares gone' f' :=
  ⟨h.home, fun place x hplace => h.stands place x fun hg => hplace (hgone place hg),
    fun place hplace => h.contentAt place fun hg => hplace (hgone place hg)⟩

theorem spares_of_standing (h : ∀ place, ¬ gone place →
      (root.get? place).map content? = (f.root.get? place).map content?) :
    f.Spares gone { f with root } := by
  refine ⟨rfl, fun place x hplace hx => (h place hplace).trans hx, fun place hplace => ?_⟩
  rw [contentAt_eq_standing, contentAt_eq_standing]
  exact congrArg Option.join (h place hplace)

abbrev Adds (f f' : Files) : Prop := f.Spares (fun _ => False) f'

theorem Spares.sameContents (h : f.Adds f') : f.SameContents f' :=
  ⟨h.home, fun place => h.contentAt place id⟩

theorem Spares.grows (h : f.Adds f') : Grows f.root f'.root := by
  refine ⟨fun place hplace => ?_, fun place entries hentries => ?_⟩
  · obtain ⟨node, hnode⟩ := Option.isSome_iff_exists.mp hplace
    have hstands := h.stands place node.content? id (by rw [standing, hnode]; rfl)
    obtain ⟨node', hnode', -⟩ := Option.map_eq_some_iff.mp hstands
    rw [hnode']
    rfl
  · exact standing_folder_iff.mp
      (h.stands place none id (standing_folder_iff.mpr ⟨entries, hentries⟩))

/-! ### Making folders -/

theorem Spares.makeFolder (h : f.makeFolder path = .ok f') : f.Adds f' := by
  have hsame := SameContents.makeFolder h
  rw [Files.makeFolder] at h
  split at h
  · cases h
  · rename_i place slash hvacant
    obtain ⟨hfolder, hnone⟩ := free_of_locate hvacant
    cases h
    refine ⟨rfl, fun other x _ hx => ?_, fun other _ => hsame.contentAt other⟩
    rw [standing, map_content?_put hfolder]
    · exact hx
    · -- nothing stands below a free place
      rintro ⟨rest, rfl⟩
      rw [standing, get?_append, hnone] at hx
      cases hx
  · cases h

theorem Spares.makeFolders (f : Files) (path : String) : f.Adds (f.makeFolders path).1 :=
  makeFolders_keeps (.refl _) (fun _ _ _ => .trans) (fun _ _ _ => .makeFolder) f path

/-! ### Where paths lead -/

theorem wayTo_of_locate (h : f.locate path = .found place node) : f.wayTo path = place :=
  resolve_of_follow_eq_found (locate_eq_follow h trivial).2.2

theorem wayTo_congr (h : f'.home = f.home) (path : String) : f'.wayTo path = f.wayTo path := by
  rw [wayTo, wayTo, origin, origin, h]

/-! ### A plain name behind a folder -/

theorem not_isAbsolute_of_plainName (h : PlainName name) : isAbsolute name = false := by
  rw [isAbsolute, beq_eq_false_iff_ne]
  intro hhead
  exact h.no_slash (mem_of_mem_head? hhead)

theorem exists_join_eq (hdir : dir ≠ "") (hname : PlainName name) :
    ∃ xs, (Path.join dir name).toList = xs ++ '/' :: name.toList ∧
      (dir.toList = xs ∨ dir.toList = xs ++ ['/']) := by
  rw [Path.join, not_isAbsolute_of_plainName hname]
  simp only [Bool.false_eq_true, if_false, hdir, decide_false, Bool.false_or]
  split
  · rename_i hslash
    obtain ⟨xs, hxs⟩ := getLast?_eq_some_iff.mp (eq_of_beq hslash)
    refine ⟨xs, ?_, .inr hxs⟩
    rw [String.toList_append, hxs, append_assoc, singleton_append]
  · exact ⟨dir.toList, by simp [String.toList_append], .inl rfl⟩

theorem exists_parts_join (hdir : dir ≠ "") (hname : PlainName name) :
    ∃ xs, parts (Path.join dir name) = xs ++ [name] ∧
      (parts dir = xs ∨ parts dir = xs ++ [""]) := by
  obtain ⟨xs, hjoin, hxs⟩ := exists_join_eq hdir hname
  refine ⟨partsFrom [] xs, ?_, ?_⟩
  · rw [parts, hjoin, partsFrom_append, partsFrom_of_not_mem hname.no_slash]
    simp
  · rw [parts]
    rcases hxs with hxs | hxs
    · exact .inl (by rw [hxs])
    · rw [hxs, partsFrom_append]
      exact .inr rfl

theorem isAbsolute_join (hdir : dir ≠ "") (hname : PlainName name) :
    isAbsolute (Path.join dir name) = isAbsolute dir := by
  have hlist : dir.toList ≠ [] := by simpa using hdir
  obtain ⟨xs, hjoin, hxs⟩ := exists_join_eq hdir hname
  rw [isAbsolute, isAbsolute, hjoin]
  rcases hxs with hxs | hxs
  · rw [hxs, head?_append_of_ne_nil _ (hxs ▸ hlist)]
  · rw [hxs]
    cases xs <;> rfl

theorem origin_join (f : Files) (hdir : dir ≠ "") (hname : PlainName name) :
    f.origin (Path.join dir name) = f.origin dir := by
  rw [origin, origin, isAbsolute_join hdir hname]

/-- **A plain name behind a folder** leads to an entry of that folder. -/
theorem wayTo_join (f : Files) (hdir : dir ≠ "") (hname : PlainName name) :
    f.wayTo (Path.join dir name) = f.wayTo dir ++ [name] := by
  obtain ⟨xs, hjoin, hxs⟩ := exists_parts_join hdir hname
  have hdirWay : f.wayTo dir = resolve (f.origin dir) xs := by
    rw [wayTo]
    rcases hxs with hxs | hxs
    · rw [hxs]
    · rw [hxs, resolve_append]
      rfl
  have hnot : ¬ (name = "" ∨ name = ".") := by
    rintro (h | h)
    · exact hname.ne_empty h
    · exact hname.ne_dot h
  rw [wayTo, origin_join f hdir hname, hjoin, resolve_append, hdirWay, resolve_cons,
    resolve_nil, advance, if_neg hnot, if_neg hname.ne_dots]

theorem name_join (hdir : dir ≠ "") (hname : PlainName name) :
    Path.name (Path.join dir name) = name := by
  obtain ⟨xs, hjoin, -⟩ := exists_join_eq hdir hname
  rw [Path.name, hjoin, VersionName.cut_append_slash xs hname.no_slash, String.ofList_toList]

theorem exists_follow_above {start xs : List String}
    (h : follow root start (xs ++ [name]) = .found place node) :
    ∃ above entries, follow root start xs = .found above (.folder entries) := by
  induction xs generalizing start with
  | nil =>
    obtain ⟨entries, -, hentries, -⟩ := follow_cons_eq_found h
    exact ⟨start, entries, by rw [follow, hentries]⟩
  | cons part xs ih =>
    obtain ⟨entries, next, hentries, hleads, hnext⟩ := follow_cons_eq_found h
    rw [hleads.follow_cons hentries]
    exact ih hnext

theorem exists_locate_of_isFolder (h : f.isFolder path = true) :
    ∃ place entries, f.locate path = .found place (.folder entries) := by
  rw [isFolder] at h
  split at h
  · rename_i place entries hlocate
    exact ⟨place, entries, hlocate⟩
  · cases h

theorem isFolder_of_locate_join (hdir : dir ≠ "") (hname : PlainName name)
    (h : f.locate (Path.join dir name) = .found place node) : f.isFolder dir = true := by
  obtain ⟨hzero, -, hfollow⟩ := locate_eq_follow h trivial
  obtain ⟨xs, hjoin, hxs⟩ := exists_parts_join hdir hname
  rw [origin_join f hdir hname, hjoin] at hfollow
  obtain ⟨above, entries, habove⟩ := exists_follow_above hfollow
  have hdirFollow : follow f.root (f.origin dir) (parts dir) = .found above (.folder entries) := by
    rcases hxs with hxs | hxs
    · rw [hxs, habove]
    · rw [hxs, follow_append_slash habove]
  have hdirZero : dir.toList.contains (Char.ofNat 0) = false := by
    obtain ⟨ys, hys, hdirList⟩ := exists_join_eq hdir hname
    rcases hdirList with hdirList | hdirList <;>
    · rw [hdirList]
      simp_all
  exact isFolder_of_follow hdirZero hdir hdirFollow

theorem isFolder_grows (hhome : f'.home = f.home) (h : Grows f.root f'.root)
    (hfolder : f.isFolder path = true) : f'.isFolder path = true := by
  have hf' : f' = { f with root := f'.root } := by rw [← hhome]
  obtain ⟨place, entries, hlocate⟩ := exists_locate_of_isFolder hfolder
  obtain ⟨entries', hentries'⟩ := h.folder place entries (get?_of_locate hlocate)
  obtain ⟨node, hnode, hget⟩ := locate_grows hlocate h
  rw [hentries', Option.some.injEq] at hget
  rw [isFolder, hf', hnode, ← hget]

theorem isFolder_ensureFolder (hslash : path.toList.getLast? ≠ some '/')
    (h : (f.ensureFolder path).2 = none) : (f.ensureFolder path).1.isFolder path = true := by
  rw [ensureFolder] at h ⊢
  split
  · rename_i made hmade
    have hgrows := (Spares.makeFolder hmade).grows
    rw [makeFolder, locateBare_eq_locate hslash] at hmade
    split at hmade
    · cases hmade
    · rename_i place slash hvacant
      obtain ⟨hzero, hempty, hfollow⟩ := locate_eq_follow hvacant trivial
      cases slash with
      | true =>
        have hlast := slash_of_follow_eq_vacant hfollow
        rcases slash_of_getLast?_partsFrom hlast with hlast | ⟨-, hnil⟩
        · exact absurd hlast hslash
        · exact absurd (by simpa using hnil) hempty
      | false =>
        cases hmade
        have hplace := get?_put_self (free_of_follow_eq_vacant hfollow).1 (.folder .nil)
        rw [isFolder, locate_of_follow hzero hempty, hgrows.follow_of_vacant hfollow hplace]
    · cases hmade
  · rename_i fault hfault
    rw [hfault] at h
    dsimp only at h
    split at h
    · rename_i hfolder
      rw [if_pos hfolder]
      exact hfolder
    · cases h

theorem getLast?_ne_slash (h : Path.name path ≠ "") : path.toList.getLast? ≠ some '/' := by
  intro hslash
  obtain ⟨xs, hxs⟩ := getLast?_eq_some_iff.mp hslash
  refine h ?_
  rw [Path.name, Path.cut, hxs, reverse_append]
  rfl

/-- **A folder with a plain name** is there if no fault stopped the making of it. -/
theorem isFolder_makeFolders (hname : PlainName (Path.name path))
    (h : (f.makeFolders path).2 = none) : (f.makeFolders path).1.isFolder path = true := by
  have hensure : ∃ g : Files, f.makeFolders path = g.ensureFolder path := by
    rw [makeFolders, makeFoldersFuel, if_neg hname.ne_empty] at h ⊢
    split
    · rename_i hcondition
      rw [if_pos hcondition] at h
      generalize makeFoldersFuel path.length f (folder path) = above at *
      split
      · exact ⟨_, if_neg hname.ne_dot⟩
      · exact ⟨_, if_neg hname.ne_dot⟩
      · rename_i hnone hoccupied
        split at h
        · exact (hnone _ rfl).elim
        · exact (hoccupied _ _ rfl).elim
        · obtain ⟨g, fault⟩ := above
          cases h
          exact (hnone g rfl).elim
    · exact ⟨f, rfl⟩
  obtain ⟨g, hg⟩ := hensure
  rw [hg] at h ⊢
  exact isFolder_ensureFolder (getLast?_ne_slash hname.ne_empty) h

/-! ### Removing a folder -/

theorem spares_emptied (h : f.root.get? place = some node) :
    f.Spares (place <+: ·) (f.emptied place) :=
  spares_of_standing fun other hother => by
    refine map_content?_put (hasFolder_of_get? h ?_) _ hother
    rintro rfl
    exact hother nil_prefix

theorem spares_removeTree (h : f.removeTree path = .ok f') : f.Spares (f.wayTo path <+: ·) f' := by
  rw [removeTree] at h
  split at h
  · rename_i place entries hlocate
    cases h
    rw [wayTo_of_locate hlocate]
    exact spares_of_standing fun other hother => map_content?_remove hother
  · cases h
  · cases h

end Files

theorem Job.leaves_onFiles {Q : Except Fault Unit → World → Prop}
    (hok : ∀ files, f w.files = .ok files →
      Q (.ok ()) { w with files }) (herror : ∀ fault, f w.files = .error fault →
      Q (.error (.file fault)) w) : Leaves (Job.onFiles f) w Q := by
  refine leaves_files_bind ?_
  split
  · rename_i changed hchanged
    exact leaves_modify (hok changed hchanged)
  · rename_i fault hfault
    exact leaves_throw (herror fault hfault)

theorem Job.leaves_onFiles_bind {α : Type} {g : Unit → Job α} {Q : Except Fault α → World → Prop}
    (hok : ∀ files, f w.files = .ok files → Leaves (g ()) { w with files } Q)
    (herror : ∀ fault, f w.files = .error fault → Q (.error (.file fault)) w) :
    Leaves (Job.onFiles f >>= g) w Q := by
  rw [Job.onFiles, bind_assoc]
  refine leaves_files_bind ?_
  split
  · rename_i changed hchanged
    exact leaves_modify_bind (hok changed hchanged)
  · rename_i fault hfault
    exact leaves_throw_bind (herror fault hfault)

/-- **Removing a folder** spares what is not in it, however it ends. -/
theorem Job.leaves_removeTree (path : String) (w : World) :
    Leaves (Job.removeTree path) w fun _ w' => ∃ files, w' = { w with files } ∧
      w.files.Spares (w.files.wayTo path <+: ·) files := by
  have hremove : ∀ v : World, Leaves (Job.onFiles (·.removeTree path)) v fun _ w' =>
      ∃ files, w' = { v with files } ∧ v.files.Spares (v.files.wayTo path <+: ·) files :=
    fun v => leaves_onFiles (fun files hfiles => ⟨files, rfl, spares_removeTree hfiles⟩)
      fun _ _ => ⟨v.files, rfl, .refl _ _⟩
  rw [Job.removeTree]
  refine leaves_files_bind ?_
  dsimp only
  split
  · rename_i place entries hlocate
    have hspares := spares_emptied (get?_of_locate hlocate)
    rw [← wayTo_of_locate hlocate] at hspares
    refine leaves_modify_bind (leaves_files_bind ?_)
    rw [← wayTo_of_locate hlocate]
    split
    · exact leaves_throw_bind ⟨_, rfl, hspares⟩
    split
    · exact leaves_throw_bind ⟨_, rfl, hspares⟩
    · exact leaves_throw_bind ⟨_, rfl, hspares⟩
    · refine (hremove _).mono fun _ w' hw' => ?_
      obtain ⟨files, rfl, hfiles⟩ := hw'
      exact ⟨files, rfl, hspares.trans hfiles⟩
  · exact hremove w

end ApkWorkshop
