import ApkWorkshop.Proofs.FolderWalks
import ApkWorkshop.Proofs.Workbench
import ApkWorkshop.Tool.Decoder

/-!
# Search by Words

A file is looked for by words. One pass over the walk keeps the best file so far, and the rule is
kept by every step:

* `hits` — how many of the words a name holds, which is what the pass counts (`score_eq_hits`);
* `Wins` — a file with as many words as any, with the shortest name of these, and the first of all
  these;
* `Leader.better` — **one more file**: the best one stays in front, or the new one takes its place;
* `found_file_wins` — **the file that is found** wins among all Lua files below the folder, and none
  is found exactly if no name holds any of the words.
-/

namespace ApkWorkshop.Tool.Decoder

open Text List

/-- The Lua files below a folder, in walk order: the path of the folder of each and its name. -/
def luaEntries (files : Files) (path : String) : List (String × String) :=
  (files.walk (fun _ => true) path).filter fun entry => endsLike ".lua" entry.2

/-- How many of the words stand somewhere in the lower-case form of a name; a word that is given
twice counts twice. -/
def hits (words : List String) (name : String) : Nat :=
  words.countP fun word => decide (word.toList <:+: (lower name).toList)

theorem occurs_iff_isInfix {part text : List Char} : occurs part text = true ↔ part <:+: text := by
  induction text with
  | nil => rw [occurs, List.isEmpty_iff, infix_nil]
  | cons c rest ih => rw [occurs, Bool.or_eq_true, isPrefixOf_iff_prefix, ih, infix_cons_iff]

theorem score_eq_hits (words : List String) : score words = hits words := by
  funext name
  rw [score, hits, countP_eq_length_filter]
  congr 2
  funext word
  rw [Bool.eq_iff_iff, decide_eq_true_eq, ← occurs_iff_isInfix]
  rfl

/-- An entry has as many points as any, it has the shortest name of those that have as many, and
those in front of it are longer. -/
structure Wins (points : String → Nat) (entries : List (String × String)) (e : String × String) :
    Prop where
  most : ∀ x ∈ entries, points x.2 ≤ points e.2
  shortest : ∀ x ∈ entries, points x.2 = points e.2 → e.2.length ≤ x.2.length
  first : ∃ before after, entries = before ++ e :: after ∧
    ∀ x ∈ before, points x.2 = points e.2 → e.2.length < x.2.length

/-- What the pass keeps: no file while no name holds a word, and then the one that wins. -/
def Leader (words : List String) (seen : List (String × String)) : Option Match → Prop
  | none => ∀ x ∈ seen, score words x.2 = 0
  | some m => ∃ e, m = ⟨Path.join e.1 e.2, e.2, score words e.2⟩ ∧ 0 < score words e.2 ∧
      Wins (score words) seen e

section

variable {points : String → Nat} {words : List String} {seen : List (String × String)}
  {e x : String × String}

theorem Wins.concat (h : Wins points seen e) (hpoints : points x.2 ≤ points e.2)
    (hlength : points x.2 = points e.2 → e.2.length ≤ x.2.length) :
    Wins points (seen ++ [x]) e := by
  obtain ⟨before, after, rfl, hbefore⟩ := h.first
  refine ⟨fun y hy => ?_, fun y hy => ?_, before, after ++ [x], by simp, hbefore⟩
  · rcases mem_append.mp hy with hy | hy
    · exact h.most y hy
    · exact mem_singleton.mp hy ▸ hpoints
  · rcases mem_append.mp hy with hy | hy
    · exact h.shortest y hy
    · exact mem_singleton.mp hy ▸ hlength

theorem wins_concat_self (hpoints : ∀ y ∈ seen, points y.2 ≤ points x.2)
    (hlength : ∀ y ∈ seen, points y.2 = points x.2 → x.2.length < y.2.length) :
    Wins points (seen ++ [x]) x := by
  refine ⟨fun y hy => ?_, fun y hy heq => ?_, seen, [], rfl, hlength⟩
  · rcases mem_append.mp hy with hy | hy
    · exact hpoints y hy
    · exact (mem_singleton.mp hy ▸ le_refl _)
  · rcases mem_append.mp hy with hy | hy
    · exact (hlength y hy heq).le
    · exact (mem_singleton.mp hy ▸ le_refl _)

/-- **One more file** is compared with the best one so far. -/
theorem Leader.better {best : Option Match} (h : Leader words seen best) (x : String × String) :
    Leader words (seen ++ [x]) (better words best x.1 x.2) := by
  rw [Decoder.better.eq_def]
  cases best with
  | none =>
    dsimp only
    split
    · rename_i hpos
      refine ⟨x, rfl, hpos, wins_concat_self (fun y hy => ?_) fun y hy heq => ?_⟩
      · rw [h y hy]
        exact Nat.zero_le _
      · rw [← heq, h y hy] at hpos
        cases hpos
    · rename_i hpos
      intro y hy
      rcases mem_append.mp hy with hy | hy
      · exact h y hy
      · rw [mem_singleton.mp hy]
        omega
  | some m =>
    obtain ⟨e, rfl, hpos, hwins⟩ := h
    dsimp only
    split
    · rename_i hmore
      refine ⟨x, rfl, by omega, wins_concat_self (fun y hy => ?_) fun y hy heq => ?_⟩
      · exact (hwins.most y hy).trans hmore.le
      · exact absurd (hwins.most y hy) (by omega)
    split
    · rename_i hsame
      obtain ⟨hscore, hlength⟩ : score words x.2 = score words e.2 ∧ x.2.length < e.2.length := by
        simpa using hsame
      refine ⟨x, rfl, by omega, wins_concat_self (fun y hy => ?_) fun y hy heq => ?_⟩
      · exact hscore ▸ hwins.most y hy
      · exact hlength.trans_le (hwins.shortest y hy (heq.trans hscore))
    · rename_i hsame
      refine ⟨e, rfl, hpos, hwins.concat (by omega) fun heq => ?_⟩
      by_contra hlength
      exact hsame (by simpa using ⟨heq, not_le.mp hlength⟩)

theorem leader_bestMatch (files : Files) (words : List String) (path : String) :
    Leader words (luaEntries files path) (bestMatch files words path) := by
  have hpass : ∀ (entries seen : List (String × String)) (best : Option Match),
      Leader words seen best → Leader words (seen ++ entries)
        (entries.foldl (fun best entry => better words best entry.1 entry.2) best) := by
    intro entries
    induction entries with
    | nil => simp
    | cons x entries ih =>
      intro seen best h
      simpa using ih (seen ++ [x]) _ (h.better x)
  exact hpass (luaEntries files path) [] none (by simp [Leader])

end

theorem exists_luaPlaces {f : Files} {path : String} (hf : f.root.Proper)
    (hpath : f.exists? path = true) : ∃ places : List (List String),
      luaEntries f path = places.map (entryAt path) ∧ ∀ place,
        place ∈ places ↔ endsLike ".lua" (entryAt path place).2 = true ∧ place ≠ [] ∧
          ∃ content, f.standing (f.wayTo path ++ place) = some (some content) := by
  refine ⟨((f.nodeAt path).walkPlaces fun _ => true).filter
    fun place => endsLike ".lua" (entryAt path place).2, ?_, fun place => ?_⟩
  · rw [luaEntries, Files.walk_eq_map, filter_map]
    rfl
  · rw [mem_filter, Node.mem_walkPlaces_iff (Files.proper_nodeAt hf path), and_comm]
    refine and_congr_right fun _ => and_congr_right fun hne => ?_
    simp [Files.get?_nodeAt hne, hpath]

/-- **The file that is found** wins among the Lua files below the folder, however the folders are
listed. None is found exactly if no name holds any of the words. -/
theorem found_file_wins {w : World} {id : Nat} {start : Value} {path : String}
    (hstart : start = .text path ∨ start = .null ∧ (w.tool id).paths.lookup "lua" = some path)
    (hpath : w.files.exists? path = true) (hfiles : w.files.root.Proper) (pattern : String) :
    (∀ entry, entry ∈ luaEntries w.files path ↔ ∃ place, entry = entryAt path place ∧
      endsLike ".lua" entry.2 = true ∧ place ≠ [] ∧
      ∃ content, w.files.standing (w.files.wayTo path ++ place) = some (some content)) ∧
    ∃ found, Ends (find id pattern start) w found w ∧ (found = none ↔
        ∀ entry ∈ luaEntries w.files path, hits (words (lower pattern)) entry.2 = 0) ∧
      ∀ file, found = some file → ∃ entry, file = Path.join entry.1 entry.2 ∧
        Wins (hits (words (lower pattern))) (luaEntries w.files path) entry := by
  refine ⟨fun entry => ?_, (bestMatch w.files (words (lower pattern)) path).map (·.path), ?_, ?_⟩
  · obtain ⟨places, hentries, hplaces⟩ := exists_luaPlaces hfiles hpath
    rw [hentries, mem_map]
    refine exists_congr fun place => ?_
    rw [hplaces, and_comm, eq_comm]
    refine and_congr_right fun heq => ?_
    rw [heq]
  · have hstands : Ends (Job.stands (.text path)) w true w :=
      (Settings.ends_files w).bind (Job.ends_attempt (by rw [Value.standsIn, hpath]))
    have hchosen : Ends (pure (.text path) : Job Value) w (.text path) w :=
      ends_pure.mpr ⟨rfl, rfl⟩
    rw [find.eq_def]
    rcases hstart with rfl | ⟨rfl, hfolder⟩
    · refine hchosen.bind (hstands.bind ?_)
      exact (Job.ends_attempt rfl).bind ((Settings.ends_files w).bind (ends_pure.mpr ⟨rfl, rfl⟩))
    · have hlua : Ends (folder id "lua") w path w := by
        refine (ends_byNumber w id).bind ?_
        rw [hfolder]
        exact ends_pure.mpr ⟨rfl, rfl⟩
      refine hlua.bind (hchosen.bind (hstands.bind ?_))
      exact (Job.ends_attempt rfl).bind ((Settings.ends_files w).bind (ends_pure.mpr ⟨rfl, rfl⟩))
  · have hleader := leader_bestMatch w.files (words (lower pattern)) path
    rw [← score_eq_hits]
    cases hbest : bestMatch w.files (words (lower pattern)) path with
    | none =>
      rw [hbest] at hleader
      exact ⟨⟨fun _ => hleader, fun _ => rfl⟩, nofun⟩
    | some m =>
      rw [hbest] at hleader
      obtain ⟨entry, rfl, hpos, hwins⟩ := hleader
      refine ⟨⟨nofun, fun hnone => ?_⟩, fun file hfile => ?_⟩
      swap
      · exact ⟨entry, (Option.some.inj hfile).symm, hwins⟩
      obtain ⟨before, after, hentries, -⟩ := hwins.first
      exact absurd (hnone entry (by simp [hentries])) hpos.ne'

/-- Two files with both words and names of one length, of which the one listed first is the greater;
below them one with both words and a longer name, and one with one word. -/
def shelf : World where
  files := ⟨.folder (.cons "st_lang.lua" (.file []) (.cons "a" (.folder
    (.cons "lang_st1.LUA" (.file []) (.cons "lang.lua" (.file []) .nil)))
    (.cons "lang_st.lua" (.file []) .nil))), []⟩

/-- The file listed first is found. -/
theorem found_file_wins_shelf :
    Node.isProper shelf.files.root = true ∧ shelf.files.exists? "." = true ∧
    Ends (find 0 "ST lang" (.text ".")) shelf (some "./st_lang.lua") shelf := by
  have hproper : Node.isProper shelf.files.root = true := by decide
  have hexists : shelf.files.exists? "." = true := by decide +kernel
  have hentries : luaEntries shelf.files "." = [(".", "st_lang.lua"), (".", "lang_st.lua"),
      ("./a", "lang_st1.LUA"), ("./a", "lang.lua")] := by decide +kernel
  obtain ⟨-, found, hends, hnone, hwins⟩ := @found_file_wins shelf 0 (.text ".") "." (.inl rfl)
    hexists (Node.proper_of_isProper hproper) "ST lang"
  have hbest : ∀ x ∈ luaEntries shelf.files ".",
      hits (words (lower "ST lang")) x.2 ≤ hits (words (lower "ST lang")) "st_lang.lua" ∧
      (hits (words (lower "ST lang")) "st_lang.lua" = hits (words (lower "ST lang")) x.2 →
        "st_lang.lua".length ≤ x.2.length) := by
    rw [hentries]
    decide +kernel
  rw [hentries] at hnone hwins hbest
  refine ⟨hproper, hexists, ?_⟩
  cases found with
  | none => exact absurd (hnone.mp rfl _ mem_cons_self) (by decide +kernel)
  | some file =>
    obtain ⟨entry, rfl, hwin⟩ := hwins file rfl
    obtain ⟨before, after, hsplit, hfirst⟩ := hwin.first
    cases before with
    | nil =>
      obtain ⟨rfl, -⟩ := List.cons.inj hsplit
      exact hends
    | cons other before =>
      have hmem : entry ∈ other :: before ++ entry :: after := by simp
      obtain ⟨hle, hlength⟩ := hbest entry (hsplit ▸ hmem)
      obtain ⟨rfl, -⟩ := List.cons.inj hsplit
      have heq := le_antisymm (hwin.most _ mem_cons_self) hle
      exact absurd (hfirst _ mem_cons_self heq) (hlength heq).not_gt

end ApkWorkshop.Tool.Decoder
