import ApkWorkshop.Settings.Store
import ApkWorkshop.Proofs.DocumentRoundTrip
import ApkWorkshop.Proofs.FileAccess
import ApkWorkshop.Proofs.Steps

/-!
# Several Holders of One Settings File

Every tool that opens a settings file keeps its own copy of the document, and giving a key a value
writes the whole copy. What the file holds after any sequence of openings and changes is therefore
decided by the holder that wrote last.
-/

namespace ApkWorkshop.Settings

open Text List Nat Option

/-! ### Loading and storing -/

section

variable {files : Files} {file : String} {v : Value} {s : Settings} {w : World}

theorem load_of_read {width : Nat} (hv : v.Storable)
    (hread : files.read file = .ok (encode (v.document width))) : load files file = .ok v := by
  have hexists : files.exists? file = true := by
    rw [Files.exists?]
    rw [Files.read] at hread
    split at hread
    · rename_i hlocate
      rw [hlocate]
    · cases hread
    · cases hread
  have hchars : decodeChars (encode (v.document width)) = .ok (v.document width).toList :=
    decodeChars_encodeChars _
  simp only [load, hexists, if_true, hread, hchars, Document.readChars_document width hv]

theorem load_store {files' : Files} (hdata : s.data.Storable) (h : store files s = .ok files') :
    load files' s.file = .ok s.data :=
  load_of_read hdata (Files.read_write h)

theorem storable_of_load (h : load files file = .ok v) : v.Storable := by
  rw [load] at h
  split at h
  · split at h
    · cases h
    split at h
    · cases h
    split at h
    · cases h
    · rename_i hread
      cases h
      exact Document.storable_of_readChars hread
  · cases h
    exact .object (by simp) (by simp)

theorem ends_files (w : World) : Ends Job.files w w.files w :=
  Ends.bind (ends_get.mpr ⟨rfl, rfl⟩) (ends_pure.mpr ⟨rfl, rfl⟩)

theorem ends_openFile_of_read {u : World} (h : Ends (read file) w v u) :
    Ends (openFile file) w u.settings.length
      { u with settings := u.settings ++ [{ file, data := v }] } := by
  refine h.bind ?_
  refine Ends.bind (ends_get.mpr ⟨rfl, rfl⟩) ?_
  exact Ends.modify_bind (ends_pure.mpr ⟨rfl, rfl⟩)

theorem ends_openFile (h : load w.files file = .ok v) :
    Ends (openFile file) w w.settings.length
      { w with settings := w.settings ++ [{ file, data := v }] } := by
  refine ends_openFile_of_read ((ends_files w).bind ?_)
  rw [h]
  exact ends_pure.mpr ⟨rfl, rfl⟩

theorem ends_byNumber {id : Nat} (h : w.settings[id]? = some s) : Ends (byNumber id) w s w := by
  refine Ends.bind (ends_get.mpr ⟨rfl, rfl⟩) ?_
  rw [h]
  exact ends_pure.mpr ⟨rfl, rfl⟩

end

/-- **A change** goes into the copy of its holder, and the whole copy goes to the file. -/
theorem ends_set {w : World} {id : Nat} {s : Settings} {members : List (String × Value)}
    (hs : w.settings[id]? = some s) (hdata : s.data = .object members) {files : Files}
    (key : String) (v : Value)
    (hstore : store w.files { s with data := .object (setMember key v members) } = .ok files) :
    Ends (Settings.set id key v) w ()
      { w with
        settings := w.settings.modify id
          fun s => { s with data := .object (setMember key v members) }
        files } := by
  have hassign : s.data.assign key v = .ok (.object (setMember key v members)) := by
    rw [hdata]
    rfl
  refine (ends_byNumber hs).bind ?_
  rw [hassign]
  refine Ends.bind (m := Job.attempt _) (ends_pure.mpr ⟨rfl, rfl⟩) ?_
  refine Ends.modify_bind ?_
  refine (ends_files _).bind ?_
  refine (ends_byNumber (s := { s with data := .object (setMember key v members) }) ?_).bind ?_
  · simp [hs]
  rw [hstore]
  exact ends_modify.mpr rfl

/-! ### Events -/

/-- Values of at most so many levels, with whole numbers of at most 4300 digits: larger ones are not
turned into text and back everywhere. -/
inductive Within : Nat → Value → Prop
  | null {n : Nat} : Within n .null
  | truth {n : Nat} (b : Bool) : Within n (.truth b)
  | whole {n : Nat} {z : Int} (h : (decimal z.natAbs).length ≤ 4300) : Within n (.whole z)
  | real {n : Nat} (x : Double) : Within n (.real x)
  | text {n : Nat} (s : String) : Within n (.text s)
  | list {n : Nat} {items : List Value} (h : ∀ v ∈ items, Within n v) : Within (n + 1) (.list items)
  | object {n : Nat} {members : List (String × Value)} (h : ∀ p ∈ members, Within n p.2) :
    Within (n + 1) (.object members)

/-- What happens to the settings in one file: somebody opens them, or somebody who opened them
gives a key a value. Holders are numbered in the order in which they open the file. -/
inductive Event
  | opened
  | changed (holder : Nat) (key : String) (v : Value)

namespace Event

variable {n base holder : Nat} {xs ys events before after : List Event} {file : String}
  {w w' : World} {members original : List (String × Value)}

/-- What is done for an event; `base` is the number of the first holder among all settings. -/
def job (file : String) (base : Nat) : Event → Job Unit
  | opened => do
    let _ ← openFile file
  | changed holder key v => Settings.set (base + holder) key v

/-- The events, one after the other. -/
def happen (file : String) (base : Nat) (events : List Event) : Job Unit :=
  events.forM (job file base)

def opens : List Event → Nat
  | [] => 0
  | opened :: rest => opens rest + 1
  | changed _ _ _ :: rest => opens rest

/-- Events that can happen if so many holders opened the file before: only holders that opened it
change it, and they give values that a document can hold, of less than 900 levels. -/
def Possible : Nat → List Event → Prop
  | _, [] => True
  | n, opened :: rest => Possible (n + 1) rest
  | n, changed holder _ v :: rest => holder < n ∧ (v.Storable ∧ Within 899 v) ∧ Possible n rest

def gives (key : String) : Event → Option Value
  | opened => none
  | changed _ k v => if k = key then some v else none

/-- The value that an event gives a key, if it is a change by the holder. -/
def givenBy (holder : Nat) (key : String) : Event → Option Value
  | opened => none
  | changed h k v => if h = holder ∧ k = key then some v else none

def holder? : Event → Option Nat
  | opened => none
  | changed h _ _ => some h

/-- The value that a key was last given. -/
def latest (key : String) (events : List Event) : Option Value :=
  events.reverse.findSome? (gives key)

def latestBy (holder : Nat) (key : String) (events : List Event) : Option Value :=
  events.reverse.findSome? (givenBy holder key)

def lastHolder (events : List Event) : Option Nat :=
  events.reverse.findSome? holder?

/-! ### Events one after the other -/

theorem opens_append (xs ys : List Event) : opens (xs ++ ys) = opens xs + opens ys := by
  induction xs with
  | nil => simp [opens]
  | cons x xs ih =>
    cases x with
    | opened =>
      rw [cons_append, opens, ih, opens]
      omega
    | changed holder key v => rw [cons_append, opens, ih, opens]

theorem possible_append : Possible n (xs ++ ys) ↔ Possible n xs ∧ Possible (n + opens xs) ys := by
  induction xs generalizing n with
  | nil => simp [Possible, opens]
  | cons x xs ih =>
    cases x with
    | opened =>
      rw [cons_append, Possible, ih, Possible, opens,
        show n + 1 + opens xs = n + (opens xs + 1) by omega]
    | changed holder key v =>
      rw [cons_append, Possible, ih, Possible]
      tauto

theorem latest_append (key : String) (xs ys : List Event) :
    latest key (xs ++ ys) = (latest key ys).or (latest key xs) := by
  rw [latest, reverse_append, findSome?_append]
  rfl

theorem latestBy_append (holder : Nat) (key : String) (xs ys : List Event) :
    latestBy holder key (xs ++ ys) = (latestBy holder key ys).or (latestBy holder key xs) := by
  rw [latestBy, reverse_append, findSome?_append]
  rfl

theorem lastHolder_append (xs ys : List Event) :
    lastHolder (xs ++ ys) = (lastHolder ys).or (lastHolder xs) := by
  rw [lastHolder, reverse_append, findSome?_append]
  rfl

theorem ends_happen_append {w'' : World} :
    Ends (happen file base (xs ++ ys)) w () w'' ↔
      ∃ w', Ends (happen file base xs) w () w' ∧ Ends (happen file base ys) w' () w'' :=
  ends_forM_append

theorem ends_happen_singleton {e : Event} :
    Ends (happen file base [e]) w () w' ↔ Ends (job file base e) w () w' := by
  rw [happen]
  simp

/-! ### What events do -/

/-- The file holds an object and can be written, and all settings from a number on are copies of
objects for that file. -/
structure InOrder (file : String) (base : Nat) (w : World) : Prop where
  canWrite : ∃ place, w.files.CanWrite file place
  document : ∃ members, load w.files file = .ok (.object members)
  base_le : base ≤ w.settings.length
  copies : ∀ id s, base ≤ id → w.settings[id]? = some s →
    s.file = file ∧ ∃ members, s.data = .object members ∧ (Value.object members).Storable

def Holds (w : World) (id : Nat) (members : List (String × Value)) : Prop :=
  ∃ s, w.settings[id]? = some s ∧ s.data = .object members

/-- **Opening the file** adds a copy of the document and changes nothing else. -/
theorem ends_opened (h : InOrder file base w) (hload : load w.files file = .ok (.object members)) :
    ∃ w', Ends (job file base opened) w () w' ∧ InOrder file base w' ∧ w'.files = w.files ∧
      w'.settings.length = w.settings.length + 1 ∧ Holds w' w.settings.length members ∧
      ∀ id ms, Holds w id ms → Holds w' id ms := by
  refine ⟨_, (ends_openFile hload).bind (ends_pure.mpr ⟨rfl, rfl⟩), ?_, rfl, by simp, ?_, ?_⟩
  · refine ⟨h.canWrite, h.document, by simpa using le_succ_of_le h.base_le, ?_⟩
    intro id s hid hs
    rcases lt_or_ge id w.settings.length with hlt | hge
    · rw [getElem?_append_left hlt] at hs
      exact h.copies id s hid hs
    · rw [getElem?_append_right hge, getElem?_singleton] at hs
      split at hs
      · cases hs
        exact ⟨rfl, members, rfl, storable_of_load hload⟩
      · cases hs
  · exact ⟨{ file, data := .object members }, by simp, rfl⟩
  · rintro id ms ⟨s, hs, hdata⟩
    have hlt := (List.getElem?_eq_some_iff.mp hs).1
    exact ⟨s, by rw [getElem?_append_left hlt, hs], hdata⟩

/-- **A change** goes into the copy of its holder and no other, and the file is that copy. -/
theorem ends_changed (h : InOrder file base w) (hholder : base + holder < w.settings.length)
    (key : String) {v : Value} (hv : v.Storable) :
    ∃ w', Ends (job file base (changed holder key v)) w () w' ∧ InOrder file base w' ∧
      w'.settings.length = w.settings.length ∧
      (∀ id ms, Holds w id ms →
        Holds w' id (if id = base + holder then setMember key v ms else ms)) ∧
      ∃ ms, Holds w' (base + holder) ms ∧ load w'.files file = .ok (.object ms) := by
  obtain ⟨place, hplace⟩ := h.canWrite
  have hs := getElem?_eq_getElem hholder
  generalize w.settings[base + holder] = s at hs
  obtain ⟨hfile, members, hdata, hstorable⟩ := h.copies _ s (le_add_right _ _) hs
  have hnew := hstorable.setMember key hv
  obtain ⟨files, hstore, hcan⟩ : ∃ files,
      store w.files { s with data := .object (setMember key v members) } = .ok files ∧
        ∃ place, files.CanWrite file place := by
    rw [store, hfile, hplace.write]
    exact ⟨_, rfl, place, hplace.put _⟩
  have hload := load_store hnew hstore
  simp only [hfile] at hload
  have hself : (w.settings.modify (base + holder)
      fun s => { s with data := .object (setMember key v members) })[base + holder]? =
        some { s with data := .object (setMember key v members) } := by
    rw [getElem?_modify, hs]
    simp
  have hother : ∀ id, id ≠ base + holder → (w.settings.modify (base + holder)
      fun s => { s with data := .object (setMember key v members) })[id]? = w.settings[id]? := by
    intro id hid
    simp [Ne.symm hid]
  refine ⟨_, ends_set hs hdata key v hstore, ⟨hcan, ⟨_, hload⟩, by simpa using h.base_le, ?_⟩,
    by simp, ?_, _, ⟨_, hself, rfl⟩, hload⟩
  · intro id t hid ht
    by_cases hid' : id = base + holder
    · subst hid'
      obtain rfl := Option.some.inj (hself.symm.trans ht)
      exact ⟨hfile, _, rfl, hnew⟩
    · exact h.copies id t hid ((hother id hid').symm.trans ht)
  · rintro id ms ⟨t, ht, htdata⟩
    by_cases hid : id = base + holder
    · subst hid
      obtain rfl : t = s := Option.some.inj (ht.symm.trans hs)
      obtain rfl : members = ms := by simpa [hdata] using htdata
      rw [if_pos rfl]
      exact ⟨_, hself, rfl⟩
    · rw [if_neg hid]
      exact ⟨t, (hother id hid).trans ht, htdata⟩

/-- What is true of a world in which events happened in another one. -/
structure After (file : String) (base : Nat) (events : List Event) (w w' : World) : Prop where
  inOrder : InOrder file base w'
  length : w'.settings.length = w.settings.length + opens events
  /-- A copy changes only by its own holder. -/
  copies : ∀ holder ms, Holds w (base + holder) ms → ∃ ms', Holds w' (base + holder) ms' ∧
    ∀ key, member? ms' key = (latestBy holder key events).or (member? ms key)
  unchanged : lastHolder events = none → w'.files = w.files
  /-- The file is the copy of the last holder that changed it. -/
  file : ∀ holder, lastHolder events = some holder →
    ∃ ms, Holds w' (base + holder) ms ∧ load w'.files file = .ok (.object ms)

/-- **A run of events**, step by step from its end: it comes to an end, and the world is as the
events say. -/
theorem happen_spec (h : InOrder file base w)
    (hpossible : Possible (w.settings.length - base) events) :
    ∃ w', Ends (happen file base events) w () w' ∧ After file base events w w' := by
  induction events using reverseRecOn with
  | nil =>
    refine ⟨w, ends_forM_nil.mpr rfl, h, rfl, fun holder ms hms => ⟨ms, hms, fun key => rfl⟩,
      fun _ => rfl, fun holder hholder => ?_⟩
    cases hholder
  | append_singleton events e ih =>
    obtain ⟨hbefore, he⟩ := possible_append.mp hpossible
    obtain ⟨w₁, hrun, hw₁⟩ := ih hbefore
    cases e with
    | opened =>
      obtain ⟨members, hload⟩ := hw₁.inOrder.document
      obtain ⟨w₂, hstep, hinOrder, hfiles, hlength, -, hkept⟩ :=
        ends_opened hw₁.inOrder hload
      refine ⟨w₂, ends_happen_append.mpr ⟨w₁, hrun, ends_happen_singleton.mpr hstep⟩,
        hinOrder, ?_, fun holder ms hms => ?_, fun hnone => ?_, fun holder hholder => ?_⟩
      · rw [hlength, hw₁.length, opens_append]
        rfl
      · obtain ⟨ms', hms', hvalues⟩ := hw₁.copies holder ms hms
        refine ⟨ms', hkept _ _ hms', fun key => ?_⟩
        rw [hvalues key, latestBy_append]
        rfl
      · rw [lastHolder_append] at hnone
        rw [hfiles, hw₁.unchanged hnone]
      · rw [lastHolder_append] at hholder
        obtain ⟨ms, hms, hload⟩ := hw₁.file holder hholder
        exact ⟨ms, hkept _ _ hms, by rw [hfiles, hload]⟩
    | changed changer key v =>
      obtain ⟨hchanger, ⟨hv, -⟩, -⟩ := he
      have hbound : base + changer < w₁.settings.length := by
        have := h.base_le
        rw [hw₁.length]
        omega
      obtain ⟨w₂, hstep, hinOrder, hlength, hkept, hfile⟩ :=
        ends_changed hw₁.inOrder hbound key hv
      have hlast : lastHolder (events ++ [changed changer key v]) = some changer := by
        rw [lastHolder_append]
        rfl
      refine ⟨w₂, ends_happen_append.mpr ⟨w₁, hrun, ends_happen_singleton.mpr hstep⟩,
        hinOrder, ?_, fun holder ms hms => ?_, fun hnone => ?_, fun holder hholder => ?_⟩
      · rw [hlength, hw₁.length, opens_append]
        rfl
      · obtain ⟨ms', hms', hvalues⟩ := hw₁.copies holder ms hms
        refine ⟨_, hkept _ _ hms', fun k => ?_⟩
        by_cases hid : holder = changer
        · subst hid
          rw [if_pos rfl, member?_setMember, hvalues]
          by_cases hk : k = key
          · subst hk; simp [latestBy, givenBy]
          · simp [latestBy, givenBy, hk, Ne.symm hk]
        · rw [if_neg (by omega), hvalues]
          simp [latestBy, givenBy, Ne.symm hid]
      · rw [hlast] at hnone
        cases hnone
      · rw [hlast] at hholder
        cases hholder
        exact hfile

/-! ### The last holder -/

theorem lastHolder_lt (h : Possible n events) (hlast : lastHolder events = some holder) :
    holder < n + opens events := by
  induction events using reverseRecOn with
  | nil => cases hlast
  | append_singleton events e ih =>
    obtain ⟨hbefore, he⟩ := possible_append.mp h
    rw [lastHolder_append] at hlast
    rw [opens_append]
    cases e with
    | opened =>
      have := ih hbefore hlast
      omega
    | changed changer key v =>
      cases hlast
      have := he.1
      omega

theorem exists_opened (h : holder < opens events) :
    ∃ before after, events = before ++ opened :: after ∧ opens before = holder := by
  induction events generalizing holder with
  | nil => cases h
  | cons e events ih =>
    cases e with
    | opened =>
      cases holder with
      | zero => exact ⟨[], events, rfl, rfl⟩
      | succ holder =>
        obtain ⟨before, after, rfl, hbefore⟩ := ih (lt_of_succ_lt_succ h)
        exact ⟨opened :: before, after, rfl, by rw [opens, hbefore]⟩
    | changed changer key v =>
      obtain ⟨before, after, rfl, hbefore⟩ := ih h
      exact ⟨changed changer key v :: before, after, rfl, hbefore⟩

theorem lastHolder_after (h : Possible 0 (before ++ opened :: after))
    (hlast : lastHolder (before ++ opened :: after) = some (opens before)) :
    lastHolder after = some (opens before) := by
  have hafter : lastHolder (opened :: after) = lastHolder after := by
    rw [← singleton_append, lastHolder_append, show lastHolder [opened] = none from rfl, or_none]
  rw [lastHolder_append, hafter] at hlast
  cases hcase : lastHolder after with
  | some holder => rwa [hcase] at hlast
  | none =>
    rw [hcase] at hlast
    have := lastHolder_lt (possible_append.mp h).1 hlast
    omega

theorem inOrder_of_load {place : List String} (hfile : w.files.CanWrite file place)
    (hload : load w.files file = .ok (.object original)) : InOrder file w.settings.length w := by
  refine ⟨⟨place, hfile⟩, ⟨original, hload⟩, le_rfl, fun id s hid hs => ?_⟩
  rw [getElem?_eq_none hid] at hs
  cases hs

/-- **The file after a run** is the copy of the last holder: what it saw when it opened the file,
with its own changes. -/
theorem file_of_lastHolder (h : InOrder file w.settings.length w)
    (hpossible : Possible 0 (before ++ opened :: after))
    (hlast : lastHolder (before ++ opened :: after) = some (opens before)) :
    ∃ w₁ w' seen members, Ends (happen file w.settings.length before) w () w₁ ∧
      load w₁.files file = .ok (.object seen) ∧
      Ends (happen file w.settings.length (before ++ opened :: after)) w () w' ∧
      load w'.files file = .ok (.object members) ∧
      ∀ key, member? members key = (latestBy (opens before) key after).or (member? seen key) := by
  obtain ⟨hbefore, hafter⟩ := possible_append.mp hpossible
  obtain ⟨w₁, hrun₁, hw₁⟩ := happen_spec h (by rwa [Nat.sub_self])
  obtain ⟨seen, hseen⟩ := hw₁.inOrder.document
  obtain ⟨w₂, hstep, hinOrder, -, hlength, hholds, -⟩ := ends_opened hw₁.inOrder hseen
  rw [hw₁.length] at hlength hholds
  have hpossible₂ : Possible (w₂.settings.length - w.settings.length) after := by
    rw [hlength, show w.settings.length + opens before + 1 - w.settings.length =
      0 + opens before + 1 by omega]
    exact hafter
  obtain ⟨w₃, hrun₃, hw₃⟩ := happen_spec hinOrder hpossible₂
  obtain ⟨ms, hms, hvalues⟩ := hw₃.copies _ _ hholds
  obtain ⟨ms', hms', hfile⟩ := hw₃.file _ (lastHolder_after hpossible hlast)
  obtain ⟨s, hs, hdata⟩ := hms
  obtain ⟨s', hs', hdata'⟩ := hms'
  obtain rfl : s = s' := Option.some.inj (hs.symm.trans hs')
  obtain rfl : ms = ms' := by simpa [hdata] using hdata'
  refine ⟨w₁, w₃, seen, ms, hrun₁, hseen, ?_, hfile, hvalues⟩
  exact ends_happen_append.mpr ⟨w₁, hrun₁, ends_forM_cons.mpr ⟨w₂, hstep, hrun₃⟩⟩

/-! ### Lost and kept changes -/

/-- Every change is made by a holder that has **seen** all others: since it opened the file, nobody
else has changed it. -/
def Current (events : List Event) : Prop :=
  ∀ before holder key v after, events = before ++ changed holder key v :: after →
    ∀ seen unseen, before = seen ++ opened :: unseen → opens seen = holder →
      ∀ other k u, changed other k u ∈ unseen → other = holder

theorem Current.of_append (h : Current (xs ++ ys)) : Current xs := by
  rintro before holder key v after rfl
  exact h before holder key v (after ++ ys) (by simp)

theorem exists_of_lastHolder (h : lastHolder events = some holder) :
    ∃ before key v after, events = before ++ changed holder key v :: after ∧
      ∀ other k u, changed other k u ∉ after := by
  induction events using reverseRecOn with
  | nil => cases h
  | append_singleton events e ih =>
    rw [lastHolder_append] at h
    cases e with
    | opened =>
      obtain ⟨before, key, v, after, rfl, hafter⟩ := ih h
      refine ⟨before, key, v, after ++ [opened], by simp, fun other k u hmem => ?_⟩
      rcases mem_append.mp hmem with hmem | hmem
      · exact hafter other k u hmem
      · simp at hmem
    | changed changer key v =>
      cases h
      exact ⟨events, key, v, [], rfl, by simp⟩

theorem latest_eq_latestBy (h : ∀ other k u, changed other k u ∈ events → other = holder)
    (key : String) : latest key events = latestBy holder key events := by
  induction events using reverseRecOn with
  | nil => rfl
  | append_singleton events e ih =>
    rw [latest_append, latestBy_append, ih fun other k u hmem => h other k u (by simp [hmem])]
    cases e with
    | opened => rfl
    | changed changer k v =>
      obtain rfl := h changer k v (by simp)
      simp [latest, latestBy, gives, givenBy]

theorem latestBy_eq_none {key : String} (h : latest key events = none) (holder : Nat) :
    latestBy holder key events = none := by
  induction events using reverseRecOn with
  | nil => rfl
  | append_singleton events e ih =>
    rw [latest_append, or_eq_none_iff] at h
    rw [latestBy_append, ih h.2]
    cases e with
    | opened => rfl
    | changed changer k v =>
      have hk : k ≠ key := by simpa [latest, gives] using h.1
      simp [latestBy, givenBy, hk]

theorem latest_eq_none (h : lastHolder events = none) (key : String) :
    latest key events = none := by
  induction events using reverseRecOn with
  | nil => rfl
  | append_singleton events e ih =>
    rw [lastHolder_append, or_eq_none_iff] at h
    rw [latest_append, ih h.2]
    cases e with
    | opened => rfl
    | changed changer k v => cases h.1

theorem Current.own (h : Current (before ++ opened :: after))
    (hlast : lastHolder after = some (opens before)) :
    ∀ other k u, changed other k u ∈ after → other = opens before := by
  obtain ⟨mid, key, v, rest, rfl, hrest⟩ := exists_of_lastHolder hlast
  intro other k u hmem
  rcases mem_append.mp hmem with hmem | hmem
  · exact h (before ++ opened :: mid) (opens before) key v rest (by simp) before mid rfl rfl
      other k u hmem
  · rcases mem_cons.mp hmem with heq | hmem
    · cases heq
      rfl
    · exact absurd hmem (hrest other k u)

theorem members_of_events (h : InOrder file w.settings.length w)
    (hload : load w.files file = .ok (.object original)) (hpossible : Possible 0 events)
    (hrun : Ends (happen file w.settings.length events) w () w')
    (hload' : load w'.files file = .ok (.object members)) :
    (∀ key, latest key events = none → member? members key = member? original key) ∧
      (Current events → ∀ key,
        member? members key = (latest key events).or (member? original key)) := by
  -- the run up to the moment at which the last holder opened the file is shorter
  induction hn : events.length using Nat.strong_induction_on generalizing events w' members with
  | _ n ih =>
    subst hn
    cases hlast : lastHolder events with
    | none =>
      obtain ⟨w'', hrun', hw''⟩ := happen_spec h (by rwa [Nat.sub_self])
      obtain rfl := (Ends.unique hrun hrun').2
      obtain rfl : original = members := by simpa [hw''.unchanged hlast, hload] using hload'
      exact ⟨fun _ _ => rfl, fun _ key => by rw [latest_eq_none hlast, none_or]⟩
    | some holder =>
      obtain ⟨before, after, rfl, rfl⟩ := exists_opened (by
        simpa using lastHolder_lt hpossible hlast)
      obtain ⟨w₁, w'', seen, ms, hrun₁, hseen, hrun', hms, hvalues⟩ :=
        file_of_lastHolder h hpossible hlast
      obtain rfl := (Ends.unique hrun hrun').2
      obtain rfl : ms = members := by simpa [hms] using hload'
      obtain ⟨hnever, hcurrent⟩ := ih before.length (by simp) (possible_append.mp hpossible).1
        hrun₁ hseen rfl
      have hlatest : ∀ key, latest key (before ++ opened :: after) =
          (latest key after).or (latest key before) := by
        intro key
        rw [← singleton_append, latest_append, latest_append,
          show latest key [opened] = none from rfl, or_none]
      refine ⟨fun key hnone => ?_, fun hall key => ?_⟩
      · rw [hlatest, or_eq_none_iff] at hnone
        rw [hvalues, latestBy_eq_none hnone.1, none_or, hnever key hnone.2]
      · have hown := hall.own (lastHolder_after hpossible hlast)
        rw [hvalues, hcurrent hall.of_append, hlatest, latest_eq_latestBy hown, Option.or_assoc]

/-- **What a settings file holds after any run of events**, if it held an object of at most 900
levels. The run comes to an end, and the file holds an object. If anybody changed anything, it holds
what the last holder to change it saw when it opened the file, with that holder's own changes. So a
key that nobody changed keeps its value, and every key has the value given to it last if every
change was made by a holder that had seen all changes by others. -/
theorem settings_after_events {file : String} {w : World} {place : List String}
    (hfile : w.files.CanWrite file place) {original : List (String × Value)}
    (hload : load w.files file = .ok (.object original))
    (_hlevels : Within 900 (.object original)) {events : List Event}
    (hpossible : Possible 0 events) :
    ∃ w' members, Ends (happen file w.settings.length events) w () w' ∧
      load w'.files file = .ok (.object members) ∧
      (∀ holder, lastHolder events = some holder → ∃ before after w₁ seen,
        events = before ++ opened :: after ∧ opens before = holder ∧
        Ends (happen file w.settings.length before) w () w₁ ∧
        load w₁.files file = .ok (.object seen) ∧
        ∀ key, member? members key = (latestBy holder key after).or (member? seen key)) ∧
      (∀ key, latest key events = none → member? members key = member? original key) ∧
      (Current events → ∀ key,
        member? members key = (latest key events).or (member? original key)) := by
  have h := inOrder_of_load hfile hload
  obtain ⟨w', hrun, hw'⟩ := happen_spec h (by rwa [Nat.sub_self])
  obtain ⟨members, hmembers⟩ := hw'.inOrder.document
  refine ⟨w', members, hrun, hmembers, fun holder hlast => ?_,
    members_of_events h hload hpossible hrun hmembers⟩
  obtain ⟨before, after, rfl, rfl⟩ := exists_opened (by
    simpa using lastHolder_lt hpossible hlast)
  obtain ⟨w₁, w'', seen, ms, hrun₁, hseen, hrun', hms, hvalues⟩ :=
    file_of_lastHolder h hpossible hlast
  obtain rfl := (Ends.unique hrun hrun').2
  obtain rfl : ms = members := by simpa [hms] using hmembers
  exact ⟨before, after, w₁, seen, rfl, rfl, hrun₁, hseen, hvalues⟩

/-! ### Two holders -/

def themeOnly : List (String × Value) := [("theme", .whole 1)]

theorem storable_themeOnly : (Value.object themeOnly).Storable :=
  .object (by simp [themeOnly]) (by
    intro p hp
    obtain rfl : p = ("theme", .whole 1) := by simpa [themeOnly] using hp
    exact .whole _)

def sharedWorld : World where
  files := ⟨.folder (.cons "config.json"
    (.file (encode ((Value.object themeOnly).document 4))) .nil), []⟩

theorem locate_sharedWorld : sharedWorld.files.locate "config.json" =
    .found ["config.json"] (.file (encode ((Value.object themeOnly).document 4))) := by
  have hparts : Path.parts "config.json" = ["config.json"] := by decide
  rw [Files.locate, hparts]
  simp [sharedWorld, follow, Entries.get?_cons, Node.get?_folder_cons]

theorem canWrite_sharedWorld : sharedWorld.files.CanWrite "config.json" ["config.json"] :=
  ⟨by decide, Or.inl ⟨_, locate_sharedWorld⟩⟩

theorem load_sharedWorld : load sharedWorld.files "config.json" = .ok (.object themeOnly) :=
  load_of_read storable_themeOnly (by rw [Files.read, locate_sharedWorld])

/-- Two holders change different keys, the second one after it opened the file again. -/
def inTurn : List Event :=
  [opened, changed 0 "x" (.whole 1), opened, changed 1 "y" (.whole 2)]

/-- Two holders open the file and then change different keys. -/
def interleaved : List Event :=
  [opened, opened, changed 0 "x" (.whole 1), changed 1 "y" (.whole 2)]

/-- Both changes and the original theme are in the file. -/
theorem settings_after_inTurn :
    sharedWorld.files.CanWrite "config.json" ["config.json"] ∧
      load sharedWorld.files "config.json" = .ok (.object themeOnly) ∧ Possible 0 inTurn ∧
      Current inTurn ∧
      ∃ w' members, Ends (happen "config.json" 0 inTurn) sharedWorld () w' ∧
        load w'.files "config.json" = .ok (.object members) ∧
        member? members "x" = some (.whole 1) ∧ member? members "y" = some (.whole 2) ∧
        member? members "theme" = some (.whole 1) := by
  have hpossible : Possible 0 inTurn :=
    ⟨by decide, ⟨.whole _, .whole (by decide +kernel)⟩, by decide, ⟨.whole _, .whole (by decide +kernel)⟩,
      trivial⟩
  have hcurrent : Current inTurn := by
    intro before holder key v after heq seen unseen hbefore hseen other k u hmem
    subst hbefore
    rcases seen with _ | ⟨a, _ | ⟨b, _ | ⟨c, _ | ⟨d, seen⟩⟩⟩⟩
    · -- the first holder changes nothing after the second one opened the file
      rcases unseen with _ | ⟨a, _ | ⟨b, _ | ⟨c, unseen⟩⟩⟩
      · cases hmem
      · simp [inTurn] at heq
      · simp only [inTurn, nil_append, cons_append, List.cons.injEq, changed.injEq] at heq
        have : holder = 0 := hseen.symm
        omega
      · simp [inTurn] at heq
    · simp [inTurn] at heq
    · rcases unseen with _ | ⟨a, unseen⟩
      · cases hmem
      · simp [inTurn] at heq
    · simp [inTurn] at heq
    · simp [inTurn] at heq
  obtain ⟨w', members, hrun, hload, -, -, hall⟩ :=
    settings_after_events canWrite_sharedWorld load_sharedWorld
      (.object (by simpa [themeOnly] using .whole (by decide +kernel))) hpossible
  refine ⟨canWrite_sharedWorld, load_sharedWorld, hpossible, hcurrent, w', members, hrun, hload, ?_⟩
  rw [hall hcurrent, hall hcurrent, hall hcurrent]
  exact ⟨rfl, rfl, rfl⟩

/-- Interleaved, the second holder writes its copy over the change of the first. -/
theorem change_lost_by_second_holder :
    ∃ w' members, Ends (happen "config.json" 0 interleaved) sharedWorld () w' ∧
      load w'.files "config.json" = .ok (.object members) ∧
      latest "x" interleaved = some (.whole 1) ∧ member? members "x" = none := by
  have hpossible : Possible 0 ([opened] ++ opened :: interleaved.drop 2) :=
    ⟨by decide, ⟨.whole _, .whole (by decide +kernel)⟩, by decide, ⟨.whole _, .whole (by decide +kernel)⟩,
      trivial⟩
  have hinOrder := inOrder_of_load canWrite_sharedWorld load_sharedWorld
  obtain ⟨w₁, w', seen, members, hrun₁, hseen, hrun, hload, hvalues⟩ :=
    file_of_lastHolder hinOrder hpossible rfl
  have hseen' := (members_of_events hinOrder load_sharedWorld (possible_append.mp hpossible).1
    hrun₁ hseen).1 "x" rfl
  refine ⟨w', members, hrun, hload, rfl, ?_⟩
  rw [hvalues, hseen']
  rfl

end Event

end ApkWorkshop.Settings
