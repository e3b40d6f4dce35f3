import ApkWorkshop.Proofs.FunctionListing
import ApkWorkshop.Proofs.RecordReading

/-!
# Two Readings Side by Side

A chunk and what is left of it without debug records are read differently and listed almost alike. To
compare the listings, a step of the first reading is brought together with a step of the second:
`Mirrors limit m m' post` says that whenever `m` ends well, there are bytes from which `m'` ends well at
the same place of the tree, and that `m'` writes what `m` has written without the lines that show debug
records. What the two values, the bytes and the lines have to do with each other is said by `post`. The
second reading may nest functions only as deeply as it has bytes, so the bytes are limited.

## Rules

* `Blind` — a step that does from every state what it did from one, as all steps that describe a body;
* `mirrors_blind` — such a step mirrors itself, unless it shows debug records;
* `mirrors_of_reads` — a step that writes about debug records only, if at all, and a reader that finds
  bytes in front of it;
* `mirrors_bind`, `mirrors_repeated` — steps in a row, and a step taken several times.
-/

namespace ApkWorkshop.Listing

open Bytecode List
open Text

variable {α β γ δ : Type}

variable {m : Disassembly α} {f : Unit → Disassembly β} {c : Prop} {ls : List (List Char)}
  {limit : Nat} {m' : Disassembly β} {post : α → β → List UInt8 → List (List Char) → Prop} {b : β}
  {f' : β → Disassembly δ} {view : α → β} {encoded : α → List UInt8}
  {post' : γ → δ → List UInt8 → List (List Char) → Prop}

/-! ### Steps that do not look at the state -/

/-- What the step did once it does from every state: it returns the same value, and adds the same texts
to the listing and to the console. -/
def Blind (m : Disassembly α) : Prop :=
  ∀ r a r', Ends m r a r' → ∃ shown traced : String, ∀ s : Reading, s.onConsole = r.onConsole →
      Ends m s a { s with listing := s.listing ++ shown, console := s.console ++ traced }

theorem blind_pure (a : α) : Blind (pure a) := by
  intro r b r' h
  obtain ⟨rfl, -⟩ := ends_pure.mp h
  exact ⟨"", "", fun s _ => ends_pure.mpr ⟨rfl, by simp⟩⟩

theorem blind_liftM (x : Except Fault α) : Blind (liftM x : Disassembly α) := by
  intro r a r' h
  obtain ⟨hx, -⟩ := ends_liftM.mp h
  exact ⟨"", "", fun s _ => ends_liftM.mpr ⟨hx, by simp⟩⟩

theorem blind_writeListing (s : String) : Blind (writeListing s) := by
  intro r a r' _
  cases hr : r.onConsole with
  | false => exact ⟨s, "", fun q hq => ends_modify.mpr (by simp [hq])⟩
  | true => exact ⟨"", s, fun q hq => ends_modify.mpr (by simp [hq])⟩

theorem blind_writeLine (s : String) : Blind (writeLine s) := blind_writeListing _

theorem blind_writeConsole (s : String) : Blind (writeConsole s) := by
  intro r a r' _
  exact ⟨"", s ++ "\n", fun q _ => ends_modify.mpr (by simp [String.append_assoc])⟩

theorem Blind.bind_of_ends {f : α → Disassembly β} (hm : Blind m)
    (hf : ∀ {r a r'}, Ends m r a r' → Blind (f a)) : Blind (m >>= f) := by
  intro r b r'' h
  obtain ⟨a, r', hma, hfa⟩ := ends_bind.mp h
  have hblind := hf hma
  obtain ⟨shown, traced, hall⟩ := hm r a r' hma
  obtain ⟨-, rfl⟩ := hma.unique (hall r rfl)
  obtain ⟨shown', traced', hall'⟩ := hblind _ b r'' hfa
  refine ⟨shown ++ shown', traced ++ traced', fun s hs => ?_⟩
  have hboth := (hall s hs).bind (hall' _ hs)
  simpa only [String.append_assoc] using hboth

theorem Blind.bind {f : α → Disassembly β} (hm : Blind m) (hf : ∀ a, Blind (f a)) :
    Blind (m >>= f) :=
  hm.bind_of_ends fun {_ a _} _ => hf a

theorem blind_ite [Decidable c] {m' : Disassembly α} (hm : Blind m) (hm' : Blind m') :
    Blind (if c then m else m') := by
  split
  · exact hm
  · exact hm'

theorem blind_forM {f : α → Disassembly PUnit} (h : ∀ x, Blind (f x)) (xs : List α) :
    Blind (xs.forM f) := by
  induction xs with
  | nil => exact blind_pure _
  | cons x xs ih => exact (h x).bind fun _ => ih

theorem blind_mapM {g : α → Disassembly β} (h : ∀ x, Blind (g x)) (xs : List α) :
    Blind (xs.mapM g) := by
  induction xs with
  | nil => exact blind_pure _
  | cons x xs ih =>
    rw [mapM_cons]
    exact (h x).bind fun _ => ih.bind fun _ => blind_pure _

theorem blind_forIn {f : α → β → Disassembly (ForInStep β)} (h : ∀ x b, Blind (f x b)) (xs : List α)
    (init : β) : Blind (forIn xs init f) := by
  induction xs generalizing init with
  | nil => exact blind_pure _
  | cons x xs ih =>
    rw [forIn_cons]
    refine (h x init).bind fun step => ?_
    cases step with
    | done b => exact blind_pure b
    | yield b => exact ih b

theorem remarking_blind :
    Remarking fun _ m keeps => Blind m ∧ ∀ {r a r'}, Ends m r a r' → keeps a where
  value h := ⟨blind_pure _, fun hends => (ends_pure.mp hends).1 ▸ h⟩
  lifted h := ⟨blind_liftM _, fun hends => h _ (ends_liftM.mp hends).1⟩
  chain hm hf := by
    refine ⟨hm.1.bind_of_ends fun hends => (hf _ (hm.2 hends)).1, fun hends => ?_⟩
    obtain ⟨a, _, hma, hfa⟩ := ends_bind.mp hends
    exact (hf a (hm.2 hma)).2 hfa
  traced _ _ := ⟨blind_writeConsole _, fun _ => trivial⟩
  noted _ _ := ⟨blind_writeLine _, fun _ => trivial⟩

theorem blind_annotate (o : Options) (order : Enumeration) (lines : List CodeLine) :
    Blind (annotate o order lines) :=
  (@Remarking.annotate _ lines order remarking_blind (fun _ => True) (fun _ _ => trivial)
    (fun _ _ _ => trivial) o).1

theorem blind_writeCode (o : Options) (offset : Nat) (words : List Nat) (lines : List CodeLine) :
    Blind (writeCode o offset words lines) := by
  refine blind_forM (fun p => blind_ite (blind_writeLine _) ?_) _
  have hcode : Blind (if o.hexadecimal then
        writeListing (hexMargin (offset + 4 * p.2) p.1.1) >>= fun _ => writeLine (fullLine p.2 p.1.2)
      else writeLine (fullLine p.2 p.1.2)) :=
    blind_ite ((blind_writeListing _).bind fun _ => blind_writeLine _) (blind_writeLine _)
  cases hc : p.1.2.comment with
  | none => exact hcode
  | some comment => exact (blind_writeLine comment).bind fun _ => hcode

/-! ### Mirrored steps -/

/-- The other reading stands at the same place of its tree, and its listing is a file of its own. -/
structure Beside (r s : Reading) : Prop where
  begun : s.begun = r.begun
  path : s.path = r.path
  file : s.onConsole = false

def withoutDebug (ls : List (List Char)) : List (List Char) :=
  ls.filter fun l => !isDebugLine l

@[simp] theorem withoutDebug_nil : withoutDebug [] = [] := rfl

@[simp] theorem withoutDebug_append (ls ms : List (List Char)) :
    withoutDebug (ls ++ ms) = withoutDebug ls ++ withoutDebug ms :=
  filter_append ..

theorem withoutDebug_of_notes (h : ∀ l ∈ ls, isDebugLine l = false) : withoutDebug ls = ls :=
  filter_eq_self.mpr fun l hl => by rw [h l hl, Bool.not_false]

/-- Beside a reading that goes from `r` to `r'` and writes `ls`, the step finds `b` in front of any
bytes, and writes the same lines without those that show debug records. -/
def Retraces (m' : Disassembly β) (b : β) (bytes : List UInt8) (ls : List (List Char))
    (r r' : Reading) : Prop :=
  ∀ s more, Beside r s → s.rest = bytes ++ more →
    ∃ s', Ends m' s b s' ∧ Beside r' s' ∧ s'.rest = more ∧
      s'.listing.toList = s.listing.toList ++ unlines (withoutDebug ls)

/-- Whenever the first step ends well on a listing of its own, there are bytes, related to its value and
its lines by `post`, from which the second retraces it, if they are within the limit. -/
def Mirrors (limit : Nat) (m : Disassembly α) (m' : Disassembly β)
    (post : α → β → List UInt8 → List (List Char) → Prop) : Prop :=
  ∀ r a r', Ends m r a r' → r.onConsole = false → r'.onConsole = false ∧
    ∃ b bytes ls, post a b bytes ls ∧ r'.listing.toList = r.listing.toList ++ unlines ls ∧
      (bytes.length ≤ limit → Retraces m' b bytes ls r r')

theorem Mirrors.mono {post' : α → β → List UInt8 → List (List Char) → Prop}
    (h : Mirrors limit m m' post) (himp : ∀ a b bytes ls, post a b bytes ls → post' a b bytes ls) :
    Mirrors limit m m' post' := by
  intro r a r' hm hr
  obtain ⟨hr', b, bytes, ls, hpost, hrest⟩ := h r a r' hm hr
  exact ⟨hr', b, bytes, ls, himp a b bytes ls hpost, hrest⟩

theorem Mirrors.of_pos {m'' : Disassembly β} (h : Mirrors limit m m' post)
    (hpos : ∀ a b bytes ls, post a b bytes ls → 0 < bytes.length) : Mirrors 0 m m'' post := by
  intro r a r' hends hr
  obtain ⟨hr', b, bytes, ls, hpost, hls, -⟩ := h r a r' hends hr
  refine ⟨hr', b, bytes, ls, hpost, hls, fun hle => ?_⟩
  exact absurd (hpos a b bytes ls hpost) (by omega)

theorem mirrors_pure {a : α} (h : post a b [] []) : Mirrors limit (pure a) (pure b) post := by
  intro r c r' hm hr
  obtain ⟨rfl, rfl⟩ := ends_pure.mp hm
  refine ⟨hr, b, [], [], h, by simp, fun _ s more hs hrest => ?_⟩
  exact ⟨s, ends_pure.mpr ⟨rfl, rfl⟩, hs, hrest, by simp⟩

theorem Retraces.bind {d : δ} {bytes bytes' : List UInt8} {ms : List (List Char)}
    {r r' r'' : Reading} (hm : Retraces m' b bytes ls r r')
    (hf : Retraces (f' b) d bytes' ms r' r'') :
    Retraces (m' >>= f') d (bytes ++ bytes') (ls ++ ms) r r'' := by
  intro s more hs hrest
  obtain ⟨s', hends, hs', hrest', hls⟩ := hm s (bytes' ++ more) hs (by rw [hrest, append_assoc])
  obtain ⟨s'', hends', hs'', hrest'', hms⟩ := hf s' more hs' hrest'
  refine ⟨s'', hends.bind hends', hs'', hrest'', ?_⟩
  rw [hms, hls, withoutDebug_append, unlines_append, append_assoc]

/-- **Two steps in a row**, the first of which takes some bytes of the limit. -/
theorem mirrors_bind_of_le {taken : Nat} {f : α → Disassembly γ}
    (hm : Mirrors (limit + taken) m m' post)
    (htaken : ∀ a b bytes ls, post a b bytes ls → taken ≤ bytes.length)
    (hf : ∀ a b bytes ls, post a b bytes ls → Mirrors limit (f a) (f' b) fun c d bytes' ms =>
      post' c d (bytes ++ bytes') (ls ++ ms)) :
    Mirrors (limit + taken) (m >>= f) (m' >>= f') post' := by
  intro r c r'' h hr
  obtain ⟨a, r', hma, hfa⟩ := ends_bind.mp h
  obtain ⟨hr', b, bytes, ls, hpost, hls, hretraces⟩ := hm r a r' hma hr
  obtain ⟨hr'', d, bytes', ms, hpost', hms, hretraces'⟩ := hf a b bytes ls hpost r' c r'' hfa hr'
  refine ⟨hr'', d, bytes ++ bytes', ls ++ ms, hpost', ?_, fun hlimit => ?_⟩
  · rw [hms, hls, unlines_append, append_assoc]
  · have hle := htaken a b bytes ls hpost
    rw [length_append] at hlimit
    exact (hretraces (by omega)).bind (hretraces' (by omega))

theorem mirrors_bind {f : α → Disassembly γ} (hm : Mirrors limit m m' post)
    (hf : ∀ a b bytes ls, post a b bytes ls → Mirrors limit (f a) (f' b) fun c d bytes' ms =>
      post' c d (bytes ++ bytes') (ls ++ ms)) : Mirrors limit (m >>= f) (m' >>= f') post' :=
  @mirrors_bind_of_le _ _ _ _ _ limit _ _ _ _ 0 _ hm (fun _ _ _ _ _ => Nat.zero_le _) hf

/-- **A step that does not look at the state** mirrors itself, if it shows no debug records. -/
theorem mirrors_blind {post : α → List (List Char) → Prop} (hblind : Blind m) (hm : Writes m post)
    (hnotes : ∀ a ls, post a ls → ∀ l ∈ ls, isDebugLine l = false) :
    Mirrors limit m m fun a b bytes ls => post a ls ∧ b = a ∧ bytes = [] := by
  intro r a r' hends hr
  obtain ⟨shown, traced, hall⟩ := hblind r a r' hends
  obtain ⟨hr', ls, hls, hpost⟩ := hm r a r' hends hr
  obtain ⟨-, rfl⟩ := hends.unique (hall r rfl)
  refine ⟨hr', a, [], ls, ⟨hpost, rfl, rfl⟩, hls, fun _ s more hs hrest => ?_⟩
  refine ⟨_, hall s (hs.file.trans hr.symm), ⟨hs.begun, hs.path, hs.file⟩, hrest, ?_⟩
  have hshown : shown.toList = unlines ls := by simpa using hls
  rw [withoutDebug_of_notes (hnotes a ls hpost), ← hshown, String.toList_append]

def Stays (m : Disassembly α) : Prop :=
  ∀ r a r', Ends m r a r' → r'.begun = r.begun ∧ r'.path = r.path

theorem OnlyReads.stays {post : α → Prop} (h : OnlyReads m post) : Stays m := by
  intro r a r' hm
  obtain ⟨-, rest, offset, rfl⟩ := h r a r' hm
  exact ⟨rfl, rfl⟩

theorem Blind.stays (h : Blind m) : Stays m := by
  intro r a r' hm
  obtain ⟨shown, traced, hall⟩ := h r a r' hm
  obtain ⟨-, rfl⟩ := hm.unique (hall r rfl)
  exact ⟨rfl, rfl⟩

theorem stays_pure (a : α) : Stays (pure a) := (blind_pure a).stays

theorem stays_writeLine (s : String) : Stays (writeLine s) := (blind_writeLine s).stays

theorem Stays.bind {f : α → Disassembly β} (hm : Stays m) (hf : ∀ a, Stays (f a)) :
    Stays (m >>= f) := by
  intro r b r'' h
  obtain ⟨a, r', hma, hfa⟩ := ends_bind.mp h
  obtain ⟨hbegun, hpath⟩ := hm r a r' hma
  obtain ⟨hbegun', hpath'⟩ := hf a r' b r'' hfa
  exact ⟨hbegun'.trans hbegun, hpath'.trans hpath⟩

theorem stays_when [Decidable c] {m : Disassembly Unit} (hm : Stays m) (hf : Stays (f ())) :
    Stays (if c then m >>= f else f ()) := by
  split
  · exact hm.bind fun _ => hf
  · exact hf

/-- **A step that shows nothing but debug records**, and a reader that finds some bytes in its place. -/
theorem mirrors_of_reads {post : α → List (List Char) → Prop} (hm : Writes m post)
    (hstays : Stays m) (hdebug : ∀ a ls, post a ls → ∀ l ∈ ls, isDebugLine l = true)
    (hm' : ∀ a ls, post a ls → ∃ count, Reads m' (encoded a) count (view a)) :
    Mirrors limit m m' fun a b bytes ls => post a ls ∧ b = view a ∧ bytes = encoded a := by
  intro r a r' hends hr
  obtain ⟨hr', ls, hls, hpost⟩ := hm r a r' hends hr
  obtain ⟨hbegun, hpath⟩ := hstays r a r' hends
  obtain ⟨count, hreads⟩ := hm' a ls hpost
  refine ⟨hr', view a, encoded a, ls, ⟨hpost, rfl, rfl⟩, hls, fun _ s more hs hrest => ?_⟩
  refine ⟨_, hreads s more hrest, ?_, rfl, ?_⟩
  · exact ⟨hs.begun.trans hbegun.symm, hs.path.trans hpath.symm, hs.file⟩
  · have hnone : withoutDebug ls = [] :=
      filter_eq_nil_iff.mpr fun l hl => by simp [hdebug a ls hpost l hl]
    rw [hnone, unlines_nil, append_nil]

theorem mirrors_read {post : α → Prop} (hm : OnlyReads m post)
    (hm' : ∀ a, post a → ∃ count, Reads m' (encoded a) count (view a)) :
    Mirrors limit m m' fun a b bytes ls => post a ∧ b = view a ∧ bytes = encoded a ∧ ls = [] := by
  refine (mirrors_of_reads hm.silent hm.stays (by simp +contextual) fun a ls h => hm' a h.2).mono ?_
  rintro a b bytes ls ⟨⟨hls, hpost⟩, hb, hbytes⟩
  exact ⟨hpost, hb, hbytes, hls⟩

theorem mirrors_modify {f : Reading → Reading} (hrest : ∀ r, (f r).rest = r.rest)
    (hlisting : ∀ r, (f r).listing = r.listing) (hconsole : ∀ r, (f r).onConsole = r.onConsole)
    (hbegun : ∀ r s, Beside r s → (f s).begun = (f r).begun)
    (hpath : ∀ r s, Beside r s → (f s).path = (f r).path) :
    Mirrors limit (modify f : Disassembly Unit) (modify f : Disassembly Unit)
      fun _ _ bytes ls => bytes = [] ∧ ls = [] := by
  intro r a r' hends hr
  obtain rfl := ends_modify.mp hends
  refine ⟨by rw [hconsole, hr], (), [], [], ⟨rfl, rfl⟩, by simp [hlisting], fun _ s more hs hs' => ?_⟩
  refine ⟨f s, ends_modify.mpr rfl, ⟨hbegun r s hs, hpath r s hs, ?_⟩, ?_, by simp [hlisting]⟩
  · rw [hconsole, hs.file]
  · rw [hrest, hs', nil_append]

/-- **A step taken several times**, if the second reading sees each value in one way and finds it in
bytes of its own. -/
theorem mirrors_repeated {post : α → List (List Char) → Prop}
    (h : Mirrors limit m m' fun a b bytes ls => b = view a ∧ bytes = encoded a ∧ post a ls)
    (n : Nat) :
    Mirrors limit (repeated m n) (repeated m' n) fun as bs bytes ls =>
      as.length = n ∧ bs = as.map view ∧ bytes = as.flatMap encoded ∧
        ∃ lss, List.Forall₂ post as lss ∧ ls = lss.flatten := by
  induction n with
  | zero => exact mirrors_pure ⟨rfl, rfl, rfl, [], .nil, rfl⟩
  | succ n ih =>
    refine mirrors_bind h ?_
    rintro a _ _ ls ⟨rfl, rfl, hls⟩
    refine mirrors_bind ih ?_
    rintro as _ _ _ ⟨rfl, rfl, rfl, lss, hlss, rfl⟩
    exact mirrors_pure ⟨rfl, rfl, by simp, ls :: lss, .cons hls hlss, by simp⟩

end ApkWorkshop.Listing
