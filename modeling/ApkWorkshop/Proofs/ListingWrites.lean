import ApkWorkshop.Proofs.AssemblyLines

/-!
# What a Disassembly Writes

A disassembly writes its listing while it reads. `Writes m post` says of a step `m` that works on a
listing: if it ends well with a value, it has added whole lines to the listing, and `post` holds of the
value and those lines. The rules follow the way steps are put together, so that the listing of a
function is found from those of its parts.
-/

namespace ApkWorkshop.Listing

open Bytecode List
open Text

variable {α β : Type}

variable {m record : Disassembly α} {post : α → List (List Char) → Prop} {a : α}
  {f : α → Disassembly β} {post' : β → List (List Char) → Prop} {fault : Fault} {s : String}
  {xs : List α} {ls : List (List Char)}

/-! ### The rules -/

/-- If the step ends well while the listing is a file of its own, it adds lines for which `post` holds
together with the value. -/
def Writes (m : Disassembly α) (post : α → List (List Char) → Prop) : Prop :=
  ∀ r a r', Ends m r a r' → r.onConsole = false →
    r'.onConsole = false ∧ ∃ ls, r'.listing.toList = r.listing.toList ++ unlines ls ∧ post a ls

abbrev Silent (m : Disassembly α) (post : α → Prop) : Prop :=
  Writes m fun a ls => ls = [] ∧ post a

theorem Writes.mono {post' : α → List (List Char) → Prop} (h : Writes m post)
    (himp : ∀ a ls, post a ls → post' a ls) : Writes m post' := by
  intro r a r' hm hr
  obtain ⟨hr', ls, hls, hpost⟩ := h r a r' hm hr
  exact ⟨hr', ls, hls, himp a ls hpost⟩

theorem writes_pure (h : post a []) : Writes (pure a) post := by
  intro r b r' hm hr
  obtain ⟨rfl, rfl⟩ := ends_pure.mp hm
  exact ⟨hr, [], by simp, h⟩

theorem writes_throw : Writes (throw fault) post :=
  fun _ _ _ hm _ => absurd hm not_ends_throw

/-- **Two steps in a row** write the lines of the first and then those of the second. -/
theorem writes_bind (hm : Writes m post)
    (hf : ∀ a ls, post a ls → Writes (f a) fun b ms => post' b (ls ++ ms)) :
    Writes (m >>= f) post' := by
  intro r b r'' h hr
  obtain ⟨a, r', hma, hfa⟩ := ends_bind.mp h
  obtain ⟨hr', ls, hls, hpost⟩ := hm r a r' hma hr
  obtain ⟨hr'', ms, hms, hpost'⟩ := hf a ls hpost r' b r'' hfa hr'
  exact ⟨hr'', ls ++ ms, by rw [hms, hls, unlines_append, append_assoc], hpost'⟩

theorem Silent.bind {post : α → Prop} (hm : Silent m post) (hf : ∀ a, post a → Writes (f a) post') :
    Writes (m >>= f) post' :=
  writes_bind hm fun a ls ⟨hls, ha⟩ => by
    subst hls
    exact hf a ha

theorem silent_pure {post : α → Prop} (h : post a) : Silent (pure a) post :=
  writes_pure ⟨rfl, h⟩

theorem silent_liftM {x : Except Fault α} {post : α → Prop} (h : ∀ a, x = .ok a → post a) :
    Silent (liftM x : Disassembly α) post := by
  intro r a r' hm hr
  obtain ⟨hx, rfl⟩ := ends_liftM.mp hm
  exact ⟨hr, [], by simp, rfl, h a hx⟩

theorem silent_get : Silent (get : Disassembly Reading) fun _ => True := by
  intro r a r' hm hr
  obtain ⟨rfl, rfl⟩ := ends_get.mp hm
  exact ⟨hr, [], by simp, rfl, trivial⟩

theorem silent_modify {f : Reading → Reading} (hlisting : ∀ r, (f r).listing = r.listing)
    (hconsole : ∀ r, (f r).onConsole = r.onConsole) :
    Silent (modify f : Disassembly Unit) fun _ => True := by
  intro r a r' hm hr
  obtain rfl := ends_modify.mp hm
  exact ⟨by rw [hconsole, hr], [], by simp [hlisting], rfl, trivial⟩

theorem writes_writeListing (h : s.toList = unlines ls) {post : Unit → List (List Char) → Prop}
    (hpost : post () ls) : Writes (writeListing s) post := by
  intro r a r' hm hr
  obtain rfl := ends_modify.mp hm
  rw [hr]
  exact ⟨rfl, ls, by simp [h], hpost⟩

theorem writes_writeLine {post : Unit → List (List Char) → Prop} (hpost : post () [s.toList]) :
    Writes (writeLine s) post :=
  writes_writeListing (by simp [unlines]) hpost

theorem writes_writeListing_writeLine {t : String} {post : Unit → List (List Char) → Prop}
    (hpost : post () [s.toList ++ t.toList]) :
    Writes (writeListing s >>= fun _ => writeLine t) post := by
  intro r a r'' hm hr
  obtain ⟨_, r', hs, ht⟩ := ends_bind.mp hm
  obtain rfl := ends_modify.mp hs
  obtain rfl := ends_modify.mp ht
  simp only [hr, Bool.false_eq_true, if_false]
  exact ⟨trivial, [s.toList ++ t.toList], by simp [unlines], hpost⟩

theorem writes_writeListing_bind {f : Unit → Disassembly β} {post : β → List (List Char) → Prop}
    (hs : s.toList = unlines ls) (h : Writes (f ()) fun b ms => post b (ls ++ ms)) :
    Writes (writeListing s >>= f) post :=
  writes_bind (@writes_writeListing s ls hs (fun _ ms => ms = ls) rfl) fun _ ms hms => by
    subst hms
    exact h

theorem writes_writeLine_bind {f : Unit → Disassembly β} {post : β → List (List Char) → Prop}
    (h : Writes (f ()) fun b ms => post b (s.toList :: ms)) : Writes (writeLine s >>= f) post :=
  @writes_writeListing_bind _ (s ++ "\n") [s.toList] f post (by simp [unlines]) h

theorem silent_writeConsole (s : String) : Silent (writeConsole s) fun _ => True :=
  silent_modify (fun _ => rfl) fun _ => rfl

theorem writes_forM {f : α → Disassembly PUnit} (h : ∀ x ∈ xs, Writes (f x) fun _ ls => post x ls) :
    Writes (xs.forM f) fun _ ls => ∃ lss, List.Forall₂ post xs lss ∧ ls = lss.flatten := by
  induction xs with
  | nil => exact writes_pure ⟨[], .nil, rfl⟩
  | cons x xs ih =>
    refine writes_bind (h x (by simp)) fun _ ls hls => ?_
    refine (ih fun y hy => h y (by simp [hy])).mono fun _ ms hms => ?_
    obtain ⟨lss, hlss, rfl⟩ := hms
    exact ⟨ls :: lss, .cons hls hlss, rfl⟩

theorem silent_mapM {g : α → Except Fault β} (xs : List α) :
    Silent (xs.mapM fun x => (liftM (g x) : Disassembly β)) fun ys =>
      List.Forall₂ (fun x y => g x = .ok y) xs ys := by
  induction xs with
  | nil => exact silent_pure .nil
  | cons x xs ih =>
    rw [mapM_cons]
    exact (silent_liftM fun _ hy => hy).bind fun y hy => ih.bind fun ys hys =>
      silent_pure (.cons hy hys)

theorem writes_forIn_lines {f : α → PUnit → Disassembly (ForInStep PUnit)} {line : α → List Char}
    (h : ∀ x, Writes (f x ⟨⟩) fun step ls => step = .yield ⟨⟩ ∧ ls = [line x]) :
    Writes (forIn xs ⟨⟩ f) fun _ ls => ls = xs.map line := by
  induction xs with
  | nil => exact writes_pure rfl
  | cons x xs ih =>
    rw [forIn_cons]
    refine writes_bind (h x) fun step ls ⟨hstep, hls⟩ => ?_
    subst hstep hls
    exact ih.mono fun _ ms hms => by simp [hms]

/-- **A step taken several times** gives as many values, and writes their lines one after the
other. -/
theorem writes_repeated {step : Disassembly α} (h : Writes step post) (n : Nat) :
    Writes (repeated step n) fun xs ls =>
      xs.length = n ∧ ∃ lss, List.Forall₂ post xs lss ∧ ls = lss.flatten := by
  induction n with
  | zero => exact writes_pure ⟨rfl, [], .nil, rfl⟩
  | succ n ih =>
    refine writes_bind h fun x ls hx => writes_bind ih fun xs ms hms => writes_pure ?_
    obtain ⟨hlen, lss, hlss, rfl⟩ := hms
    exact ⟨by simp [hlen], ls :: lss, .cons hx hlss, by simp⟩

/-! ### The readers -/

/-- The step only reads: if it ends well, nothing but the bytes that are left and the offset has changed,
and `post` holds of its value. -/
def OnlyReads (m : Disassembly α) (post : α → Prop) : Prop :=
  ∀ r a r', Ends m r a r' → post a ∧ ∃ rest offset, r' = { r with rest, offset }

theorem OnlyReads.silent {post : α → Prop} (h : OnlyReads m post) : Silent m post := by
  intro r a r' hm hr
  obtain ⟨hpost, rest, offset, rfl⟩ := h r a r' hm
  exact ⟨hr, [], by simp, rfl, hpost⟩

theorem OnlyReads.and {post post' : α → Prop} (h : OnlyReads m post)
    (h' : ∀ r a r', Ends m r a r' → post' a) : OnlyReads m fun a => post a ∧ post' a :=
  fun r a r' hm => ⟨⟨(h r a r' hm).1, h' r a r' hm⟩, (h r a r' hm).2⟩

theorem onlyReads_pure {post : α → Prop} (h : post a) : OnlyReads (pure a) post := by
  intro r b r' hm
  obtain ⟨rfl, rfl⟩ := ends_pure.mp hm
  exact ⟨h, r.rest, r.offset, rfl⟩

theorem onlyReads_throw {post : α → Prop} : OnlyReads (throw fault) post :=
  fun _ _ _ hm => absurd hm not_ends_throw

theorem OnlyReads.bind {post : α → Prop} {post' : β → Prop} (hm : OnlyReads m post)
    (hf : ∀ a, post a → OnlyReads (f a) post') : OnlyReads (m >>= f) post' := by
  intro r b r'' h
  obtain ⟨a, r', hma, hfa⟩ := ends_bind.mp h
  obtain ⟨ha, rest, offset, rfl⟩ := hm r a r' hma
  obtain ⟨hb, rest', offset', rfl⟩ := hf a ha _ b r'' hfa
  exact ⟨hb, rest', offset', rfl⟩

theorem onlyReads_takeBytes (n : Nat) : OnlyReads (takeBytes n) fun _ => True := by
  intro r a r' hm
  obtain ⟨_, _, hget, hrest⟩ := ends_bind.mp hm
  obtain ⟨rfl, rfl⟩ := ends_get.mp hget
  obtain ⟨_, _, hset, hpure⟩ := ends_bind.mp hrest
  obtain rfl := ends_set.mp hset
  obtain ⟨rfl, rfl⟩ := ends_pure.mp hpure
  exact ⟨trivial, _, _, rfl⟩

theorem onlyReads_countBytes (n : Nat) : OnlyReads (countBytes n) fun _ => True := by
  intro r a r' hm
  obtain rfl := ends_modify.mp hm
  exact ⟨trivial, _, _, rfl⟩

theorem onlyReads_takeExactly (n : Nat) :
    OnlyReads (takeExactly n) fun bytes => bytes.length = n := by
  refine (onlyReads_takeBytes n).bind fun bytes _ => ?_
  split
  · rename_i hlen
    exact onlyReads_pure hlen
  · exact onlyReads_throw

theorem littleEndian_lt (bytes : List UInt8) : littleEndian bytes < 256 ^ bytes.length := by
  induction bytes with
  | nil => decide
  | cons b bytes ih =>
    have hb : b.toNat < 256 := b.toNat_lt
    change b.toNat + 256 * littleEndian bytes < _
    rw [length_cons]
    omega

theorem onlyReads_readWord : OnlyReads readWord fun n => n < 0x100000000 := by
  refine (onlyReads_countBytes 4).bind fun _ _ => (onlyReads_takeExactly 4).bind fun bytes hlen => ?_
  refine onlyReads_pure ?_
  have := littleEndian_lt bytes
  rwa [hlen] at this

theorem onlyReads_readText : OnlyReads readText fun _ => True := by
  refine onlyReads_readWord.bind fun length _ => ?_
  split
  · exact onlyReads_pure trivial
  refine (onlyReads_countBytes length).bind fun _ _ =>
    (onlyReads_takeBytes length).bind fun bytes _ => ?_
  cases bytes.getLast? with
  | none => exact onlyReads_throw
  | some last =>
    by_cases hlast : last ≠ 0
    · simp only [if_pos hlast]
      exact onlyReads_throw
    · simp only [if_neg hlast]
      split
      · exact onlyReads_pure trivial
      · exact onlyReads_throw

theorem onlyReads_readByte : OnlyReads readByte fun _ => True := by
  refine (onlyReads_countBytes 1).bind fun _ _ => (onlyReads_takeBytes 1).bind fun bytes _ => ?_
  split
  · exact onlyReads_pure trivial
  · exact onlyReads_throw

theorem onlyReads_readConstant : OnlyReads readConstant fun _ => True := by
  refine onlyReads_readByte.bind fun tag _ => ?_
  split
  · exact onlyReads_pure trivial
  · refine onlyReads_readByte.bind fun b _ => ?_
    split
    · exact onlyReads_pure trivial
    · exact onlyReads_pure trivial
    · exact onlyReads_throw
  · exact (onlyReads_countBytes 8).bind fun _ _ => (onlyReads_takeExactly 8).bind fun _ _ =>
      onlyReads_pure trivial
  · refine onlyReads_readText.bind fun s _ => ?_
    split
    · exact onlyReads_pure trivial
    · exact onlyReads_pure trivial
  · exact onlyReads_throw

theorem onlyReads_repeated {post : α → Prop} (h : OnlyReads record post) (n : Nat) :
    OnlyReads (repeated record n) fun xs => xs.length = n ∧ ∀ x ∈ xs, post x := by
  induction n with
  | zero => exact onlyReads_pure ⟨rfl, by simp⟩
  | succ n ih =>
    refine h.bind fun x hx => ih.bind fun xs ⟨hlen, hxs⟩ => onlyReads_pure ?_
    exact ⟨by simp [hlen], forall_mem_cons.mpr ⟨hx, hxs⟩⟩

theorem onlyReads_readList {post : α → Prop} (h : OnlyReads record post) :
    OnlyReads (readList record) fun xs => xs.length < 0x100000000 ∧ ∀ x ∈ xs, post x := by
  refine onlyReads_readWord.bind fun n hn => ?_
  intro r xs r' hm
  obtain ⟨⟨rfl, hxs⟩, hframe⟩ := onlyReads_repeated h n r xs r' hm
  exact ⟨⟨hn, hxs⟩, hframe⟩

theorem onlyReads_readCode : OnlyReads readCode fun code => code.length < 0x100000000 ∧
    (∀ w ∈ code, w < 0x100000000) ∧ code.getLast? = some plainReturn := by
  refine (onlyReads_readList onlyReads_readWord).bind fun code hcode => ?_
  split
  · exact onlyReads_throw
  · rename_i last hlast
    split
    · rename_i hreturn
      exact onlyReads_pure ⟨hcode.1, hcode.2, by rw [hlast, hreturn]⟩
    · exact onlyReads_throw

theorem onlyReads_readParameters : OnlyReads readParameters InRecords := by
  refine (onlyReads_countBytes 12).bind fun _ _ => (onlyReads_takeExactly 12).bind fun bytes hlen =>
    onlyReads_pure ?_
  have hle : ∀ (bs : List UInt8) (count : Nat), bs.length ≤ count →
      littleEndian bs < 256 ^ count := fun bs count hbs =>
    (littleEndian_lt bs).trans_le (Nat.pow_le_pow_right (by decide) hbs)
  refine ⟨hle _ 4 (length_take_le _ _), hle _ 4 (length_take_le _ _),
    hle _ 1 (length_take_le _ _), hle _ 1 (length_take_le _ _),
    hle _ 1 (length_take_le _ _), hle _ 1 (length_take_le _ _)⟩

/-! ### Inner functions -/

end ApkWorkshop.Listing
