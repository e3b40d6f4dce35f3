import ApkWorkshop.Proofs.PrintedItems
import ApkWorkshop.Proofs.StrippedFunction

/-!
# Chunks Are Printed as They Are Read

What a function has to show is a list of items, in the order in which it is read and with those of its inner
functions among them (`functionItems`). Reading a function prints these items and finds its encoding in the
file:

* `YieldsAt` — a step, taken behind `k` bytes of the file, prints items and finds an encoding;
* `finds_readText`, `finds_readConstant`, `yields_readDebug` — the records;
* `yieldsAt_readCode` — the words of the code stand behind their number, four bytes each;
* `yields_readFunction` — **functions**, by induction on the depth to which they are nested;
* `exists_prints_of_disassemble` — and whole chunks, behind the header.
-/

namespace ApkWorkshop.Listing

open Bytecode List
open Text

variable {bytes : List UInt8} {o : Options} {k : Nat} {α β : Type}

/-! ### Items and encodings -/

/-- Behind `k` bytes of the file, the step prints items that hold of it, however it ends; if it ends well,
`post` holds of its value, the items and an encoding that was found. -/
def YieldsAt (bytes : List UInt8) (o : Options) (k : Nat) (m : Disassembly α)
    (post : α → List Item → Encoding → Prop) : Prop :=
  PrintsAt bytes o k m fun a es k' =>
    ∃ exact, Found exact (bytes.drop k) (bytes.drop k') ∧ post a (shownItems es) exact

def Yields (bytes : List UInt8) (o : Options) (m : Disassembly α)
    (post : α → List Item → Encoding → Prop) : Prop :=
  ∀ k, YieldsAt bytes o k m post

/-- The items and the encoding are those of the value, of which `good` holds. -/
abbrev Finds (bytes : List UInt8) (o : Options) (m : Disassembly α) (itemsOf : α → List Item)
    (enc : α → List UInt8) (good : α → Prop) : Prop :=
  Yields bytes o m fun a items exact => items = itemsOf a ∧ exact.bytes = enc a ∧ good a

variable {post : α → List Item → Encoding → Prop} {post' : β → List Item → Encoding → Prop}

section

variable {m : Disassembly α} {f : α → Disassembly β} {items : List Item} {keeps good : α → Prop}
  {enc : α → List UInt8}

theorem YieldsAt.mono {post₁ : α → List Item → Encoding → Prop} (h : YieldsAt bytes o k m post)
    (himp : ∀ a items exact, post a items exact → post₁ a items exact) :
    YieldsAt bytes o k m post₁ :=
  PrintsAt.mono h fun a _ _ ⟨exact, hfound, hpost⟩ => ⟨exact, hfound, himp a _ exact hpost⟩

theorem yieldsAt_pure {a : α} (h : post a [] { bytes := [] }) : YieldsAt bytes o k (pure a) post :=
  printsAt_pure ⟨{ bytes := [] }, Or.inl rfl, h⟩

/-- **Two steps in a row** print the items and find the encodings of both, one behind the other. -/
theorem yieldsAt_bind (hm : YieldsAt bytes o k m post) (hf : ∀ a items exact, post a items exact →
      Yields bytes o (f a) fun b items' exact' => post' b (items ++ items') (exact ++ exact')) :
    YieldsAt bytes o k (m >>= f) post' := by
  refine printsAt_bind hm fun a es k' h => ?_
  obtain ⟨exact, hfound, hpost⟩ := h
  refine PrintsAt.mono (hf a _ exact hpost k') fun b es' k'' h' => ?_
  obtain ⟨exact', hfound', hpost'⟩ := h'
  exact ⟨exact ++ exact', hfound.append hfound', by rwa [shownItems_append]⟩

theorem yields_bind (hm : Yields bytes o m post) (hf : ∀ a items exact, post a items exact →
      Yields bytes o (f a) fun b items' exact' => post' b (items ++ items') (exact ++ exact')) :
    Yields bytes o (m >>= f) post' :=
  fun k => yieldsAt_bind (hm k) hf

theorem Lists.yieldsAt_bind (hm : Lists bytes o m items keeps) (hf : ∀ a, keeps a →
      YieldsAt bytes o k (f a) fun b items' exact => post' b (items ++ items') exact) :
    YieldsAt bytes o k (m >>= f) post' := by
  refine printsAt_bind (hm k) fun a es k' h => ?_
  obtain ⟨rfl, hitems, ha⟩ := h
  refine PrintsAt.mono (hf a ha) fun b es' k'' h' => ?_
  obtain ⟨exact, hfound, hpost⟩ := h'
  exact ⟨exact, hfound, by rwa [shownItems_append, hitems]⟩

theorem Lists.yields_bind (hm : Lists bytes o m items keeps) (hf : ∀ a, keeps a →
      Yields bytes o (f a) fun b items' exact => post' b (items ++ items') exact) :
    Yields bytes o (m >>= f) post' :=
  fun k => hm.yieldsAt_bind fun a ha => hf a ha k

theorem yieldsAt_get_bind {f : Reading → Disassembly β}
    (h : ∀ r, r.offset = k → YieldsAt bytes o k (f r) post') :
    YieldsAt bytes o k (get >>= f) post' := by
  intro r hr hk
  exact h r hk r hr hk

theorem finds_repeated {step : Disassembly α} {itemsOf : α → List Item}
    (h : Finds bytes o step itemsOf enc good) (n : Nat) :
    Yields bytes o (repeated step n) fun xs items exact =>
      xs.length = n ∧ items = xs.flatMap itemsOf ∧ exact.bytes = xs.flatMap enc ∧
        ∀ x ∈ xs, good x := by
  induction n with
  | zero => exact fun _ => yieldsAt_pure ⟨rfl, rfl, rfl, by simp⟩
  | succ n ih =>
    refine yields_bind h fun x items exact hx => yields_bind ih fun xs items' exact' hxs => ?_
    obtain ⟨rfl, hexact, hgood⟩ := hx
    obtain ⟨rfl, rfl, hexact', hgood'⟩ := hxs
    refine fun _ => yieldsAt_pure ⟨rfl, by simp, by simp [hexact, hexact'], ?_⟩
    exact forall_mem_cons.mpr ⟨hgood, hgood'⟩

/-! ### Words -/

theorem printsAt_readWord : PrintsAt bytes o k readWord fun n es k' =>
    shownItems es = [] ∧ n < 0x100000000 ∧ k' = k + 4 ∧
      bytes.drop k = encodeWord n ++ bytes.drop k' := by
  simp only [readWord, takeExactly, bind_assoc]
  refine printsAt_counted ?_
  split
  · rename_i hlength
    refine printsAt_pure ⟨rfl, littleEndian_lt_word hlength, rfl, ?_⟩
    rw [encodeWord_littleEndian hlength, ← drop_drop, take_append_drop]
  · exact printsAt_throw

theorem yields_readWord : Yields bytes o readWord fun n items exact =>
    items = [] ∧ exact = ⟨encodeWord n, none⟩ ∧ n < 0x100000000 :=
  fun _ => printsAt_readWord.mono fun n _ _ ⟨hitems, hn, _, hstands⟩ =>
    ⟨⟨encodeWord n, none⟩, Or.inl hstands, hitems, rfl, hn⟩

theorem finds_readWord :
    Finds bytes o readWord (fun _ => []) encodeWord (· < 0x100000000) :=
  fun k => (yields_readWord k).mono fun _ _ _ ⟨hitems, hexact, hn⟩ => ⟨hitems, by rw [hexact], hn⟩

theorem finds_readList {record : Disassembly α} (h : Finds bytes o record (fun _ => []) enc good) :
    Finds bytes o (readList record) (fun _ => []) (encodeList enc) fun xs =>
      xs.length < 0x100000000 ∧ ∀ x ∈ xs, good x := by
  refine yields_bind finds_readWord fun n items exact hn => ?_
  obtain ⟨rfl, hexact, hn⟩ := hn
  refine fun k => (finds_repeated h n k).mono fun xs items exact' hxs => ?_
  obtain ⟨rfl, rfl, hexact', hgood⟩ := hxs
  exact ⟨by simp, by rw [bytes_append, hexact, hexact', encodeList], hn, hgood⟩

theorem YieldsAt.and (h : YieldsAt bytes o k m post) (hreads : OnlyReads m good) :
    YieldsAt bytes o k m fun a items exact => post a items exact ∧ good a := by
  intro r hr hk
  obtain ⟨es, hout, hpost⟩ := h r hr hk
  refine ⟨es, hout, fun a ha => ?_⟩
  obtain ⟨exact, hfound, hpost⟩ := hpost a ha
  exact ⟨exact, hfound, hpost, (hreads r a _ (ends_of_run ha)).1⟩

end

theorem yieldsAt_takeExactly {n : Nat} {f : List UInt8 → α}
    (h : ∀ taken : List UInt8, taken.length = n → post (f taken) [] { bytes := taken }) :
    YieldsAt bytes o k (countBytes n >>= fun _ => takeExactly n >>= fun taken => pure (f taken))
      post := by
  simp only [takeExactly, bind_assoc]
  refine printsAt_counted ?_
  split
  · rename_i hlength
    refine printsAt_pure ⟨_, Or.inl ?_, h _ hlength⟩
    rw [← drop_drop, take_append_drop]
  · exact printsAt_throw

theorem finds_readParameters :
    Finds bytes o readParameters (fun _ => []) encodeParameters InRecords := by
  intro k
  have hyields : YieldsAt bytes o k readParameters fun p items exact =>
      items = [] ∧ exact.bytes = encodeParameters p := by
    refine yieldsAt_takeExactly fun taken htaken => ⟨rfl, ?_⟩
    match taken, htaken with
    | [a, b, c, d, e, f, g, h, i, j, l, m], _ =>
      change _ = encodeWord (littleEndian [a, b, c, d]) ++ encodeWord (littleEndian [e, f, g, h]) ++
        [(littleEndian [i]).toUInt8, (littleEndian [j]).toUInt8, (littleEndian [l]).toUInt8,
          (littleEndian [m]).toUInt8]
      rw [encodeWord_littleEndian rfl, encodeWord_littleEndian rfl]
      simp [littleEndian]
  exact (hyields.and onlyReads_readParameters).mono fun p items exact h => ⟨h.1.1, h.1.2, h.2⟩

theorem finds_readByte : Finds bytes o readByte (fun _ => []) (fun b => [b]) fun _ => True := by
  intro k
  refine printsAt_counted ?_
  split
  · rename_i b more hbyte
    refine printsAt_pure ⟨⟨[b], none⟩, Or.inl ?_, rfl, rfl, trivial⟩
    have hmore : more = [] := by
      have hlength := congrArg List.length hbyte
      rw [length_take, length_cons] at hlength
      exact length_eq_zero_iff.mp (by omega)
    rw [← hmore, ← hbyte, ← drop_drop, take_append_drop]
  · exact printsAt_throw

/-! ### Texts and constants -/

theorem yields_readText : Yields bytes o readText fun text items exact =>
    items = [] ∧ exact = ⟨encodeText text, text⟩ ∧ ∀ s ∈ text, FitsRecord s := by
  intro k
  refine printsAt_bind printsAt_readWord fun n es k₁ h => ?_
  obtain ⟨hitems, hn, rfl, hstands⟩ := h
  split
  · rename_i hzero
    rw [hzero] at hstands
    refine printsAt_pure ⟨⟨encodeText none, none⟩, Or.inl hstands, ?_, rfl, by simp⟩
    rw [append_nil, hitems]
  · refine printsAt_counted ?_
    dsimp only
    split
    · exact printsAt_throw
    · rename_i last hlast
      split
      · exact printsAt_throw
      · rename_i hzero
        split
        · rename_i s hdecode
          have htaken : (bytes.drop (k + 4)).take n = encode s ++ [0] := by
            rw [encode_of_decode hdecode, ← not_ne_iff.mp hzero]
            exact (dropLast_append_getLast? last hlast).symm
          have hfits : FitsRecord s := by
            have hlength := congrArg List.length htaken
            rw [length_take, length_append, length_singleton] at hlength
            rw [FitsRecord]
            omega
          refine printsAt_pure ⟨_, ?_, ?_, rfl, by simpa using hfits⟩
          · rw [hstands, ← drop_drop (i := n)]
            exact found_text hn htaken
          · rw [append_nil, hitems]
        · exact printsAt_throw

theorem finds_readText : Finds bytes o readText (fun _ => []) encodeText fun text =>
    ∀ s ∈ text, FitsRecord s :=
  fun k => (yields_readText k).mono fun _ _ _ ⟨hitems, hexact, hfits⟩ =>
    ⟨hitems, by rw [hexact], hfits⟩

theorem encodeText_ne_nil (text : Option String) : encodeText text ≠ [] := by
  cases text <;> simp [encodeText, encodeWord]

theorem yields_repeated_readText (n : Nat) : Yields bytes o (repeated readText n)
    fun names items exact => names.length = n ∧ items = [] ∧
      exact = ⟨names.flatMap encodeText, names.getLast?.join⟩ ∧
      ∀ name ∈ names, ∀ s ∈ name, FitsRecord s := by
  induction n with
  | zero => exact fun _ => yieldsAt_pure ⟨rfl, rfl, rfl, by simp⟩
  | succ n ih =>
    refine yields_bind yields_readText fun name items exact h => ?_
    refine yields_bind ih fun names items' exact' h' => ?_
    obtain ⟨rfl, rfl, hfits⟩ := h
    obtain ⟨rfl, rfl, rfl, hfits'⟩ := h'
    refine fun _ => yieldsAt_pure ⟨rfl, rfl, ?_, forall_mem_cons.mpr ⟨hfits, hfits'⟩⟩
    refine Encoding.ext (by simp) ?_
    cases names with
    | nil => simp [lastText_append]
    | cons name' names =>
      simp [lastText_append, encodeText_ne_nil, getLast?_cons]

/-- **A constant** was found, and its text fits into a record. -/
theorem finds_readConstant : Finds bytes o readConstant (fun _ => []) encodeConstant fun c =>
    ∀ s, c = .text s → FitsRecord s := by
  refine yields_bind finds_readByte fun tag items exact h => ?_
  obtain ⟨rfl, htag, -⟩ := h
  split
  · exact fun _ => yieldsAt_pure ⟨rfl, by simp [htag, encodeConstant], by simp⟩
  · refine yields_bind finds_readByte fun b items exact' h => ?_
    obtain ⟨rfl, hbyte, -⟩ := h
    split
    · exact fun _ => yieldsAt_pure ⟨rfl, by simp [htag, hbyte, encodeConstant], by simp⟩
    · exact fun _ => yieldsAt_pure ⟨rfl, by simp [htag, hbyte, encodeConstant], by simp⟩
    · exact fun _ => printsAt_throw
  · refine fun _ => yieldsAt_takeExactly fun taken htaken => ⟨rfl, ?_, by simp⟩
    rw [encodeConstant, encodeDouble_littleEndian htaken, bytes_append, htag]
    rfl
  · refine yields_bind finds_readText fun text items exact' h => ?_
    obtain ⟨rfl, htext, hfits⟩ := h
    cases text with
    | none => exact fun _ => yieldsAt_pure ⟨rfl, by simp [htag, htext, encodeConstant], by simp⟩
    | some s =>
      exact fun _ => yieldsAt_pure ⟨rfl, by simp [htag, htext, encodeConstant], by simpa using hfits⟩
  · exact fun _ => printsAt_throw

/-! ### Code -/

theorem printsAt_repeated_readWord (n : Nat) : PrintsAt bytes o k (repeated readWord n)
    fun ws es k' => shownItems es = [] ∧ ws.length = n ∧ (∀ w ∈ ws, w < 0x100000000) ∧
      bytes.drop k = ws.flatMap encodeWord ++ bytes.drop k' := by
  induction n generalizing k with
  | zero => exact printsAt_pure ⟨rfl, rfl, by simp, rfl⟩
  | succ n ih =>
    refine printsAt_bind printsAt_readWord fun w es k₁ hw => printsAt_bind ih fun ws es' k₂ hws => ?_
    obtain ⟨hitems, hlt, -, hstands⟩ := hw
    obtain ⟨hitems', rfl, hlt', hstands'⟩ := hws
    refine printsAt_pure ⟨by simp [hitems, hitems'], rfl, by simpa using ⟨hlt, hlt'⟩, ?_⟩
    rw [hstands, hstands', flatMap_cons, append_assoc]

theorem take_drop_words {ws : List Nat} {i w : Nat} (h : ws[i]? = some w) (rest : List UInt8) :
    ((ws.flatMap encodeWord ++ rest).drop (4 * i)).take 4 = encodeWord w := by
  induction ws generalizing i with
  | nil => cases h
  | cons v ws ih =>
    cases i with
    | zero =>
      obtain rfl : v = w := Option.some.inj h
      rfl
    | succ i =>
      have hrest := ih (i := i) (by simpa using h)
      exact hrest

/-- What is known of the code of a function: it fits into its records and ends with the plain return. -/
def FitsCode (code : List Nat) : Prop :=
  code.length < 0x100000000 ∧ (∀ w ∈ code, w < 0x100000000) ∧ code.getLast? = some plainReturn

/-- **The code** of a function: behind the number of words, they stand at every fourth byte. -/
theorem yieldsAt_readCode : YieldsAt bytes o k readCode fun code items exact =>
    items = [] ∧ exact.bytes = encodeList encodeWord code ∧ FitsCode code ∧
      ∀ i w, code[i]? = some w → (bytes.drop (k + 4 + 4 * i)).take 4 = encodeWord w := by
  rw [readCode, readList, bind_assoc]
  refine printsAt_bind printsAt_readWord fun n es k₁ hn => ?_
  obtain ⟨hitems, hn, rfl, hstands⟩ := hn
  refine printsAt_bind (printsAt_repeated_readWord n) fun code es' k₂ hcode => ?_
  obtain ⟨hitems', rfl, hlt, hstands'⟩ := hcode
  split
  · exact printsAt_throw
  · rename_i last hlast
    split
    · rename_i hreturn
      refine printsAt_pure ⟨⟨encodeList encodeWord code, none⟩, Or.inl ?_, by simp [hitems, hitems'], rfl,
        ⟨hn, hlt, by rw [hlast, hreturn]⟩, fun i w hw => ?_⟩
      · rw [hstands, hstands', encodeList, append_assoc]
      · rw [← drop_drop, hstands']
        exact take_drop_words hw _
    · exact printsAt_throw

/-! ### Functions -/

/-- The source name is shown if there is one and it is not empty. -/
def sourceItems : Option String → List Item
  | some name => if name ≠ "" then [.record (.source name)] else []
  | none => []

def constantItems (ks : List Constant) : List Item :=
  ks.zipIdx.map fun p => .record (.constant p.2 p.1)

def debugItems (d : DebugRecords) : List Item :=
  (if !d.lines.isEmpty then [.record (.lines d.lines)] else []) ++
    ((if !d.locals.isEmpty then [.record (.locals d.locals)] else []) ++
      (if !d.upvalues.isEmpty then [.record (.upvalues d.upvalues)] else []))

mutual

/-- What a function has to show, in the order of its listing: its head and source name, its constants if
they are asked for, its code, the number of its inner functions and those themselves, and its debug
records. -/
def functionItems (o : Options) : Function → List Item
  | .mk source p code ks inner debug =>
    [.head p] ++ (sourceItems source ++ ((if o.constants then constantItems ks else []) ++
      (code.map .word ++ ((if o.constants then [.record (.count inner.length)] else []) ++
        (allItems o inner ++ debugItems debug)))))

def allItems (o : Options) : List Function → List Item
  | [] => []
  | f :: rest => functionItems o f ++ allItems o rest

end

theorem allItems_eq_flatMap (o : Options) (fs : List Function) :
    allItems o fs = fs.flatMap (functionItems o) := by
  induction fs with
  | nil => rw [allItems, flatMap_nil]
  | cons f fs ih => rw [allItems, flatMap_cons, ih]

/-- The debug records fit into their records. -/
structure FitsDebug (d : DebugRecords) : Prop where
  lines : d.lines.length < 0x100000000 ∧ ∀ n ∈ d.lines, n < 0x100000000
  locals : d.locals.length < 0x100000000 ∧ ∀ v ∈ d.locals,
    (∀ s ∈ v.name, FitsRecord s) ∧ v.first < 0x100000000 ∧ v.stop < 0x100000000
  upvalues : d.upvalues.length < 0x100000000 ∧ ∀ name ∈ d.upvalues, ∀ s ∈ name, FitsRecord s

/-- All that a function has of its own fits into its records. -/
def FitsFormat : Function → Prop
  | .mk source p code ks inner debug => (∀ s ∈ source, FitsRecord s) ∧ InRecords p ∧ FitsCode code ∧
    (ks.length < 0x100000000 ∧ ∀ k ∈ ks, ∀ s, k = .text s → FitsRecord s) ∧
    inner.length < 0x100000000 ∧ FitsDebug debug

def AllFit (f : Function) : Prop := ∀ g, Within g f → FitsFormat g

theorem AllFit.inner {f g : Function} (h : AllFit f) (hg : g ∈ f.inner) : AllFit g :=
  fun k hk => h k (.inner hg hk)

section

variable {f : Unit → Disassembly β} {ds : List Description} {lines : List CodeLine}

theorem yields_record_when {c : Prop} [Decidable c] (x : Record)
    (hf : Yields bytes o (f ()) fun b items exact =>
      post' b ((if c then [.record x] else []) ++ items) exact) :
    Yields bytes o (if c then writeLine x.line >>= f else f ()) post' := by
  split
  · rename_i hc
    refine Lists.yields_bind (lists_writeLine (.record x) rfl trivial) fun _ _ => ?_
    rwa [if_pos hc] at hf
  · rename_i hc
    rwa [if_neg hc] at hf

theorem finds_readLocal : Finds bytes o (do
      let name ← readText
      let first ← readWord
      let stop ← readWord
      return ({ name, first, stop } : LocalVariable)) (fun _ => [])
    (fun v => encodeText v.name ++ encodeWord v.first ++ encodeWord v.stop) fun v =>
      (∀ s ∈ v.name, FitsRecord s) ∧ v.first < 0x100000000 ∧ v.stop < 0x100000000 := by
  refine yields_bind finds_readText fun name items exact hname => ?_
  refine yields_bind finds_readWord fun first items' exact' hfirst => ?_
  refine yields_bind finds_readWord fun stop items'' exact'' hstop => ?_
  obtain ⟨rfl, hexact, hname⟩ := hname
  obtain ⟨rfl, hexact', hfirst⟩ := hfirst
  obtain ⟨rfl, hexact'', hstop⟩ := hstop
  exact fun _ => yieldsAt_pure ⟨rfl, by simp [hexact, hexact', hexact''], hname, hfirst, hstop⟩

theorem yields_readUpvalues : Yields bytes o (readList readText) fun names items exact =>
    items = [] ∧ exact = ⟨encodeList encodeText names, names.getLast?.join⟩ ∧
      names.length < 0x100000000 ∧ ∀ name ∈ names, ∀ s ∈ name, FitsRecord s := by
  refine yields_bind yields_readWord fun n items exact hn => ?_
  obtain ⟨rfl, rfl, hn⟩ := hn
  refine fun k => (yields_repeated_readText n k).mono fun names items' exact' h => ?_
  obtain ⟨rfl, rfl, rfl, hfits⟩ := h
  refine ⟨rfl, Encoding.ext rfl ?_, hn, hfits⟩
  cases names with
  | nil => rfl
  | cons name names => simp [lastText_append, encodeText_ne_nil]

/-- **Debug records** are shown table by table; the last record is the name of the last upvalue. -/
theorem yields_readDebug : Yields bytes o readDebug fun debug items exact =>
    items = debugItems debug ∧ exact = ⟨encodeDebug debug, debug.upvalues.getLast?.join⟩ ∧
      FitsDebug debug := by
  refine yields_bind (finds_readList finds_readWord) fun lines items exact hlines => ?_
  refine yields_record_when (.lines lines) ?_
  refine yields_bind (finds_readList finds_readLocal) fun locals items' exact' hlocals => ?_
  refine yields_record_when (.locals locals) ?_
  refine yields_bind yields_readUpvalues fun upvalues items'' exact'' hupvalues => ?_
  refine yields_record_when (.upvalues upvalues) fun k => yieldsAt_pure ?_
  obtain ⟨rfl, hexact, hlines⟩ := hlines
  obtain ⟨rfl, hexact', hlocals⟩ := hlocals
  obtain ⟨rfl, rfl, hupvalues⟩ := hupvalues
  refine ⟨by simp [debugItems], Encoding.ext ?_ ?_, hlines, hlocals, hupvalues⟩
  · simp [encodeDebug, hexact, hexact']
  · simp [lastText_append, encodeList, encodeWord]

theorem finds_readConstants : Finds bytes o (readConstants o)
    (fun ks => if o.constants then constantItems ks else []) (encodeList encodeConstant) fun ks =>
      ks.length < 0x100000000 ∧ ∀ k ∈ ks, ∀ s, k = .text s → FitsRecord s := by
  refine yields_bind (finds_readList finds_readConstant) fun ks items exact hks => ?_
  obtain ⟨rfl, hexact, hks⟩ := hks
  split
  · have hlines : Lists bytes o (forIn ks.zipIdx PUnit.unit fun p _ => do
        writeLine (constantLine p.1 p.2)
        pure (ForInStep.yield PUnit.unit)) (constantItems ks) fun _ => True := by
      rw [constantItems, map_eq_flatMap]
      refine lists_forIn (fun p _ _ => ?_) trivial
      exact (lists_writeLine (.record (.constant p.2 p.1)) rfl trivial).bind fun _ _ =>
        lists_pure ⟨_, rfl, trivial⟩
    refine Lists.yields_bind hlines fun _ _ k => yieldsAt_pure ⟨by simp, by simp [hexact], hks⟩
  · exact fun k => yieldsAt_pure ⟨by simp, by simp [hexact], hks⟩

theorem yieldsAt_sourceName {source : Option String}
    (hf : YieldsAt bytes o k (f ()) fun b items exact =>
      post' b (sourceItems source ++ items) exact) :
    YieldsAt bytes o k (match source with
      | some name => if name ≠ "" then writeLine ("#func_name: " ++ quoted name) >>= f else f ()
      | _ => f ()) post' := by
  split
  · rename_i name
    rw [sourceItems] at hf
    split
    · rename_i hname
      rw [if_pos hname] at hf
      exact Lists.yieldsAt_bind (lists_writeLine (.record (.source name)) rfl trivial) fun _ _ => hf
    · rename_i hname
      rwa [if_neg hname] at hf
  · rename_i hnone
    cases source with
    | none => exact hf
    | some name => exact absurd rfl (hnone name)

theorem map_line_of_kept (h : Kept (codeLines ds) lines) :
    lines.map (·.line) = ds.map (·.line) := by
  have hkept : lines.map (·.line) = (codeLines ds).map (·.line) := by
    generalize codeLines ds = ls at h
    induction h with
    | nil => rfl
    | cons hl _ ih => rw [map_cons, map_cons, hl.line, ih]
  calc lines.map (·.line)
    _ = (codeLines ds).map (·.line) := hkept
    _ = (ds.zipIdx.map Prod.fst).map (·.line) := by
      rw [codeLines, map_map, map_map]
      rfl
    _ = ds.map (·.line) := by rw [zipIdx_map_fst]

theorem Annotated.length_eq (h : Annotated .ascending (codeLines ds) lines) :
    lines.length = ds.length := by
  have hlength := congrArg List.length (map_line_of_kept h.kept)
  rwa [length_map, length_map] at hlength

theorem holds_instruction {ks : List Constant} {code : List Nat} (hcode : FitsCode code)
    (hwords : ∀ i w, code[i]? = some w → (bytes.drop (k + 4 + 4 * i)).take 4 = encodeWord w)
    (hds : List.Forall₂ (fun (w : Nat) d => Description.ofWord ks w = .ok d) code ds)
    (hlines : Annotated .ascending (codeLines ds) lines) {p : (Nat × CodeLine) × Nat}
    (hp : p ∈ (code.zip lines).zipIdx) :
    Print.Holds bytes (.instruction (k + 4 + 4 * p.2) p.1.1 p.2 p.1.2) := by
  obtain ⟨⟨w, l⟩, i⟩ := p
  obtain ⟨hw, hl⟩ := getElem?_zip_eq_some.mp (mem_zipIdx_iff_getElem?.mp hp)
  obtain ⟨s, hs, hcommented⟩ := hlines.commented
  obtain ⟨l₀, hl₀, heq⟩ := hcommented.getElem? hl
  exact ⟨hcode.2.1 w (mem_of_getElem? hw), hwords i w hw, ks, code, ds, s, l₀, hds, hs, hw, hl₀,
    heq⟩

end

/-- Read and write what a function has of its own between its head and its inner functions. -/
def readOwn (o : Options) (order : Enumeration) (source : Option String) (offset : Nat) :
    Disassembly (List Nat × List Constant) := do
  if let some name := source then
    if name ≠ "" then writeLine ("#func_name: " ++ quoted name)
  let code ← readCode
  let ks ← readConstants o
  let descriptions ← code.mapM fun (w : Nat) => (Description.ofWord ks w : Except Fault _)
  let lines ← annotate o order (codeLines descriptions)
  writeCode o offset code lines
  return (code, ks)

theorem readFunction_parts (o : Options) (order : Enumeration) (depth : Nat) :
    readFunction o order (depth + 1) = do
      let source ← readText
      let p ← readParameters
      let r ← get
      writeLine ("\n" ++ functionLine r.begun r.path.reverse p)
      let own ← readOwn o order source (r.offset + 4)
      enterInner
      let count ← readWord
      if o.constants then writeLine (countLine count)
      let inner ← repeated (readFunction o order depth) count
      leaveInner
      let debug ← readDebug
      return .mk source p own.1 own.2 inner debug := by
  rw [readFunction]
  refine bind_congr fun source => bind_congr fun p => bind_congr fun r => bind_congr fun _ => ?_
  cases source with
  | none => simp [readOwn, countLine]
  | some name => by_cases hname : name = "" <;> simp [readOwn, countLine, hname]

theorem yieldsAt_readOwn (source : Option String) :
    YieldsAt bytes o k (readOwn o .ascending source (k + 4)) fun own items exact =>
      items = sourceItems source ++ ((if o.constants then constantItems own.2 else []) ++
        own.1.map .word) ∧
      exact.bytes = encodeList encodeWord own.1 ++ encodeList encodeConstant own.2 ∧
      FitsCode own.1 ∧ own.2.length < 0x100000000 ∧ ∀ k ∈ own.2, ∀ s, k = .text s → FitsRecord s := by
  refine yieldsAt_sourceName ?_
  refine yieldsAt_bind yieldsAt_readCode fun code items exact hcode => ?_
  refine yields_bind finds_readConstants fun ks items exact' hks => ?_
  obtain ⟨rfl, hexact, hcode, hwords⟩ := hcode
  obtain ⟨rfl, hexact', hks⟩ := hks
  refine (lists_mapM code).yields_bind fun ds hds => ?_
  refine (lists_annotate .ascending (codeLines ds)).yields_bind fun lines hlines => ?_
  refine (lists_writeCode (hlines.length_eq.trans hds.length_eq.symm)
    (fun q hq => holds_instruction hcode hwords hds hlines hq)
    (skippedComment_of_kept hlines.kept)).yields_bind fun _ _ k => yieldsAt_pure ?_
  exact ⟨by simp, by simp [hexact, hexact'], hcode, hks⟩

theorem lists_modify {f : Reading → Reading}
    (hf : ∀ r, ∃ begun path, f r = { r with begun, path }) :
    Lists bytes o (modify f) [] fun _ => True :=
  fun _ => printsAt_modify hf ⟨rfl, rfl, trivial⟩

/-- The name of the last upvalue of a function, which is the last record of its encoding. -/
def lastUpvalue : Function → Option String
  | .mk _ _ _ _ _ debug => debug.upvalues.getLast?.join

/-- **A function** is printed as it is read, and was found as it is encoded. The induction is on the depth
to which functions are nested. -/
theorem yields_readFunction (depth : Nat) : Yields bytes o (readFunction o .ascending depth)
    fun f items exact =>
      items = functionItems o f ∧ exact = ⟨f.encode, lastUpvalue f⟩ ∧ AllFit f := by
  induction depth with
  | zero => exact fun _ => printsAt_throw
  | succ depth ih =>
    have hinner : Finds bytes o (readFunction o .ascending depth) (functionItems o) Function.encode
        AllFit :=
      fun k => (ih k).mono fun _ _ _ ⟨hitems, hexact, hfits⟩ => ⟨hitems, by rw [hexact], hfits⟩
    rw [readFunction_parts]
    refine yields_bind finds_readText fun source items exact hsource => ?_
    refine yields_bind finds_readParameters fun p items exact₁ hp k => ?_
    obtain ⟨rfl, hexact, hsource⟩ := hsource
    obtain ⟨rfl, hexact₁, hp⟩ := hp
    refine yieldsAt_get_bind fun r hr => ?_
    refine Lists.yieldsAt_bind (lists_writeLine (.head r.begun r.path.reverse p) rfl trivial)
      fun _ _ => ?_
    rw [hr]
    refine yieldsAt_bind (yieldsAt_readOwn source) fun own items exact₂ hown => ?_
    obtain ⟨rfl, hexact₂, hcode, hks⟩ := hown
    refine (lists_modify fun r => ⟨_, _, rfl⟩).yields_bind fun _ _ => ?_
    refine yields_bind finds_readWord fun count items exact₄ hcount => ?_
    refine yields_record_when (.count count) ?_
    refine yields_bind (finds_repeated hinner count) fun fs items exact₅ hfs => ?_
    refine (lists_modify fun r => ⟨_, _, rfl⟩).yields_bind fun _ _ => ?_
    refine yields_bind yields_readDebug fun debug items exact₆ hdebug k => yieldsAt_pure ?_
    obtain ⟨rfl, hexact₄, hcount⟩ := hcount
    obtain ⟨rfl, rfl, hexact₅, hfs⟩ := hfs
    obtain ⟨rfl, rfl, hdebug⟩ := hdebug
    refine ⟨?_, Encoding.ext ?_ ?_, fun g hg => ?_⟩
    · simp [functionItems, allItems_eq_flatMap, shownItems, Print.item?]
    · simp [Function.encode, encodeAll_eq_flatMap, *]
    · have hne : encodeDebug debug ≠ [] := by simp [encodeDebug, encodeList, encodeWord]
      simp [lastText_append, lastUpvalue, hne]
    · rcases within_iff.mp hg with rfl | ⟨h, hmem, hwithin⟩
      · exact ⟨hsource, hp, hcode, hks, hcount, hdebug⟩
      · exact hfs h hmem g hwithin

/-! ### Chunks -/

def Outcome.shown (onConsole : Bool) (outcome : Outcome) : String :=
  if onConsole then outcome.console else outcome.listing

/-- **A disassembly**, however it ends, prints pieces that hold of the file. If it ends well, they show what
the function tree has to show, the tree fits the format, and its encoding was found in the file. -/
theorem exists_prints_of_disassemble (o : Options) (onConsole : Bool) (bytes : List UInt8) :
    ∃ es, (disassemble o onConsole bytes).shown onConsole = textOf o es ∧
      (∀ e ∈ es, e.Holds bytes) ∧ ∀ f, (disassemble o onConsole bytes).result = .ok f →
        shownItems es = functionItems o f ∧ AllFit f ∧
          ∃ rest, Found ⟨encodeChunk f, lastUpvalue f⟩ bytes rest := by
  have hshown : (disassemble o onConsole bytes).shown onConsole =
      (if onConsole then ((readChunk o .ascending).run.run { rest := bytes, onConsole }).2.console
        else ((readChunk o .ascending).run.run { rest := bytes, onConsole }).2.listing) := rfl
  have hresult : (disassemble o onConsole bytes).result =
      ((readChunk o .ascending).run.run { rest := bytes, onConsole }).1 := rfl
  rw [hshown, hresult, run_readChunk]
  by_cases hheader : bytes.take 12 = chunkHeader
  · simp only [hheader, if_true]
    obtain ⟨es, hout, hpost⟩ := @yields_readFunction bytes o (bytes.drop 12).length 12
      { rest := bytes.drop 12, offset := 12, onConsole } rfl rfl
    refine ⟨es, ?_, hout.holds, fun f hf => ?_⟩
    · have htext := hout.shown
      simp only [Reading.shown, hout.onConsole, ite_self] at htext
      rw [htext, String.empty_append]
    · obtain ⟨exact, hfound, hitems, rfl, hfits⟩ := hpost f hf
      have hstart : Found { bytes := chunkHeader } bytes (bytes.drop 12) :=
        Or.inl (by rw [← hheader, take_append_drop])
      have hchunk : ({ bytes := chunkHeader } ++ ⟨f.encode, lastUpvalue f⟩ : Encoding) =
          ⟨encodeChunk f, lastUpvalue f⟩ :=
        Encoding.ext rfl ((lastText_append _ _).trans
          (if_neg (by cases f; simp [Function.encode, encodeText_ne_nil])))
      exact ⟨hitems, hfits, _, hchunk ▸ hstart.append hfound⟩
  · simp only [hheader, if_false]
    refine ⟨[], by cases onConsole <;> rfl, by simp, fun f hf => ?_⟩
    cases hf

end ApkWorkshop.Listing
