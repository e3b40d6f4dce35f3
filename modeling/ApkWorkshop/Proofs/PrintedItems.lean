import ApkWorkshop.Proofs.ChunkRoundTrip
import ApkWorkshop.Proofs.EnumerationOrder
import ApkWorkshop.Proofs.FoundRecords

/-!
# What Is Printed

A disassembly prints a chunk piece by piece: the heads of functions, instructions, records such as constants
and tables of names, and remarks that show nothing of the chunk itself. `Print` is one such piece, with all
that its text is made of. `PrintsAt bytes o k m post` says of a step `m` that is taken when `k` bytes of a
file are read: however it ends, what it prints are pieces that hold of the file, and the bytes that are left
are those behind the offset that was counted; if it ends well, then `post` holds of its value, the pieces
and the offset. A fault in the middle of a chunk is covered as well as its end.
-/

namespace ApkWorkshop.Listing

open Bytecode List
open Text

/-! ### Pieces -/

/-- A part of a function that is printed on a line of its own. -/
inductive Record
  | source (name : String)
  | constant (place : Nat) (k : Constant)
  | count (n : Nat)
  | lines (ns : List Nat)
  | locals (vs : List LocalVariable)
  | upvalues (names : List (Option String))
deriving DecidableEq

def Record.line : Record → String
  | .source name => "#func_name: " ++ quoted name
  | .constant place k => constantLine k place
  | .count n => countLine n
  | .lines ns => "#source_line_positions: " ++ bracketed (ns.map decimal)
  | .locals vs => "#local_vars: " ++ bracketed (vs.map fun v =>
    parenthesized [optionalText v.name, decimal v.first, decimal v.stop])
  | .upvalues names => "#upvalues: " ++ bracketed (names.map optionalText)

/-- What a chunk has to show: the parameters of a function, an instruction or a record. -/
inductive Item
  | head (p : Parameters)
  | word (w : Nat)
  | record (x : Record)
deriving DecidableEq

/-- A printed piece. A head has the number of functions begun before and the path to the function; an
instruction has its offset in the file and its place and line in the body. -/
inductive Print
  | remark (text : String)
  | head (begun : Nat) (path : List Nat) (p : Parameters)
  | instruction (offset w place : Nat) (l : CodeLine)
  | record (x : Record)
deriving DecidableEq

def Print.item? : Print → Option Item
  | .remark _ => none
  | .head _ _ p => some (.head p)
  | .instruction _ w _ _ => some (.word w)
  | .record x => some (.record x)

/-- What a listing tells about a chunk. -/
def shownItems (es : List Print) : List Item := es.filterMap Print.item?

@[simp] theorem shownItems_append (es es' : List Print) :
    shownItems (es ++ es') = shownItems es ++ shownItems es' :=
  filterMap_append

def Print.text (o : Options) : Print → String
  | .remark s => s ++ "\n"
  | .head begun path p => "\n" ++ functionLine begun path p ++ "\n"
  | .instruction offset w place l =>
    (if o.concise then times l.indent "   " ++ l.text
      else if o.hexadecimal then hexMargin offset w ++ fullLine place l
      else fullLine place l) ++ "\n"
  | .record x => x.line ++ "\n"

/-- A listing, print by print. -/
def textOf (o : Options) : List Print → String
  | [] => ""
  | e :: es => e.text o ++ textOf o es

theorem textOf_append (o : Options) (es es' : List Print) :
    textOf o (es ++ es') = textOf o es ++ textOf o es' := by
  induction es with
  | nil => simp [textOf]
  | cons e es ih => simp [textOf, ih, String.append_assoc]

def RemarkText (s : String) : Prop :=
  s = "" ∨ ∃ start ∈ remarkStarts, ∃ t, s = start ++ t ∧ Plain t.toList

def CodeLine.uncommented (l : CodeLine) : CodeLine := { l with comment := none }

/-- The word stands at the place in the code of a function, and but for its comment the line is what the
passes make of the description there. -/
def DescribedAt (place w : Nat) (l : CodeLine) : Prop :=
  ∃ ks code ds s l₀, List.Forall₂ (fun (w : Nat) d => Description.ofWord ks w = .ok d) code ds ∧
    Shape.ofLines .ascending (codeLines ds) = .ok s ∧ code[place]? = some w ∧
    s.lines[place]? = some l₀ ∧ l.uncommented = l₀.uncommented

/-- The piece is true of the file: at the offset of an instruction stands its word, and its line describes
that word. -/
def Print.Holds (bytes : List UInt8) : Print → Prop
  | .remark s => RemarkText s
  | .instruction offset w place l => w < 0x100000000 ∧
    (bytes.drop offset).take 4 = encodeWord w ∧ DescribedAt place w l
  | .head _ _ _ | .record _ => True

/-! ### Steps that print -/

def Reading.shown (r : Reading) : String := if r.onConsole then r.console else r.listing

/-- From one state to another, pieces that hold of the file were printed, and the bytes that are left are
those behind the offset. -/
structure Outputs (bytes : List UInt8) (o : Options) (r : Reading) (es : List Print) (r' : Reading) :
    Prop where
  onConsole : r'.onConsole = r.onConsole
  rest : r'.rest = bytes.drop r'.offset
  shown : r'.shown = r.shown ++ textOf o es
  holds : ∀ e ∈ es, e.Holds bytes

variable {bytes : List UInt8} {o : Options} {k : Nat} {α β : Type}

section

variable {r r' : Reading} {m : Disassembly α} {post : α → List Print → Nat → Prop}
  {f : α → Disassembly β} {s : String} {e : Print} {fault : Fault}

theorem Outputs.trans {r'' : Reading} {es es' : List Print} (h : Outputs bytes o r es r')
    (h' : Outputs bytes o r' es' r'') : Outputs bytes o r (es ++ es') r'' where
  onConsole := h'.onConsole.trans h.onConsole
  rest := h'.rest
  shown := by rw [h'.shown, h.shown, textOf_append, String.append_assoc]
  holds := forall_mem_append.mpr ⟨h.holds, h'.holds⟩

/-- The step prints pieces that hold of the file, however it ends, when it is taken behind `k` bytes of the
file; and if it ends well, `post` holds of its value, the pieces and the offset. -/
def PrintsAt (bytes : List UInt8) (o : Options) (k : Nat) (m : Disassembly α)
    (post : α → List Print → Nat → Prop) : Prop :=
  ∀ r, r.rest = bytes.drop k → r.offset = k → ∃ es, Outputs bytes o r es (m.run.run r).2 ∧
    ∀ a, (m.run.run r).1 = .ok a → post a es (m.run.run r).2.offset

theorem PrintsAt.mono {post' : α → List Print → Nat → Prop} (h : PrintsAt bytes o k m post)
    (himp : ∀ a es k', post a es k' → post' a es k') : PrintsAt bytes o k m post' := by
  intro r hr hk
  obtain ⟨es, hout, hpost⟩ := h r hr hk
  exact ⟨es, hout, fun a ha => himp a es _ (hpost a ha)⟩

theorem outputs_nil (hrest : r'.rest = bytes.drop r'.offset) (hconsole : r'.onConsole = r.onConsole)
    (hshown : r'.shown = r.shown) : Outputs bytes o r [] r' :=
  ⟨hconsole, hrest, by rw [hshown, textOf, String.append_empty], by simp⟩

theorem printsAt_pure {a : α} (h : post a [] k) : PrintsAt bytes o k (pure a) post := by
  rintro r hr rfl
  refine ⟨[], outputs_nil hr rfl rfl, fun b hb => ?_⟩
  obtain rfl := Except.ok.inj hb
  exact h

theorem printsAt_throw : PrintsAt bytes o k (throw fault) post := by
  rintro r hr rfl
  refine ⟨[], outputs_nil hr rfl rfl, fun b hb => ?_⟩
  cases hb

/-- **Two steps in a row** print the pieces of the first and then those of the second, from the offset
where the first ends. -/
theorem printsAt_bind {post' : β → List Print → Nat → Prop} (hm : PrintsAt bytes o k m post)
    (hf : ∀ a es k', post a es k' →
      PrintsAt bytes o k' (f a) fun b es' k'' => post' b (es ++ es') k'') :
    PrintsAt bytes o k (m >>= f) post' := by
  intro r hr hk
  obtain ⟨es, hout, hpost⟩ := hm r hr hk
  rw [run_bind]
  cases hrun : m.run.run r with
  | mk x r' =>
    rw [hrun] at hout hpost
    cases x with
    | error fault => exact ⟨es, hout, fun b hb => by cases hb⟩
    | ok a =>
      obtain ⟨es', hout', hpost'⟩ := hf a es _ (hpost a rfl) r' hout.rest rfl
      exact ⟨es ++ es', hout.trans hout', hpost'⟩

theorem printsAt_modify {f : Reading → Reading} {post : Unit → List Print → Nat → Prop}
    (hf : ∀ r, ∃ begun path, f r = { r with begun, path }) (h : post () [] k) :
    PrintsAt bytes o k (modify f) post := by
  rintro r hr rfl
  have hrun : ((modify f : Disassembly Unit).run.run r) = (.ok (), f r) := rfl
  rw [hrun]
  obtain ⟨begun, path, hr'⟩ := hf r
  rw [hr']
  exact ⟨[], outputs_nil hr rfl rfl, fun _ _ => h⟩

/-- **Bytes that are counted and taken**, in front of a step that looks at them. -/
theorem printsAt_counted {n : Nat} {f : List UInt8 → Disassembly β}
    {post : β → List Print → Nat → Prop}
    (h : PrintsAt bytes o (k + n) (f ((bytes.drop k).take n)) post) :
    PrintsAt bytes o k (countBytes n >>= fun _ => takeBytes n >>= f) post := by
  rintro r hr rfl
  have hrun : (countBytes n >>= fun _ => takeBytes n >>= f).run.run r = (f (r.rest.take n)).run.run
      { r with rest := r.rest.drop n, offset := r.offset + n } := rfl
  rw [hrun, hr]
  obtain ⟨es, hout, hpost⟩ := h { r with rest := (bytes.drop r.offset).drop n, offset := r.offset + n }
    (by rw [drop_drop]) rfl
  exact ⟨es, ⟨hout.onConsole, hout.rest, hout.shown, hout.holds⟩, hpost⟩

theorem printsAt_writeListing (htext : e.text o = s) (he : e.Holds bytes)
    {post : Unit → List Print → Nat → Prop} (h : post () [e] k) :
    PrintsAt bytes o k (writeListing s) post := by
  rintro r hr rfl
  have hrun : (writeListing s).run.run r = (.ok (), if r.onConsole
      then { r with console := r.console ++ s } else { r with listing := r.listing ++ s }) := rfl
  have htextOf : textOf o [e] = s := by simp [textOf, htext]
  rw [hrun]
  refine ⟨[e], ?_, fun _ _ => ?_⟩
  · cases hconsole : r.onConsole with
    | false => exact ⟨by simp [hconsole], by simp [hr], by simp [Reading.shown, hconsole, htextOf],
        by simpa using he⟩
    | true => exact ⟨by simp [hconsole], by simp [hr], by simp [Reading.shown, hconsole, htextOf],
        by simpa using he⟩
  · cases hconsole : r.onConsole <;> simpa [hconsole] using h

theorem printsAt_writeLine (htext : e.text o = s ++ "\n") (he : e.Holds bytes)
    {post : Unit → List Print → Nat → Prop} (h : post () [e] k) :
    PrintsAt bytes o k (writeLine s) post :=
  printsAt_writeListing htext he h

end

/-! ### Steps that read nothing -/

/-- The step reads nothing, and if it ends well, its pieces show the items and `keeps` holds of its
value. -/
def Lists (bytes : List UInt8) (o : Options) (m : Disassembly α) (items : List Item)
    (keeps : α → Prop) : Prop :=
  ∀ k, PrintsAt bytes o k m fun a es k' => k' = k ∧ shownItems es = items ∧ keeps a

section Lists

variable {γ : Type} {items items' : List Item} {keeps : α → Prop} {keeps' : β → Prop}

section

variable {a : α} {x : Except Fault α} {f : γ → α → Disassembly (ForInStep α)} {s : String}
  {c : Prop} {xs : List γ} {itemsOf : γ → List Item}

theorem lists_pure (h : keeps a) : Lists bytes o (pure a) [] keeps :=
  fun _ => printsAt_pure ⟨rfl, rfl, h⟩

theorem lists_liftM (h : ∀ a, x = .ok a → keeps a) : Lists bytes o (liftM x) [] keeps := by
  rintro k r hr rfl
  exact ⟨[], outputs_nil hr rfl rfl, fun a ha => ⟨rfl, rfl, h a ha⟩⟩

theorem Lists.bind {m : Disassembly α} {f : α → Disassembly β} (hm : Lists bytes o m items keeps)
    (hf : ∀ a, keeps a → Lists bytes o (f a) items' keeps') :
    Lists bytes o (m >>= f) (items ++ items') keeps' := by
  intro k
  refine printsAt_bind (hm k) fun a es k' h => ?_
  obtain ⟨rfl, hitems, ha⟩ := h
  refine (hf a ha k').mono fun b es' k'' h' => ?_
  obtain ⟨rfl, hitems', hb⟩ := h'
  exact ⟨rfl, by rw [shownItems_append, hitems, hitems'], hb⟩

theorem lists_writeLine (e : Print) (htext : e.text o = s ++ "\n") (he : e.Holds bytes) :
    Lists bytes o (writeLine s) (shownItems [e]) fun _ => True :=
  fun _ => printsAt_writeLine htext he ⟨rfl, rfl, trivial⟩

theorem lists_remark (h : RemarkText s) : Lists bytes o (writeLine s) [] fun _ => True :=
  lists_writeLine (.remark s) rfl h

theorem lists_writeConsole (h : RemarkText s) :
    Lists bytes o (writeConsole s) [] fun _ => True := by
  rintro k r hr rfl
  have hrun : (writeConsole s).run.run r =
      (.ok (), { r with console := r.console ++ s ++ "\n" }) := rfl
  rw [hrun]
  by_cases hconsole : r.onConsole = true
  · refine ⟨[.remark s], ⟨rfl, hr, ?_, ?_⟩, fun _ _ => ⟨rfl, rfl, trivial⟩⟩
    · simp [Reading.shown, hconsole, textOf, Print.text, String.append_assoc]
    · exact forall_mem_singleton.mpr h
  · refine ⟨[], outputs_nil hr rfl ?_, fun _ _ => ⟨rfl, rfl, trivial⟩⟩
    simp [Reading.shown, hconsole]

theorem lists_forIn (hbody : ∀ x a, keeps a →
      Lists bytes o (f x a) (itemsOf x) fun step => ∃ b, step = .yield b ∧ keeps b) (ha : keeps a) :
    Lists bytes o (forIn xs a f) (xs.flatMap itemsOf) keeps := by
  induction xs generalizing a with
  | nil => exact lists_pure ha
  | cons x xs ih =>
    rw [forIn_cons]
    refine (hbody x a ha).bind fun step hstep => ?_
    obtain ⟨b, rfl, hb⟩ := hstep
    exact ih hb

theorem lists_forM {f : γ → Disassembly PUnit}
    (h : ∀ x ∈ xs, Lists bytes o (f x) (itemsOf x) fun _ => True) :
    Lists bytes o (xs.forM f) (xs.flatMap itemsOf) fun _ => True := by
  induction xs with
  | nil => exact lists_pure trivial
  | cons x xs ih =>
    exact (h x (by simp)).bind fun _ _ => ih fun y hy => h y (by simp [hy])

end

end Lists

theorem lists_mapM {g : α → Except Fault β} (xs : List α) :
    Lists bytes o (xs.mapM fun x => (liftM (g x) : Disassembly β)) [] fun ys =>
      List.Forall₂ (fun x y => g x = .ok y) xs ys := by
  induction xs with
  | nil => exact lists_pure .nil
  | cons x xs ih =>
    rw [mapM_cons]
    exact (lists_liftM fun _ hy => hy).bind fun y hy => ih.bind fun ys hys =>
      lists_pure (.cons hy hys)

/-! ### Annotations -/

def CommentedFrom (ls ls' : List CodeLine) : Prop :=
  ls'.map CodeLine.uncommented = ls.map CodeLine.uncommented

section

variable {ls ls' ls₁ lines : List CodeLine} {c : String} {i : Int} {order : Enumeration}
  {offset : Nat}

theorem CommentedFrom.getElem? (h : CommentedFrom ls ls') {i : Nat} {l' : CodeLine}
    (hl' : ls'[i]? = some l') : ∃ l, ls[i]? = some l ∧ l'.uncommented = l.uncommented := by
  have hat := congrArg (·[i]?) h
  simp only [getElem?_map, hl', Option.map_some] at hat
  obtain ⟨l, hl, heq⟩ := Option.map_eq_some_iff.mp hat.symm
  exact ⟨l, hl, heq.symm⟩

theorem CommentedFrom.commentLine (h : CommentedFrom ls ls₁)
    (hls' : commentLine ls₁ i c = .ok ls') : CommentedFrom ls ls' := by
  rw [Listing.commentLine, changeLine] at hls'
  split at hls'
  · rename_i ls₂ hls₂
    obtain rfl := Except.ok.inj hls'
    obtain ⟨place, -, rfl⟩ := Option.map_eq_some_iff.mp hls₂
    refine ((map_modify (k := id) (fun l => ?_) ls₁ place).trans (by simp)).trans h
    rfl
  · cases hls'

/-- What becomes of the lines of a body: the passes found a shape of them, and then only comments were set,
which are skipped. -/
structure Annotated (order : Enumeration) (lines ls : List CodeLine) : Prop where
  kept : Kept lines ls
  commented : ∃ s, Shape.ofLines order lines = .ok s ∧ CommentedFrom s.lines ls

theorem Annotated.commentLine (h : Annotated order lines ls) (hc : SkippedComment (some c))
    (hls' : Listing.commentLine ls i c = .ok ls') : Annotated order lines ls' := by
  obtain ⟨s, hs, hcommented⟩ := h.commented
  exact ⟨h.kept.trans (kept_commentLine ls i hc ls' hls'), s, hs, hcommented.commentLine hls'⟩

theorem remarkText_append {start t : String} (h : start ∈ remarkStarts) (ht : Plain t.toList) :
    RemarkText (start ++ t) :=
  Or.inr ⟨start, h, t, rfl, ht⟩

theorem remarking_lists : Remarking fun _ m => Lists bytes o m [] where
  value := lists_pure
  lifted := lists_liftM
  chain hm := hm.bind
  traced h ht := lists_writeConsole (remarkText_append h ht)
  noted h ht :=
    have hsub : ∀ start ∈ noteStarts, start ∈ remarkStarts := by decide
    lists_remark (remarkText_append (hsub _ h) ht)

theorem lists_annotate (order : Enumeration) (lines : List CodeLine) :
    Lists bytes o (annotate o order lines) [] (Annotated order lines) :=
  remarking_lists.annotate (fun s hs => ⟨kept_ofLines order lines s hs, s, hs, rfl⟩)
    (fun h => h.commentLine) o

theorem annotated_of_ends {r r' : Reading} (h : Ends (annotate o order lines) r ls r') :
    Annotated order lines ls := by
  -- whatever was read before the state, as many bytes as were counted
  obtain ⟨es, -, hpost⟩ := @lists_annotate (List.replicate r.offset 0 ++ r.rest) o order lines
    r.offset r (by simp) rfl
  exact (hpost ls (congrArg Prod.fst h)).2.2

/-! ### Code -/

theorem remarkText_of_skipped {comment : String} (h : SkippedComment (some comment)) :
    RemarkText comment := by
  rcases h comment rfl with rfl | ⟨t, rfl, ht⟩
  · exact Or.inl rfl
  · exact remarkText_append (by decide) ht

theorem writeListing_writeLine (s t : String) :
    (do writeListing s; writeLine t) = writeLine (s ++ t) := by
  have hjoin : ∀ before : String, before ++ s ++ (t ++ "\n") = before ++ (s ++ t ++ "\n") := by
    simp [String.append_assoc]
  funext r
  obtain ⟨rest, offset, listing, console, onConsole, begun, path⟩ := r
  cases onConsole with
  | false =>
    exact congrArg (fun text => ((Except.ok (),
      { rest, offset, listing := text, console, begun, path }) : Except Fault Unit × Reading))
      (hjoin listing)
  | true =>
    exact congrArg (fun text => ((Except.ok (),
      { rest, offset, listing, console := text, onConsole := true, begun, path }) :
        Except Fault Unit × Reading)) (hjoin console)

theorem lists_writeInstruction {w place : Nat} {l : CodeLine}
    (hholds : Print.Holds bytes (.instruction (offset + 4 * place) w place l))
    (hcomment : SkippedComment l.comment) :
    Lists bytes o (if o.concise then writeLine (times l.indent "   " ++ l.text)
      else do
        if let some comment := l.comment then writeLine comment
        if o.hexadecimal then
          writeListing (padStart 5 ' ' (hex (offset + 4 * place)) ++ " " ++ padStart 8 ' ' (hex w)
            ++ " ")
        writeLine (fullLine place l)) [.word w] fun _ => True := by
  have hline : ∀ s, Print.text o (.instruction (offset + 4 * place) w place l) = s ++ "\n" →
      Lists bytes o (writeLine s) [.word w] fun _ => True :=
    fun s htext => lists_writeLine _ htext hholds
  by_cases hconcise : o.concise = true
  · rw [if_pos hconcise]
    exact hline _ (by rw [Print.text, if_pos hconcise])
  · rw [if_neg hconcise]
    have hcode : Lists bytes o (if o.hexadecimal then do
          writeListing (hexMargin (offset + 4 * place) w)
          writeLine (fullLine place l)
        else writeLine (fullLine place l)) [.word w] fun _ => True := by
      rw [writeListing_writeLine]
      split
      · rename_i hhex
        exact hline _ (by rw [Print.text, if_neg hconcise, if_pos hhex])
      · rename_i hhex
        exact hline _ (by rw [Print.text, if_neg hconcise, if_neg hhex])
    cases hc : l.comment with
    | none => exact hcode
    | some comment =>
      rw [hc] at hcomment
      exact (lists_remark (remarkText_of_skipped hcomment)).bind fun _ _ => hcode

/-- **The code** of a function is printed instruction by instruction. -/
theorem lists_writeCode {code : List Nat} (hlength : lines.length = code.length)
    (hholds : ∀ p ∈ (code.zip lines).zipIdx,
      Print.Holds bytes (.instruction (offset + 4 * p.2) p.1.1 p.2 p.1.2))
    (hcomments : ∀ l ∈ lines, SkippedComment l.comment) :
    Lists bytes o (writeCode o offset code lines) (code.map .word) fun _ => True := by
  have hitems : ((code.zip lines).zipIdx.flatMap fun p => [Item.word p.1.1]) = code.map .word := by
    calc ((code.zip lines).zipIdx.flatMap fun p => [Item.word p.1.1])
      _ = ((code.zip lines).zipIdx.map Prod.fst).map fun q => Item.word q.1 := by
        rw [map_map, map_eq_flatMap]
        rfl
      _ = ((code.zip lines).map Prod.fst).map .word := by
        rw [zipIdx_map_fst, map_map]
        rfl
      _ = code.map .word := by rw [map_fst_zip (by omega)]
  rw [← hitems]
  refine lists_forM fun p hp => ?_
  have hl : p.1.2 ∈ lines := (of_mem_zip (fst_mem_of_mem_zipIdx hp)).2
  exact lists_writeInstruction (hholds p hp) (hcomments _ hl)

end

end ApkWorkshop.Listing
