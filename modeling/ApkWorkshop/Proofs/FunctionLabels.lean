import ApkWorkshop.Proofs.GroupedConditions
import ApkWorkshop.Proofs.ListingFixedPoint
import ApkWorkshop.Proofs.PrintedChunks

/-!
# Labels of Functions

The head of a function carries a label: how many functions have begun before it, and a path. The reading
keeps both as it goes down the tree of functions and up again. They turn out to be the number and the place
of the function in the tree:

* `Function.preorder`, `Function.at?` — the functions of a tree with the ways to them;
* `foldr_hang` — the depths of the functions in preorder, read from the last to the first, spell the tree;
* `labels_readFunction` — a function prints the heads of its tree, by induction on the depth.
-/

namespace ApkWorkshop.Bytecode

open List

/-! ### Functions and the ways to them -/

def Function.parameters : Function → Parameters
  | .mk _ p _ _ _ _ => p

mutual

/-- The functions of a tree in preorder, each with the way to it. -/
def Function.preorder : Function → List (List Nat × Function)
  | .mk source p code ks inner debug => ([], .mk source p code ks inner debug) :: preorderAll 0 inner

def preorderAll (step : Nat) : List Function → List (List Nat × Function)
  | [] => []
  | f :: rest => (f.preorder.map fun x => (step :: x.1, x.2)) ++ preorderAll (step + 1) rest

end

/-- The inner function at the end of a way. -/
def Function.at? : List Nat → Function → Option Function
  | [], f => some f
  | i :: way, f => f.inner[i]?.bind (Function.at? way)

mutual

theorem mem_preorder_iff : ∀ (f : Function) (x : List Nat × Function),
    x ∈ f.preorder ↔ f.at? x.1 = some x.2
  | .mk source p code ks inner debug, ⟨way, g⟩ => by
      rw [Function.preorder, mem_cons, mem_preorderAll_iff 0 inner]
      cases way with
      | nil => simp [Function.at?, eq_comm]
      | cons i way => simp [Function.at?, Function.inner]

theorem mem_preorderAll_iff : ∀ (step : Nat) (fs : List Function) (x : List Nat × Function),
    x ∈ preorderAll step fs ↔
      ∃ i below, x.1 = (step + i) :: below ∧ fs[i]?.bind (Function.at? below) = some x.2
  | step, [], x => by simp [preorderAll]
  | step, f :: rest, x => by
      rw [preorderAll, mem_append, mem_map, mem_preorderAll_iff (step + 1) rest]
      constructor
      · rintro (⟨y, hy, rfl⟩ | ⟨i, below, hway, hat⟩)
        · exact ⟨0, y.1, rfl, (mem_preorder_iff f y).mp hy⟩
        · exact ⟨i + 1, below, by rw [hway, Nat.add_right_comm, Nat.add_assoc], hat⟩
      · rintro ⟨i, below, hway, hat⟩
        cases i with
        | zero => exact .inl ⟨(below, x.2), (mem_preorder_iff f _).mpr hat, Prod.ext hway.symm rfl⟩
        | succ i => exact .inr ⟨i, below, by rw [hway, Nat.add_right_comm, Nat.add_assoc], hat⟩

end

/-! ### The tree that is spelled by depths -/

/-- How functions are nested. -/
inductive Outline
  | mk (inner : List Outline)

mutual

def Function.outline : Function → Outline
  | .mk _ _ _ _ inner _ => .mk (outlines inner)

def outlines : List Function → List Outline
  | [] => []
  | f :: rest => f.outline :: outlines rest

end

/-- Put a function of this depth before those behind it: the ones that follow at once and are one step
deeper are its inner functions. -/
def hang (depth : Nat) (behind : List (Nat × Outline)) : List (Nat × Outline) :=
  (depth, .mk ((behind.takeWhile (·.1 == depth + 1)).map (·.2))) ::
    behind.dropWhile (·.1 == depth + 1)

mutual

/-- **The depths of a tree in preorder**, read from the last to the first, spell it. -/
theorem foldr_hang : ∀ (f : Function) (depth : Nat) (behind : List (Nat × Outline)),
    (∀ x ∈ behind.head?, x.1 ≤ depth) →
      (f.preorder.map fun x => depth + x.1.length).foldr hang behind = (depth, f.outline) :: behind
  | .mk source p code ks inner debug, depth, behind, h => by
      obtain ⟨htake, hdrop⟩ := @Text.span_append _ (·.1 == depth + 1)
        ((outlines inner).map (depth + 1, ·)) behind (by simp)
        fun x hx => beq_false_of_ne (by have := h x hx; omega)
      rw [Function.preorder, map_cons, foldr_cons, foldr_hang_all 0 inner depth behind h, hang,
        Function.outline, length_nil, Nat.add_zero, htake, hdrop]
      simp

theorem foldr_hang_all : ∀ (step : Nat) (fs : List Function) (depth : Nat)
    (behind : List (Nat × Outline)),
    (∀ x ∈ behind.head?, x.1 ≤ depth) →
      ((preorderAll step fs).map fun x => depth + x.1.length).foldr hang behind =
        (outlines fs).map (depth + 1, ·) ++ behind
  | step, [], depth, behind, _ => rfl
  | step, f :: rest, depth, behind, h => by
      have hdepths : ∀ x ∈ f.preorder, ((fun x : List Nat × Function => depth + x.1.length) ∘
          fun x => (step :: x.1, x.2)) x = depth + 1 + x.1.length := by
        intro x _
        simp only [Function.comp_apply, length_cons]
        omega
      rw [preorderAll, map_append, foldr_append, foldr_hang_all (step + 1) rest depth behind h, map_map,
        map_congr_left hdepths, foldr_hang f (depth + 1)]
      · rfl
      · cases rest with
        | nil => exact fun x hx => (h x hx).trans (Nat.le_succ depth)
        | cons g rest => simp [outlines]

end

end ApkWorkshop.Bytecode

namespace ApkWorkshop.Listing

open Bytecode List
open Text

/-! ### Printed heads -/

/-- The heads among printed pieces: number, path and parameters. -/
def headsOf (es : List Print) : List (Nat × List Nat × Parameters) :=
  es.filterMap fun
    | .head begun path p => some (begun, path, p)
    | _ => none

theorem headsOf_eq_nil {es : List Print} (h : ∀ p, Item.head p ∉ shownItems es) :
    headsOf es = [] := by
  refine filterMap_eq_nil_iff.mpr fun e he => ?_
  cases e with
  | head begun path p => exact (h p (mem_filterMap.mpr ⟨_, he, rfl⟩)).elim
  | remark | instruction | record => rfl

variable {bytes : List UInt8} {o : Options} {α β : Type} {m : Disassembly α} {f : α → Disassembly β}
  {label : Nat × List Nat} {post : α → List (Nat × List Nat × Parameters) → Nat × List Nat → Prop}
  {post' : β → List (Nat × List Nat × Parameters) → Nat × List Nat → Prop}

/-- Taken at a label, the step prints pieces that hold of the file; if it ends well, `post` holds of its
value, the heads among the pieces, and the label in the end. -/
def Labels (bytes : List UInt8) (o : Options) (label : Nat × List Nat) (m : Disassembly α)
    (post : α → List (Nat × List Nat × Parameters) → Nat × List Nat → Prop) : Prop :=
  ∀ r a r', Ends m r a r' → r.rest = bytes.drop r.offset → (r.begun, r.path) = label →
    ∃ es, Outputs bytes o r es r' ∧ post a (headsOf es) (r'.begun, r'.path)

theorem labels_bind (hm : Labels bytes o label m post) (hf : ∀ a heads label', post a heads label' →
      Labels bytes o label' (f a) fun b heads' label'' => post' b (heads ++ heads') label'') :
    Labels bytes o label (m >>= f) post' := by
  intro r b r'' h hr hlabel
  obtain ⟨a, r', hma, hfa⟩ := ends_bind.mp h
  obtain ⟨es, hout, hpost⟩ := hm r a r' hma hr hlabel
  obtain ⟨es', hout', hpost'⟩ := hf a _ _ hpost r' b r'' hfa hout.rest rfl
  exact ⟨es ++ es', hout.trans hout', by rwa [headsOf, filterMap_append]⟩

theorem labels_pure {a : α} (h : post a [] label) : Labels bytes o label (pure a) post := by
  rintro r b r' hends hr rfl
  obtain ⟨rfl, rfl⟩ := ends_pure.mp hends
  exact ⟨[], outputs_nil hr rfl rfl, h⟩

theorem labels_enterInner : Labels bytes o label enterInner fun _ heads label' =>
    heads = [] ∧ label' = (label.1 + 1, 0 :: label.2) := by
  rintro r _ r' hends hr rfl
  obtain rfl := ends_modify.mp hends
  exact ⟨[], outputs_nil hr rfl rfl, rfl, rfl⟩

theorem labels_leaveInner {step : Nat} {above : List Nat} (h : label.2.drop 1 = step :: above) :
    Labels bytes o label leaveInner fun _ heads label' =>
      heads = [] ∧ label' = (label.1, (step + 1) :: above) := by
  rintro r _ r' hends hr rfl
  obtain rfl := ends_modify.mp hends
  exact ⟨[], outputs_nil hr rfl rfl, rfl, by simp only [h]⟩

/-- The step prints no head and leaves the label as it is. -/
abbrev Quiet (bytes : List UInt8) (o : Options) (m : Disassembly α) : Prop :=
  ∀ label, Labels bytes o label m fun _ heads label' => heads = [] ∧ label' = label

theorem Quiet.bind (hm : Quiet bytes o m) (hf : ∀ a, Labels bytes o label (f a) post') :
    Labels bytes o label (m >>= f) post' := by
  refine labels_bind (hm label) fun a heads label' h => ?_
  obtain ⟨rfl, rfl⟩ := h
  exact hf a

theorem quiet_when {c : Prop} [Decidable c] {m : Disassembly Unit} {f : Unit → Disassembly β}
    (hm : Quiet bytes o m) (hf : Labels bytes o label (f ()) post') :
    Labels bytes o label (if c then m >>= f else f ()) post' := by
  split
  · exact hm.bind fun _ => hf
  · exact hf

theorem labels_of_prints {post : α → List Print → Nat → Prop} {r r' : Reading} {a : α}
    (hends : Ends m r a r') (hr : r.rest = bytes.drop r.offset) (hstays : Stays m)
    (hm : PrintsAt bytes o r.offset m post) :
    ∃ es, Outputs bytes o r es r' ∧ post a es r'.offset ∧ (r'.begun, r'.path) = (r.begun, r.path) := by
  obtain ⟨es, hout, hpost⟩ := hm r hr rfl
  rw [hends] at hout hpost
  obtain ⟨hbegun, hpath⟩ := hstays r a r' hends
  exact ⟨es, hout, hpost a rfl, by rw [hbegun, hpath]⟩

theorem quiet_of_yields {post : α → List Item → Encoding → Prop} (hstays : Stays m)
    (hm : Yields bytes o m post)
    (hpost : ∀ a items exact, post a items exact → ∀ p, .head p ∉ items) : Quiet bytes o m := by
  rintro _ r a r' hends hr rfl
  obtain ⟨es, hout, ⟨exact, -, hitems⟩, hlabel⟩ := labels_of_prints hends hr hstays (hm r.offset)
  exact ⟨es, hout, headsOf_eq_nil (hpost a _ exact hitems), hlabel⟩

theorem quiet_writeRecord (x : Record) : Quiet bytes o (writeLine x.line) := by
  rintro _ r a r' hends hr rfl
  obtain ⟨es, hout, ⟨-, hitems, -⟩, hlabel⟩ := labels_of_prints hends hr (stays_writeLine _)
    (lists_writeLine (.record x) rfl trivial r.offset)
  exact ⟨es, hout, headsOf_eq_nil (hitems ▸ by simp [shownItems, Print.item?]), hlabel⟩

/-! ### Functions -/

theorem stays_readOwn (o : Options) (order : Enumeration) (source : Option String) (offset : Nat) :
    Stays (readOwn o order source offset) := by
  have hlisted : ∀ ks : List Constant, Stays (forIn ks.zipIdx PUnit.unit fun p _ => do
      writeLine (constantLine p.1 p.2)
      pure (ForInStep.yield PUnit.unit)) := fun ks =>
    (blind_forIn (fun _ _ => (blind_writeLine _).bind fun _ => blind_pure _) _ _).stays
  have hconstants : Stays (readConstants o) := by
    refine (onlyReads_readList onlyReads_readConstant).stays.bind fun ks => ?_
    exact stays_when (hlisted ks) (stays_pure ks)
  have hrest : Stays (do
      let code ← readCode
      let ks ← readConstants o
      let descriptions ← code.mapM fun (w : Nat) => (Description.ofWord ks w : Except Fault _)
      let lines ← annotate o order (codeLines descriptions)
      writeCode o offset code lines
      return (code, ks)) := by
    refine onlyReads_readCode.stays.bind fun code => hconstants.bind fun ks => Blind.stays ?_
    refine (blind_mapM (fun w => blind_liftM _) code).bind fun ds => ?_
    exact (blind_annotate o order _).bind fun ls => (blind_writeCode o offset code ls).bind fun _ =>
      blind_pure _
  cases source with
  | none => exact hrest
  | some name =>
    exact stays_when (f := fun _ => _) (stays_writeLine _) hrest

theorem head_not_mem_sourceItems (source : Option String) (p : Parameters) :
    Item.head p ∉ sourceItems source := by
  cases source with
  | none => simp [sourceItems]
  | some name =>
    rw [sourceItems]
    split <;> simp

theorem labels_head_bind {source : Option String} {p : Parameters}
    {f : List Nat × List Constant → Disassembly β} (hf : ∀ own, Labels bytes o label (f own)
      fun b heads label' => post' b ((label.1, label.2.reverse, p) :: heads) label') :
    Labels bytes o label (do
      let r ← get
      writeLine ("\n" ++ functionLine r.begun r.path.reverse p)
      readOwn o .ascending source (r.offset + 4) >>= f) post' := by
  rintro r b r' h hr rfl
  rw [Ends, run_get_bind] at h
  obtain ⟨_, r₁, hhead, h⟩ := ends_bind.mp h
  obtain ⟨own, r₂, hown, hrest⟩ := ends_bind.mp h
  have hprints : PrintsAt bytes o r.offset (writeLine ("\n" ++ functionLine r.begun r.path.reverse p))
      fun _ es _ => es = [.head r.begun r.path.reverse p] :=
    printsAt_writeLine (e := .head _ _ p) rfl trivial rfl
  obtain ⟨_, hout, rfl, hlabel⟩ := labels_of_prints hhead hr (stays_writeLine _) hprints
  have hoffset : r₁.offset = r.offset := by
    rw [ends_modify.mp hhead]
    split <;> rfl
  rw [← hoffset] at hown
  obtain ⟨es, hout₁, ⟨exact, -, hitems, -⟩, hlabel₁⟩ := labels_of_prints hown hout.rest
    (stays_readOwn _ _ _ _) (yieldsAt_readOwn source)
  have hnone : headsOf es = [] := headsOf_eq_nil fun p => by
    simp [hitems, head_not_mem_sourceItems, constantItems]
  obtain ⟨es', hout₂, hpost⟩ := hf own r₂ b r' hrest hout₁.rest (hlabel₁.trans hlabel)
  refine ⟨_, (hout.trans hout₁).trans hout₂, ?_⟩
  rwa [headsOf, filterMap_append, filterMap_append, ← headsOf, ← headsOf, hnone]

/-- A head as it is printed: the number, the path behind the steps above, and the parameters. -/
def headAt (above : List Nat) (x : (List Nat × Function) × Nat) : Nat × List Nat × Parameters :=
  (x.2, above ++ x.1.1, x.1.2.parameters)

/-- **Functions one after the other**, each of which prints the heads of its tree and counts up the last
step of the path. -/
theorem labels_repeated {m : Disassembly Function}
    (hm : ∀ begun i above, Labels bytes o (begun, i :: above) m fun f heads label' =>
      heads = (f.preorder.zipIdx begun).map (headAt (i :: above).reverse) ∧
        label' = (begun + f.preorder.length, (i + 1) :: above)) (n begun i : Nat)
    (above : List Nat) :
    Labels bytes o (begun, i :: above) (repeated m n) fun fs heads label' =>
      heads = ((preorderAll i fs).zipIdx begun).map (headAt above.reverse) ∧
        label'.1 = begun + (preorderAll i fs).length ∧ label'.2.drop 1 = above := by
  induction n generalizing begun i with
  | zero => exact labels_pure ⟨rfl, rfl, rfl⟩
  | succ n ih =>
    refine labels_bind (hm begun i above) fun f heads label' hf => ?_
    obtain ⟨rfl, rfl⟩ := hf
    refine labels_bind (ih _ _) fun rest heads' label' hrest => labels_pure ?_
    obtain ⟨rfl, hbegun, hpath⟩ := hrest
    have hstep : headAt above.reverse ∘ Prod.map (fun x => (i :: x.1, x.2)) id =
        headAt (i :: above).reverse := by
      funext x
      simp [headAt]
    refine ⟨?_, ?_, hpath⟩
    · rw [preorderAll, zipIdx_append, map_append, zipIdx_map, map_map, length_map, hstep, append_nil]
    · rw [hbegun, preorderAll, length_append, length_map, Nat.add_assoc]

/-- **A function** prints the heads of its tree in preorder. The induction is on the depth to which
functions are nested. -/
theorem labels_readFunction (depth begun i : Nat) (above : List Nat) :
    Labels bytes o (begun, i :: above) (readFunction o .ascending depth) fun f heads label' =>
      heads = (f.preorder.zipIdx begun).map (headAt (i :: above).reverse) ∧
        label' = (begun + f.preorder.length, (i + 1) :: above) := by
  induction depth generalizing begun i above with
  | zero =>
    intro r f r' h
    cases h
  | succ depth ih =>
    rw [readFunction_parts]
    refine (quiet_of_yields onlyReads_readText.stays finds_readText (by simp +contextual)).bind
      fun source => ?_
    refine (quiet_of_yields onlyReads_readParameters.stays finds_readParameters
      (by simp +contextual)).bind fun p => labels_head_bind fun own => ?_
    refine labels_bind labels_enterInner fun _ heads label' henter => ?_
    obtain ⟨rfl, rfl⟩ := henter
    refine (quiet_of_yields onlyReads_readWord.stays finds_readWord (by simp +contextual)).bind
      fun count => quiet_when (quiet_writeRecord (.count count)) ?_
    refine labels_bind (labels_repeated ih count _ _ _) fun inner heads label' hinner => ?_
    obtain ⟨rfl, hbegun, hpath⟩ := hinner
    refine labels_bind (labels_leaveInner hpath) fun _ heads label'' hleave => ?_
    obtain ⟨rfl, rfl⟩ := hleave
    refine (quiet_of_yields stays_readDebug yields_readDebug ?_).bind fun debug => labels_pure ⟨?_, ?_⟩
    · rintro debug items exact ⟨rfl, -⟩ p
      simp [debugItems]
    · simp only [Function.preorder, zipIdx_cons, map_cons, nil_append, append_nil, headAt,
        Function.parameters]
    · rw [hbegun, Function.preorder, length_cons, Nat.add_right_comm, Nat.add_assoc]

/-! ### Labels -/

theorem numbersIn_functionLabel (begun : Nat) (path : List Nat) :
    numbersIn (functionLabel begun path).toList = begun :: path := by
  have hcons : ∀ c (cs : List Char), isDigit c = false → numbersIn (c :: cs) = numbersIn cs :=
    fun c cs hc => numbersIn_append hc [] cs
  have hsteps : numbersIn ((joinWith ", " (path.map decimal)).toList ++ [']']) = path := by
    induction path with
    | nil => rfl
    | cons step path ih =>
      cases path with
      | nil =>
        rw [map_singleton, joinWith, numbersIn_append (by decide), numbersIn_decimal]
        rfl
      | cons next path =>
        have hjoin : (joinWith ", " ((step :: next :: path).map decimal)).toList ++ [']'] =
            (decimal step).toList ++
              ',' :: ' ' :: ((joinWith ", " ((next :: path).map decimal)).toList ++ [']']) := by
          simp [joinWith]
        rw [hjoin, numbersIn_append (by decide), hcons _ _ (by decide), ih, numbersIn_decimal]
        rfl
  have hlabel : (functionLabel begun path).toList = '[' :: ((decimal begun).toList ++
      ':' :: ' ' :: ((joinWith ", " (path.map decimal)).toList ++ [']'])) := by
    simp [functionLabel]
  rw [hlabel, hcons _ _ (by decide), numbersIn_append (by decide), hcons _ _ (by decide), hsteps,
    numbersIn_decimal]
  rfl

/-- The labels in the heads among printed pieces. -/
def labelsOf (es : List Print) : List String :=
  (headsOf es).map fun x => functionLabel x.1 x.2.1

/-- The function tree that labels tell of: their depths spell it. -/
def treeOf? (labels : List String) : Option Outline :=
  ((labels.map fun label => (numbersIn label.toList).length).foldr hang []).head?.map (·.2)

/-- **Labels are number and path.** A chunk that is disassembled without fault, with any options, is
printed with one head for each function of its tree, in preorder. The label in a head has the number of
heads before it, and `0` followed by the steps on the way from the root to the function. No two labels are
equal, and the tree can be rebuilt from them. -/
theorem labels_of_disassemble (o : Options) (onConsole : Bool) (bytes : List UInt8) (f : Function)
    (h : (disassemble o onConsole bytes).result = .ok f) :
    ∃ es, (disassemble o onConsole bytes).shown onConsole = textOf o es ∧ (∀ e ∈ es, e.Holds bytes) ∧
      headsOf es = f.preorder.zipIdx.map (fun x => (x.2, 0 :: x.1.1, x.1.2.parameters)) ∧
      (∀ way g, (way, g) ∈ f.preorder ↔ f.at? way = some g) ∧
      (labelsOf es).Nodup ∧ treeOf? (labelsOf es) = some f.outline := by
  obtain ⟨r, hends⟩ := ends_of_disassemble h
  obtain ⟨-, hfunction⟩ := ends_readChunk.mp hends
  obtain ⟨es, hout, hheads, -⟩ := labels_readFunction _ 0 0 [] _ f r hfunction rfl rfl
  have htext : r.shown = textOf o es := hout.shown.trans (by simp [Reading.shown])
  have hlabels : labelsOf es = f.preorder.zipIdx.map fun x => functionLabel x.2 (0 :: x.1.1) := by
    rw [labelsOf, hheads, map_map]
    rfl
  refine ⟨es, ?_, hout.holds, hheads, fun way g => mem_preorder_iff f (way, g), ?_, ?_⟩
  · rw [disassemble_of_ends hends, ← htext, Reading.shown, hout.onConsole]
    rfl
  · -- the labels begin with the numbers of the heads
    have hnumbers : (labelsOf es).map (fun label => (numbersIn label.toList).head?) =
        (range' 0 f.preorder.length).map some := by
      rw [hlabels, ← zipIdx_map_snd, map_map, map_map]
      refine map_congr_left fun x _ => ?_
      rw [Function.comp_apply, numbersIn_functionLabel, head?_cons, Function.comp_apply]
    refine Nodup.of_map (fun label => (numbersIn label.toList).head?) (hnumbers ▸ ?_)
    exact (nodup_range' _).map (Option.some_injective Nat)
  · have hdepths : (labelsOf es).map (fun label => (numbersIn label.toList).length) =
        f.preorder.map fun x => 2 + x.1.length := by
      rw [hlabels, map_map, ← zipIdx_map_fst 0 f.preorder, map_map, zipIdx_map_fst]
      refine map_congr_left fun x _ => ?_
      rw [Function.comp_apply, numbersIn_functionLabel, Function.comp_apply, Nat.add_comm]
      rfl
    rw [treeOf?, hdepths, foldr_hang f 2 [] (by simp)]
    rfl

/-- A function with two inner functions, the first of which has one of its own. -/
def threeLevels : Function :=
  let leaf : Function := .mk none ⟨0, 0, 0, 0, 0, 2⟩ [plainReturn] [] [] {}
  .mk none ⟨0, 0, 0, 0, 2, 2⟩ [plainReturn] []
    [.mk none ⟨1, 1, 0, 0, 0, 2⟩ [plainReturn] [] [leaf] {}, leaf] {}

/-- The tree of functions is read off its four labels. -/
theorem labels_of_disassemble_threeLevels :
    (disassemble {} true (encodeChunk threeLevels)).result = .ok threeLevels ∧
    ∃ es, (disassemble {} true (encodeChunk threeLevels)).console = textOf {} es ∧
      labelsOf es = ["[0: 0]", "[1: 0, 0]", "[2: 0, 0, 0]", "[3: 0, 1]"] ∧
      treeOf? (labelsOf es) = some (.mk [.mk [.mk []], .mk []]) := by
  have hok : (disassemble {} true (encodeChunk threeLevels)).result = .ok threeLevels := by
    decide +kernel
  obtain ⟨es, hshown, -, hheads, -, -, htree⟩ := labels_of_disassemble {} true _ _ hok
  exact ⟨hok, es, hshown, by rw [labelsOf, hheads]; decide +kernel, htree⟩

end ApkWorkshop.Listing
