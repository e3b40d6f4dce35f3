import ApkWorkshop.Proofs.PassTurns

/-!
# Passes in Any Order

An `Enumeration` chooses the order in which the passes over a function body take the lines of their sets.
The turns of a pass add up to the same in any order, apart from the order in which loops, conditions
and alternatives are found, and from the order of marks at one place. Only one pass can put different
marks at one place: a line may be the start of a repetition and of another loop.
-/

namespace ApkWorkshop.Listing

open Bytecode List Position Shape

variable {length place : Nat} {lines : List CodeLine} {e : Edit} {places xs : List Nat} {s : Shape}
  {ts : List Turn}

/-! ### Outcomes up to a relation -/

section Outcome

variable {α β γ δ : Type} {R : α → β → Prop} {S : γ → δ → Prop} {x : Option α} {y : Option β}
  {f : α → Option β} {xs : List α} {ys : List β}

theorem rel_bind (h : Option.Rel R x y) {f : α → Option γ} {g : β → Option δ}
    (hfg : ∀ a b, x = some a → R a b → Option.Rel S (f a) (g b)) :
    Option.Rel S (x.bind f) (y.bind g) := by
  cases h with
  | none => exact .none
  | some hab => exact hfg _ _ rfl hab

theorem rel_map (h : Option.Rel R x y) {f : α → γ} {g : β → δ}
    (hfg : ∀ a b, x = some a → R a b → S (f a) (g b)) : Option.Rel S (x.map f) (y.map g) := by
  cases h with
  | none => exact .none
  | some hab => exact .some (hfg _ _ rfl hab)

theorem mapM_perm (f : α → Option β) {ys : List α} (h : xs.Perm ys) :
    Option.Rel List.Perm (xs.mapM f) (ys.mapM f) := by
  induction h with
  | nil => exact .some .nil
  | cons x _ ih =>
    rw [mapM_cons, mapM_cons]
    exact rel_bind (R := Eq) (by cases f x <;> constructor; rfl) fun b _ _ hb => hb ▸
      rel_bind ih fun _ _ _ hperm => .some (hperm.cons b)
  | swap x y xs =>
    simp only [mapM_cons]
    cases f x with
    | none => cases f y <;> exact .none
    | some a =>
      cases f y with
      | none => exact .none
      | some b =>
        cases xs.mapM f with
        | none => exact .none
        | some cs => exact .some (.swap a b cs)
  | @trans xs ys zs _ _ ih₁ ih₂ =>
    generalize xs.mapM f = x, ys.mapM f = y, zs.mapM f = z at ih₁ ih₂ ⊢
    cases ih₁ with
    | none => exact ih₂
    | some h₁ =>
      cases ih₂ with
      | some h₂ => exact .some (h₁.trans h₂)

theorem mapM_eq_some_iff :
    xs.mapM f = some ys ↔ xs.map f = ys.map some := by
  induction xs generalizing ys with
  | nil => cases ys <;> simp
  | cons x xs ih =>
    rw [mapM_cons, map_cons]
    cases ys with
    | nil => cases f x <;> cases xs.mapM f <;> simp
    | cons y ys =>
      rw [map_cons, List.cons.injEq, ← ih]
      cases f x <;> cases xs.mapM f <;> simp

theorem exists_of_mapM (h : xs.mapM f = some ys) {y : β} (hy : y ∈ ys) : ∃ x ∈ xs, f x = some y :=
  mem_map.mp (mapM_eq_some_iff.mp h ▸ mem_map_of_mem hy)

theorem mem_of_mapM (h : xs.mapM f = some ys) {x : α} (hx : x ∈ xs) : ∃ y ∈ ys, f x = some y := by
  have hmem : f x ∈ ys.map some := mapM_eq_some_iff.mp h ▸ mem_map_of_mem hx
  obtain ⟨y, hy, heq⟩ := mem_map.mp hmem
  exact ⟨y, hy, heq.symm⟩

end Outcome

/-! ### Places -/

theorem succ_of_resolve?_last (h : resolve? length (-1) = some place) : place + 1 = length := by
  simp only [resolve?, Int.reduceNeg, Int.reduceLE, if_false, Int.reduceToNat,
    Option.ite_none_right_eq_some, Option.some.injEq] at h
  omega

theorem get?_natCast {α : Type} (items : List α) (i : Nat) : get? items (i : Int) = items[i]? := by
  rw [get?]
  cases hplace : resolve? items.length (i : Int) with
  | none =>
    refine (getElem?_eq_none (not_lt.mp fun hi => ?_)).symm
    rw [resolve?_natCast.mpr ⟨hi, rfl⟩] at hplace
    cases hplace
  | some place =>
    obtain ⟨-, rfl⟩ := resolve?_natCast.mp hplace
    rfl

theorem mem_placesOf {flow : Flow} {i : Nat} :
    i ∈ placesOf flow lines ↔ ∃ target, get? (ways lines) (i : Int) = some (flow, target) := by
  simp only [placesOf, mem_map, mem_filter, Prod.exists, mem_zipIdx_iff_getElem?,
    exists_eq_right, get?_natCast, ways, getElem?_map, Option.map_eq_some_iff, beq_iff_eq]
  constructor
  · rintro ⟨l, hl, rfl⟩
    exact ⟨l.target, l, hl, rfl⟩
  · rintro ⟨target, l, hl, hway⟩
    exact ⟨l, hl, congrArg Prod.fst hway⟩

theorem nodup_placesOf (flow : Flow) (lines : List CodeLine) : (placesOf flow lines).Nodup := by
  have hall : (lines.zipIdx.map (·.2)).Nodup := by
    rw [zipIdx_map_snd]
    exact nodup_range'
  exact hall.sublist (filter_sublist.map _)

/-! ### Marks -/

/-- The edit shifts an indent by `least` or more, or it puts a mark of `M` before a text. -/
def Edit.Marks (least : Int) (M : Nat → String → Prop) (e : Edit) : Prop :=
  match e.change with
  | .shift n => least ≤ n
  | .mark m => M e.place m
  | .comment _ => False

variable {H : Prop} {least : Int} {M : Nat → String → Prop} {m : String}
  {ws : List (Flow × Option Int)} {i : Nat} {t : Turn}

theorem Edit.Marks.agrees (hM : H → ∀ place m m', M place m → M place m' → m = m') {f : Edit}
    (he : e.Marks least M) (hf : f.Marks least M) : e.Agrees H f := by
  obtain ⟨place, c⟩ := e
  obtain ⟨place', d⟩ := f
  rintro rfl
  cases c <;> cases d <;> try trivial
  exact fun hH => hM hH place _ _ he hf

theorem Edit.Marks.mono {M' : Nat → String → Prop} (he : e.Marks least M)
    (h : ∀ place m, M place m → M' place m) : e.Marks least M' := by
  obtain ⟨place, c⟩ := e
  cases c with
  | shift | comment => exact he
  | mark m => exact h place m he

theorem marks_shifts (h : least ≤ 1) (he : e ∈ shifts places) : e.Marks least M := by
  obtain ⟨place, -, rfl⟩ := mem_map.mp he
  exact h

theorem marks_shifts_mark (hm : M place m) :
    ∀ e ∈ shifts places ++ [⟨place, .mark m⟩], e.Marks 0 M := by
  intro e he
  rcases mem_append.mp he with he | he
  · exact marks_shifts (by decide) he
  · obtain rfl := mem_singleton.mp he
    exact hm

/-- The turn finds no condition, and its edits shift indents or put marks of `M`. -/
def Turn.Marks (least : Int) (M : Nat → String → Prop) (t : Turn) : Prop :=
  t.conditions = [] ∧ ∀ e ∈ t.edits, e.Marks least M

theorem marks_of_forLoopTurn (h : forLoopTurn? ws i = some t) : t.Marks 0 fun _ _ => False := by
  obtain ⟨j, inside, rfl⟩ := eq_of_forLoopTurn h
  exact ⟨rfl, fun e he => marks_shifts (by decide) he⟩

theorem marks_of_forInTurn (h : forInTurn? ws i = some t) : t.Marks 0 fun _ m => m = "TFOR:  " := by
  obtain ⟨back, j, inside, entrance, -, rfl⟩ := eq_of_forInTurn h
  exact ⟨rfl, marks_shifts_mark rfl⟩

/-- The loop that ends with the jump at a place, if one does: where it starts, and is it a repetition?
The jump behind an iterator belongs to the loop over that. -/
def loopEnd? (ws : List (Flow × Option Int)) (i : Nat) : Option (Nat × Bool) := do
  let l ← Position.get? ws i
  let before ← Position.get? ws (i - 1)
  require? (l.1 == .jump && before.1 != .forIn)
  let j ← l.2
  require? (j ≤ i)
  let start ← Position.resolve? ws.length j
  return (start, before.1 == .branch)

def loopEnds (ws : List (Flow × Option Int)) : List (Nat × Bool) :=
  (List.range ws.length).filterMap (loopEnd? ws)

/-- No line is the start both of a repetition and of another loop that ends with a jump back. -/
def OneKind (ws : List (Flow × Option Int)) : Prop :=
  ∀ p ∈ loopEnds ws, ∀ q ∈ loopEnds ws, p.1 = q.1 → p.2 = q.2

instance (ws : List (Flow × Option Int)) : Decidable (OneKind ws) :=
  inferInstanceAs (Decidable (∀ p ∈ loopEnds ws, ∀ q ∈ loopEnds ws, p.1 = q.1 → p.2 = q.2))

/-- The place holds a jump that does not stand behind an iterator. -/
def FreeJump (ws : List (Flow × Option Int)) (i : Nat) : Prop :=
  (∃ target, Position.get? ws i = some (.jump, target)) ∧
    ∀ target, Position.get? ws (i - 1) ≠ some (.forIn, target)

theorem marks_of_backJumpTurn (h : backJumpTurn? ws i = some t) : t.Marks 0 fun start m =>
    ∃ repeats, (FreeJump ws i → (start, repeats) ∈ loopEnds ws) ∧ m = loopMark repeats := by
  obtain ⟨hconditions, hnone | ⟨l, before, j, inside, start, hl, hj, hback, hbefore, hstart, hedits⟩⟩ :=
    edits_of_backJumpTurn h
  · exact ⟨hconditions, by simp [hnone]⟩
  refine ⟨hconditions, hedits ▸ marks_shifts_mark ⟨_, fun hfree => ?_, rfl⟩⟩
  obtain ⟨⟨target, hjump⟩, hother⟩ := hfree
  obtain rfl := Option.some.inj (hl.symm.trans hjump)
  obtain rfl : target = some j := hj
  have hfor : before.1 ≠ .forIn := fun heq => hother before.2 (heq ▸ hbefore)
  have hend : loopEnd? ws i = some (start, before.1 == .branch) := by
    simp [loopEnd?, hl, hbefore, hfor, hstart, hback, require?]
  rw [get?_natCast] at hl
  exact mem_filterMap.mpr ⟨i, mem_range.mpr (List.getElem?_eq_some_iff.mp hl).1, hend⟩

theorem marks_of_breakOfTurn {loop : Int × Int} (h : breakOfTurn? ws i loop = some t) :
    t.Marks 0 fun _ m => m = "BREAK: " := by
  obtain ⟨-, hconditions, hedits⟩ := edits_of_breakOfTurn h
  refine ⟨hconditions, fun e he => ?_⟩
  obtain ⟨place, rfl⟩ := hedits e he
  rfl

theorem marks_of_conditionTurn (h : conditionTurn? ws i = some t) :
    ∀ e ∈ t.edits, e.Marks 0 fun _ _ => False := by
  obtain ⟨_, _, _, -, -, -, rfl⟩ := eq_of_conditionTurn h
  exact fun e he => marks_shifts (by decide) he

theorem marks_of_alternativeTurn {conditions : List (Nat × Int)}
    (h : alternativeTurn? ws conditions i = some t) :
    t.Marks (-1) fun place m => alternativeMark? ws conditions place = some m := by
  obtain ⟨hconditions, m, inside, hm, hedits⟩ := edits_of_alternativeTurn h
  refine ⟨hconditions, fun e he => ?_⟩
  rw [hedits] at he
  rcases mem_append.mp he with he | he
  · obtain ⟨c, hc, rfl⟩ := mem_map.mp he
    have hchange : c = .shift (-1) ∨ c = .mark m := by
      rw [markChanges] at hc
      split at hc <;> simp_all
    rcases hchange with rfl | rfl
    · exact le_refl (-1)
    · exact hm
  · exact marks_shifts (by decide) he

/-! ### Shapes up to order -/

/-- The shapes are the same, up to the order in which loops, conditions and alternatives were found,
and up to texts unless `H` holds. -/
structure Shape.Same (H : Prop) (s s' : Shape) : Prop where
  lines : SameLines H s.lines s'.lines
  loops : s.loops.Perm s'.loops
  conditions : s.conditions.Perm s'.conditions
  forStarts : s.forStarts = s'.forStarts
  forEnds : s.forEnds = s'.forEnds
  forIns : s.forIns = s'.forIns
  jumps : s.jumps = s'.jumps
  branches : s.branches = s'.branches
  skips : s.skips = s'.skips
  elses : s.elses.Perm s'.elses

section Same

variable {s s' : Shape}

theorem Shape.Same.refl (s : Shape) : Shape.Same H s s :=
  ⟨SameLines.refl _, .refl _, .refl _, rfl, rfl, rfl, rfl, rfl, rfl, .refl _⟩

theorem Shape.Same.enter (h : Shape.Same H s s') {ts us : List Turn} (hts : ts.Perm us)
    (hagree : ∀ e ∈ (Turn.sum ts).edits, ∀ f ∈ (Turn.sum ts).edits, e.Agrees H f) :
    Shape.Same H (s.enter (Turn.sum ts)) (s'.enter (Turn.sum us)) where
  lines := h.lines.editAll (hts.flatMap_right _) hagree
  loops := h.loops.append (hts.flatMap_right _)
  conditions := h.conditions.append (hts.flatMap_right _)
  forStarts := by
    simp only [Shape.enter, h.forStarts]
    exact withoutAll_perm _ (hts.flatMap_right _)
  forEnds := by
    simp only [Shape.enter, h.forEnds]
    exact withoutAll_perm _ (hts.flatMap_right _)
  forIns := by
    simp only [Shape.enter, h.forIns]
    exact withoutAll_perm _ (hts.flatMap_right _)
  jumps := by
    simp only [Shape.enter, h.jumps]
    exact withoutAll_perm _ (hts.flatMap_right _)
  branches := by
    simp only [Shape.enter, h.branches]
    exact withoutAll_perm _ (hts.flatMap_right _)
  skips := h.skips
  elses := h.elses.append (hts.flatMap_right _)

/-- **A pass in any order** makes the same shape, if the marks that it puts at one place are the same
whenever `H` holds. -/
theorem Shape.Same.turns (h : Shape.Same H s s') {α : Type} {turn? : α → Option Turn}
    (hM : H → ∀ place m m', M place m → M place m' → m = m') {as as' : List α} (has : as.Perm as')
    (hmarks : ∀ a ∈ as, ∀ t, turn? a = some t → ∀ e ∈ t.edits, e.Marks least M) :
    Option.Rel (Shape.Same H) ((as.mapM turn?).map fun ts => s.enter (Turn.sum ts))
      ((as'.mapM turn?).map fun ts => s'.enter (Turn.sum ts)) := by
  refine rel_map (mapM_perm turn? has) fun ts us hts hperm => h.enter hperm ?_
  have hsum : ∀ e ∈ (Turn.sum ts).edits, e.Marks least M := by
    intro e he
    obtain ⟨t, ht, he⟩ := mem_flatMap.mp he
    obtain ⟨a, ha, hturn⟩ := exists_of_mapM hts ht
    exact hmarks a ha t hturn e he
  exact fun e he f hf => Edit.Marks.agrees hM (hsum e he) (hsum f hf)

/-! ### The passes -/

variable {xs xs' : List Nat}

theorem Shape.Same.takeForLoops (h : Shape.Same H s s') (hxs : xs.Perm xs') :
    Option.Rel (Shape.Same H) (xs.foldlM takeForLoop s).toOption
      (xs'.foldlM takeForLoop s').toOption := by
  rw [foldlM_takeForLoop, foldlM_takeForLoop, h.lines.ways_eq]
  exact h.turns (M := fun _ _ => False) (fun _ _ _ _ => False.elim) hxs
    fun i _ t ht => (marks_of_forLoopTurn ht).2

theorem Shape.Same.takeForIns (h : Shape.Same H s s') (hxs : xs.Perm xs') :
    Option.Rel (Shape.Same H) (xs.foldlM takeForIn s).toOption
      (xs'.foldlM takeForIn s').toOption := by
  rw [foldlM_takeForIn, foldlM_takeForIn, h.lines.ways_eq]
  exact h.turns (M := fun _ m => m = "TFOR:  ") (fun _ _ _ _ hm hm' => hm.trans hm'.symm) hxs
    fun i _ t ht => (marks_of_forInTurn ht).2

theorem Shape.Same.takeBackJumps (hways : ways s.lines = ws) (h : Shape.Same (OneKind ws) s s')
    (hxs : xs.Perm xs') (hother : ∀ i ∈ xs, FreeJump ws i) :
    Option.Rel (Shape.Same (OneKind ws)) (xs.foldlM takeBackJump s).toOption
      (xs'.foldlM takeBackJump s').toOption := by
  rw [foldlM_takeBackJump, foldlM_takeBackJump, ← h.lines.ways_eq, hways]
  refine h.turns (M := fun start m => ∃ repeats, (start, repeats) ∈ loopEnds ws ∧ m = loopMark repeats)
    (fun hone start m m' hm hm' => ?_) hxs fun i hi t ht e he =>
      ((marks_of_backJumpTurn ht).2 e he).mono fun _ _ ⟨repeats, hmem, hm⟩ =>
        ⟨repeats, hmem (hother i hi), hm⟩
  obtain ⟨repeats, hmem, rfl⟩ := hm
  obtain ⟨repeats', hmem', rfl⟩ := hm'
  exact congrArg loopMark (hone _ hmem _ hmem' rfl)

theorem Shape.Same.takeBreaks (h : Shape.Same H s s') (hxs : xs.Perm xs') :
    Option.Rel (Shape.Same H) (xs.foldlM takeBreak s).toOption
      (xs'.foldlM takeBreak s').toOption := by
  rw [foldlM_takeBreak, foldlM_takeBreak, h.lines.ways_eq]
  exact h.turns (M := fun _ m => m = "BREAK: ") (fun _ _ _ _ hm hm' => hm.trans hm'.symm)
    (hxs.product h.loops) fun p _ t ht => (marks_of_breakOfTurn ht).2

theorem Shape.Same.takeConditions (h : Shape.Same H s s') (hxs : xs.Perm xs') (hnodup : xs.Nodup) :
    Option.Rel (Shape.Same H) (xs.foldlM takeCondition s).toOption
      (xs'.foldlM takeCondition s').toOption := by
  rw [foldlM_takeCondition hnodup, foldlM_takeCondition (hxs.nodup hnodup), h.lines.ways_eq, h.jumps,
    hxs.all_eq]
  cases require? (xs'.all fun i => s'.jumps.contains (i + 1)) with
  | none => exact .none
  | some _ =>
    exact h.turns (M := fun _ _ => False) (fun _ _ _ _ => False.elim) hxs
      fun i _ t ht => marks_of_conditionTurn ht

theorem Shape.Same.takeAlternatives (h : Shape.Same H s s') (hxs : xs.Perm xs') :
    Option.Rel (Shape.Same H) (xs.foldlM takeAlternative s).toOption
      (xs'.foldlM takeAlternative s').toOption := by
  have hends : endsAt s.conditions = endsAt s'.conditions := funext fun _ => h.conditions.any_eq
  have hturn : alternativeTurn? (ways s.lines) s.conditions =
      alternativeTurn? (ways s'.lines) s'.conditions := by
    funext i
    simp only [alternativeTurn?, loadsTruths?, hends, h.lines.ways_eq]
  rw [foldlM_takeAlternative, foldlM_takeAlternative, hturn]
  refine h.turns (fun _ place m m' hm hm' => ?_) hxs fun i _ t ht => (marks_of_alternativeTurn ht).2
  exact Option.some.inj (hm.symm.trans hm')

end Same

/-! ### All passes -/

/-- Every pass takes each line of its set once. -/
structure Enumeration.Permutes (order : Enumeration) : Prop where
  forLoops : ∀ places, (order.forLoops places).Perm places
  forIns : ∀ places, (order.forIns places).Perm places
  backJumps : ∀ places, (order.backJumps places).Perm places
  breaks : ∀ places, (order.breaks places).Perm places
  conditions : ∀ places, (order.conditions places).Perm places
  alternatives : ∀ places, (order.alternatives places).Perm places

theorem forIns_of_takeForLoops (hts : xs.mapM (forLoopTurn? ws) = some ts) :
    (s.enter (Turn.sum ts)).forIns = s.forIns := by
  have hnone : (Turn.sum ts).forIns = [] := by
    refine flatMap_eq_nil_iff.mpr fun t ht => ?_
    obtain ⟨i, -, hturn⟩ := exists_of_mapM hts ht
    obtain ⟨j, inside, rfl⟩ := eq_of_forLoopTurn hturn
    rfl
  rw [Shape.enter, hnone, withoutAll_nil]

theorem freeJump_of_takeForIns (hjumps : s.jumps ⊆ placesOf .jump lines)
    (hxs : xs.Perm (placesOf .forIn lines)) (hts : xs.mapM (forInTurn? (ways lines)) = some ts) :
    ∀ i ∈ (s.enter (Turn.sum ts)).jumps, FreeJump (ways lines) i := by
  -- every iterator has had its turn
  have hturn : ∀ k target, get? (ways lines) (k : Nat) = some (.forIn, target) →
      ∃ t ∈ ts, forInTurn? (ways lines) k = some t := fun k target hk =>
    mem_of_mapM hts (hxs.symm.subset (mem_placesOf.mpr ⟨target, hk⟩))
  intro i hi
  obtain ⟨hi, hleft⟩ := mem_filter.mp hi
  refine ⟨mem_placesOf.mp (hjumps hi), fun target hbefore => ?_⟩
  cases i with
  | zero =>
    -- the line before the first is the last one, and no jump stands behind that
    obtain ⟨k, hk, hlast⟩ := Option.bind_eq_some_iff.mp hbefore
    obtain ⟨t, -, ht⟩ := hturn k target ((get?_natCast _ k).trans hlast)
    obtain ⟨back, _, _, _, hback, -⟩ := eq_of_forInTurn ht
    rw [← Nat.cast_succ, get?_natCast] at hback
    exact absurd (succ_of_resolve?_last hk) (List.getElem?_eq_some_iff.mp hback).1.ne
  | succ k =>
    rw [Nat.cast_succ, add_sub_cancel_right] at hbefore
    obtain ⟨t, ht, hk⟩ := hturn k target hbefore
    obtain ⟨_, _, _, _, -, rfl⟩ := eq_of_forInTurn hk
    have hmem : ((k + 1 : Nat) : Int) ∈ (Turn.sum ts).jumps :=
      mem_flatMap.mpr ⟨_, ht, by simp⟩
    simp only [contains_iff_mem.mpr hmem, Bool.not_true, Bool.false_eq_true] at hleft

theorem perm_of_enumerations {f g : List Nat → List Nat} (hf : ∀ places, (f places).Perm places)
    (hg : ∀ places, (g places).Perm places) {places' : List Nat} (h : places = places') :
    (f places).Perm (g places') :=
  h ▸ (hf places).trans (hg places).symm

/-- **The six passes in any order** succeed or fail alike, and find the same shape. -/
theorem same_ofLines {order order' : Enumeration} (h : order.Permutes) (h' : order'.Permutes)
    (lines : List CodeLine) :
    Option.Rel (Shape.Same (OneKind (ways lines))) (ofLines order lines).toOption
      (ofLines order' lines).toOption := by
  simp only [ofLines, toOption_bind, toOption_requireLoop]
  have h₀ : Shape.Same (OneKind (ways lines)) (start lines) (start lines) := .refl _
  refine rel_bind (h₀.takeForLoops (perm_of_enumerations h.forLoops h'.forLoops h₀.forStarts))
    fun s₁ s₁' hs₁ h₁ => ?_
  rw [foldlM_takeForLoop] at hs₁
  obtain ⟨ts₁, hts₁, rfl⟩ := Option.map_eq_some_iff.mp hs₁
  rw [h₁.forEnds]
  cases require? s₁'.forEnds.isEmpty with
  | none => exact .none
  | some _ =>
    refine rel_bind (h₁.takeForIns (perm_of_enumerations h.forIns h'.forIns h₁.forIns))
      fun s₂ s₂' hs₂ h₂ => ?_
    rw [foldlM_takeForIn, ways_enter] at hs₂
    obtain ⟨ts₂, hts₂, rfl⟩ := Option.map_eq_some_iff.mp hs₂
    have hiterators : ((start lines).enter (Turn.sum ts₁)).forIns = placesOf .forIn lines :=
      forIns_of_takeForLoops hts₁
    refine rel_bind (Shape.Same.takeBackJumps (by simp [start]) h₂
      (perm_of_enumerations h.backJumps h'.backJumps h₂.jumps) fun i hi => ?_)
      fun s₃ s₃' hs₃ h₃ => ?_
    · exact freeJump_of_takeForIns filter_sublist.subset (hiterators ▸ h.forIns _) hts₂ i
        ((h.backJumps _).subset hi)
    refine rel_bind (h₃.takeBreaks (perm_of_enumerations h.breaks h'.breaks h₃.jumps))
      fun s₄ s₄' hs₄ h₄ => ?_
    have hnodup : s₄.branches.Nodup := by
      rw [foldlM_takeBackJump] at hs₃
      obtain ⟨ts₃, -, rfl⟩ := Option.map_eq_some_iff.mp hs₃
      rw [foldlM_takeBreak] at hs₄
      obtain ⟨ts₄, -, rfl⟩ := Option.map_eq_some_iff.mp hs₄
      exact ((((nodup_placesOf .branch lines).filter _).filter _).filter _).filter _
    refine rel_bind (h₄.takeConditions (perm_of_enumerations h.conditions h'.conditions h₄.branches)
      ((h.conditions _).symm.nodup hnodup)) fun s₅ s₅' _ h₅ => ?_
    exact h₅.takeAlternatives (perm_of_enumerations h.alternatives h'.alternatives h₅.jumps)

end ApkWorkshop.Listing
