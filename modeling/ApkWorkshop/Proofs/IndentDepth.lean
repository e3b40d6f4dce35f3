import ApkWorkshop.Proofs.PrintedItems

/-!
# Indents Never Go Negative

All passes over a function body raise indents, except the last, which lowers the line of a jump that starts
the alternative of a condition. That is made up for by the condition: its body ends at the alternative, so
the line lies inside the body and was raised with it. The line is neither the branch of the condition nor
the jump behind it, since a jump that belongs to a condition is no longer there for the last pass.
-/

namespace ApkWorkshop.Listing

open Bytecode List Shape

variable {es : List Edit} {places xs : List Nat} {m : String} {ts : List Turn} {l : CodeLine}
  {conditions : List (Nat × Int)}

/-! ### Changes at one place -/

def changesAt (es : List Edit) (i : Nat) : List Change :=
  (es.filter (·.place == i)).map (·.change)

def changeAll (l : CodeLine) (cs : List Change) : CodeLine :=
  cs.foldl (fun l c => c.apply l) l

theorem changesAt_append (es es' : List Edit) (i : Nat) :
    changesAt (es ++ es') i = changesAt es i ++ changesAt es' i := by
  rw [changesAt, filter_append, map_append]
  rfl

theorem changeAll_append (l : CodeLine) (cs cs' : List Change) :
    changeAll l (cs ++ cs') = changeAll (changeAll l cs) cs' :=
  foldl_append

theorem mem_changesAt {c : Change} : c ∈ changesAt es i ↔ ⟨i, c⟩ ∈ es := by
  simp only [changesAt, mem_map, mem_filter, beq_iff_eq]
  constructor
  · rintro ⟨⟨place, change⟩, ⟨he, rfl⟩, rfl⟩
    exact he
  · intro h
    exact ⟨_, ⟨h, rfl⟩, rfl⟩

/-- **Edits at one place**: the line there is changed by the edits of that place, in their order. -/
theorem getElem?_editAll (ls : List CodeLine) (es : List Edit) (i : Nat) :
    (editAll ls es)[i]? = ls[i]?.map (changeAll · (changesAt es i)) := by
  induction es generalizing ls with
  | nil => simp [changesAt, changeAll]
  | cons e es ih =>
    have hfirst : (edit ls e)[i]? = ls[i]?.map (changeAll · (changesAt [e] i)) := by
      rw [edit]
      by_cases hplace : e.place = i
      · simp [changesAt, changeAll, hplace]
      · simp [changesAt, changeAll, hplace]
    calc (editAll (edit ls e) es)[i]?
      _ = (edit ls e)[i]?.map (changeAll · (changesAt es i)) := ih (edit ls e)
      _ = ls[i]?.map (changeAll · (changesAt ([e] ++ es) i)) := by
        rw [hfirst, Option.map_map, changesAt_append]
        simp only [Function.comp_def, changeAll_append]

def Change.rise : Change → Int
  | .shift n => n
  | _ => 0

theorem indent_changeAll (l : CodeLine) (cs : List Change) :
    (changeAll l cs).indent = l.indent + (cs.map Change.rise).sum := by
  induction cs generalizing l with
  | nil => simp [changeAll]
  | cons c cs ih =>
    have hfirst : (c.apply l).indent = l.indent + c.rise := by
      cases c <;> simp [Change.apply, Change.rise]
    calc (changeAll (c.apply l) cs).indent
      _ = (c.apply l).indent + (cs.map Change.rise).sum := ih (c.apply l)
      _ = l.indent + ((c :: cs).map Change.rise).sum := by
        rw [hfirst, map_cons, sum_cons, add_assoc]

/-! ### Bodies -/

theorem mem_placesFrom? {length first : Nat} {stop : Int}
    (h : placesFrom? length first stop = some places) :
    i ∈ places ↔ first ≤ i ∧ (i : Int) < stop := by
  have hposition : ∀ x, x ∈ positions first stop ↔ ∃ k : Nat, x = (first + k : Nat) ∧ x < stop := by
    intro x
    simp only [positions, mem_map, mem_range]
    constructor
    · rintro ⟨k, hk, rfl⟩
      exact ⟨k, by simp, by omega⟩
    · rintro ⟨k, rfl, hk⟩
      exact ⟨k, by omega, by simp⟩
  constructor
  · intro hi
    obtain ⟨x, hx, hresolve⟩ := exists_of_mapM h hi
    obtain ⟨k, rfl, hk⟩ := (hposition x).mp hx
    obtain ⟨-, rfl⟩ := resolve?_natCast.mp hresolve
    exact ⟨by omega, hk⟩
  · rintro ⟨hfirst, hstop⟩
    obtain ⟨k, rfl⟩ := Nat.exists_eq_add_of_le hfirst
    obtain ⟨y, hy, hresolve⟩ := mem_of_mapM h ((hposition _).mpr ⟨k, rfl, hstop⟩)
    obtain ⟨-, rfl⟩ := resolve?_natCast.mp hresolve
    exact hy

/-! ### Passes that raise -/

def Edit.Rises (e : Edit) : Prop := 0 ≤ e.change.rise

theorem Edit.Marks.rises {e : Edit} {M : Nat → String → Prop} (h : e.Marks 0 M) : e.Rises := by
  obtain ⟨place, c⟩ := e
  cases c with
  | shift n => exact h
  | mark m => exact le_refl 0
  | comment c => exact h.elim

variable {ws : List (Flow × Option Int)} {i : Nat} {t : Turn}

/-! ### Behind the first five passes -/

def findConditions (order : Enumeration) (lines : List CodeLine) : Except Fault Shape := do
  let s := Shape.start lines
  let s ← (order.forLoops s.forStarts).foldlM takeForLoop s
  requireLoop s.forEnds.isEmpty
  let s ← (order.forIns s.forIns).foldlM takeForIn s
  let s ← (order.backJumps s.jumps).foldlM takeBackJump s
  let s ← (order.breaks s.jumps).foldlM takeBreak s
  (order.conditions s.branches).foldlM takeCondition s

theorem ofLines_eq (order : Enumeration) (lines : List CodeLine) :
    ofLines order lines = findConditions order lines >>= fun s =>
      (order.alternatives s.jumps).foldlM takeAlternative s := by
  simp only [ofLines, findConditions, bind_assoc]

/-- What is true of a shape whose lines were only raised: the lines of every condition that was found are
raised from behind its jump up to where that leads, the jump is not left over, and no condition was found
twice. -/
structure Raised (lines : List CodeLine) (s : Shape) : Prop where
  edits : ∃ es, s.lines = editAll lines es ∧ (∀ e ∈ es, e.Rises) ∧
    ∀ c ∈ s.conditions, ∀ i : Nat, c.1 + 2 ≤ i → (i : Int) < c.2 → ⟨i, .shift 1⟩ ∈ es
  jumps : s.jumps.Sublist (placesOf .jump lines)
  branches : s.branches.Sublist (placesOf .branch lines)
  conditions : ∀ c ∈ s.conditions, (c.1 : Int) < c.2 ∧ c.1 ∈ placesOf .branch lines ∧
    (ways lines)[c.1 + 1]? = some (.jump, some c.2) ∧ c.1 + 1 ∉ s.jumps
  nodup : (s.conditions.map (·.1)).Nodup

variable {lines : List CodeLine} {s s' : Shape} {order : Enumeration}

theorem raised_start (lines : List CodeLine) : Raised lines (start lines) where
  edits := ⟨[], rfl, by simp, by simp [start]⟩
  jumps := .refl _
  branches := .refl _
  conditions := by simp [start]
  nodup := nodup_nil

theorem Raised.ways_eq (h : Raised lines s) : ways s.lines = ways lines := by
  obtain ⟨es, hes, -⟩ := h.edits
  rw [hes, ways_editAll]

theorem Raised.enter (h : Raised lines s) (hrises : ∀ e ∈ t.edits, e.Rises)
    (hfound : ∀ c ∈ t.conditions, ((c.1 : Int) < c.2 ∧ c.1 ∈ placesOf .branch lines ∧
      (ways lines)[c.1 + 1]? = some (.jump, some c.2)) ∧ ((c.1 + 1 : Nat) : Int) ∈ t.jumps ∧
      ∀ i : Nat, c.1 + 2 ≤ i → (i : Int) < c.2 → ⟨i, .shift 1⟩ ∈ t.edits)
    (hnodup : ((s.conditions ++ t.conditions).map (·.1)).Nodup) : Raised lines (s.enter t) := by
  obtain ⟨es, hes, hrises', hraised⟩ := h.edits
  refine ⟨⟨es ++ t.edits, ?_, forall_mem_append.mpr ⟨hrises', hrises⟩, fun c hc i hi hi' => ?_⟩,
    filter_sublist.trans h.jumps, filter_sublist.trans h.branches, fun c hc => ?_, hnodup⟩
  · rw [editAll_append, ← hes]
    rfl
  · rcases mem_append.mp hc with hc | hc
    · exact mem_append_left _ (hraised c hc i hi hi')
    · exact mem_append_right _ ((hfound c hc).2.2 i hi hi')
  · rcases mem_append.mp hc with hc | hc
    · obtain ⟨hlt, hbranch, hjump, hgone⟩ := h.conditions c hc
      exact ⟨hlt, hbranch, hjump, fun hmem => hgone (mem_filter.mp hmem).1⟩
    · obtain ⟨⟨hlt, hbranch, hjump⟩, hgone, -⟩ := hfound c hc
      refine ⟨hlt, hbranch, hjump, fun hmem => ?_⟩
      have hleft := (mem_filter.mp hmem).2
      simp only [contains_iff_mem.mpr hgone, Bool.not_true, Bool.false_eq_true] at hleft

theorem Raised.turns (h : Raised lines s) {α : Type} {turn? : α → Option Turn} {as : List α}
    {M : α → Nat → String → Prop} (hmarks : ∀ a t, turn? a = some t → t.Marks 0 (M a))
    (hs' : ((as.mapM turn?).map fun ts => s.enter (Turn.sum ts)) = some s') : Raised lines s' := by
  obtain ⟨ts, hts, rfl⟩ := Option.map_eq_some_iff.mp hs'
  have hturns : ∀ t ∈ ts, ∃ a, t.Marks 0 (M a) := by
    intro t ht
    obtain ⟨a, -, hturn⟩ := exists_of_mapM hts ht
    exact ⟨a, hmarks a t hturn⟩
  have hnone : (Turn.sum ts).conditions = [] :=
    flatMap_eq_nil_iff.mpr fun t ht => (hturns t ht).elim fun _ h => h.1
  refine h.enter (fun e he => ?_) (by simp [hnone]) (by simpa [hnone] using h.nodup)
  obtain ⟨t, ht, he⟩ := mem_flatMap.mp he
  obtain ⟨a, -, hedits⟩ := hturns t ht
  exact (hedits e he).rises

theorem map_conditions_sum (hts : xs.mapM (conditionTurn? ws) = some ts) :
    (Turn.sum ts).conditions.map (·.1) = xs := by
  induction xs generalizing ts with
  | nil =>
    obtain rfl := Option.some.inj hts
    rfl
  | cons x xs ih =>
    rw [mapM_cons] at hts
    obtain ⟨t, ht, hts⟩ := Option.bind_eq_some_iff.mp hts
    obtain ⟨us, hus, hts⟩ := Option.bind_eq_some_iff.mp hts
    obtain rfl := Option.some.inj hts
    obtain ⟨_, _, _, -, -, -, rfl⟩ := eq_of_conditionTurn ht
    exact congrArg (x :: ·) (ih hus)

theorem Raised.takeConditions (h : Raised lines s) (hnodup : xs.Nodup)
    (hxs : xs ⊆ placesOf .branch lines) (hs' : (xs.foldlM takeCondition s).toOption = some s') :
    Raised lines s' := by
  rw [foldlM_takeCondition hnodup, h.ways_eq] at hs'
  obtain ⟨_, hall, hs'⟩ := Option.bind_eq_some_iff.mp hs'
  obtain ⟨ts, hts, rfl⟩ := Option.map_eq_some_iff.mp hs'
  have hjumps : ∀ i ∈ xs, i + 1 ∈ s.jumps := by simpa [require?] using hall
  refine h.enter (fun e he => ?_) (fun c hc => ?_) ?_
  · obtain ⟨t, ht, he⟩ := mem_flatMap.mp he
    obtain ⟨i, -, hturn⟩ := exists_of_mapM hts ht
    exact (marks_of_conditionTurn hturn e he).rises
  · -- each condition that was found has had its turn
    obtain ⟨t, ht, hc⟩ := mem_flatMap.mp hc
    obtain ⟨i, hi, hturn⟩ := exists_of_mapM hts ht
    obtain ⟨flow, j, inside, hway, hlt, hinside, rfl⟩ := eq_of_conditionTurn hturn
    obtain rfl := mem_singleton.mp hc
    obtain ⟨target, hjump⟩ := mem_placesOf.mp (h.jumps.subset (hjumps i hi))
    rw [← Nat.cast_succ] at hway
    rw [hway] at hjump
    obtain ⟨rfl, -⟩ := Prod.mk.inj (Option.some.inj hjump)
    rw [get?_natCast] at hway
    refine ⟨⟨hlt, hxs hi, hway⟩, mem_flatMap.mpr ⟨_, ht, by simp⟩, fun k hk hk' => ?_⟩
    have hplace := (@mem_placesFrom? _ k _ (i + 2) _ (by exact_mod_cast hinside)).mpr ⟨hk, hk'⟩
    exact mem_flatMap.mpr ⟨_, ht, mem_map.mpr ⟨k, hplace, rfl⟩⟩
  · rw [map_append, map_conditions_sum hts]
    refine nodup_append.mpr ⟨h.nodup, hnodup, ?_⟩
    rintro i hi _ hi' rfl
    obtain ⟨c, hc, rfl⟩ := mem_map.mp hi
    exact (h.conditions c hc).2.2.2 (hjumps c.1 hi')

theorem raised_findConditions (horder : order.Permutes) (h : findConditions order lines = .ok s) :
    Raised lines s := by
  have h := congrArg Except.toOption h
  simp only [findConditions, toOption_bind, toOption_requireLoop] at h
  obtain ⟨s₁, h₁, h⟩ := Option.bind_eq_some_iff.mp h
  obtain ⟨-, -, h⟩ := Option.bind_eq_some_iff.mp h
  obtain ⟨s₂, h₂, h⟩ := Option.bind_eq_some_iff.mp h
  obtain ⟨s₃, h₃, h⟩ := Option.bind_eq_some_iff.mp h
  obtain ⟨s₄, h₄, h₅⟩ := Option.bind_eq_some_iff.mp h
  rw [foldlM_takeForLoop] at h₁
  have hraised₁ := (raised_start lines).turns (fun _ _ => marks_of_forLoopTurn) h₁
  rw [foldlM_takeForIn] at h₂
  have hraised₂ := hraised₁.turns (fun _ _ => marks_of_forInTurn) h₂
  rw [foldlM_takeBackJump] at h₃
  have hraised₃ := hraised₂.turns (fun _ _ => marks_of_backJumpTurn) h₃
  rw [foldlM_takeBreak] at h₄
  have hraised₄ := hraised₃.turns (fun _ _ => marks_of_breakOfTurn) h₄
  have hbranches := horder.conditions s₄.branches
  refine hraised₄.takeConditions ?_ ?_ h₅
  · exact hbranches.symm.nodup (hraised₄.branches.nodup (nodup_placesOf .branch lines))
  · exact fun i hi => hraised₄.branches.subset (hbranches.subset hi)

theorem Raised.indent_nonneg (h : Raised lines s) (hlines : ∀ l ∈ lines, 0 ≤ l.indent)
    (hl : s.lines[i]? = some l) :
    0 ≤ l.indent ∧ ∀ c ∈ s.conditions, c.1 + 2 ≤ i → (i : Int) < c.2 → 1 ≤ l.indent := by
  obtain ⟨es, hes, hrises, hraised⟩ := h.edits
  rw [hes, getElem?_editAll] at hl
  obtain ⟨l₀, hl₀, rfl⟩ := Option.map_eq_some_iff.mp hl
  have hstart := hlines l₀ (mem_of_getElem? hl₀)
  have hsteps : ∀ n ∈ (changesAt es i).map Change.rise, 0 ≤ n := by
    intro n hn
    obtain ⟨c, hc, rfl⟩ := mem_map.mp hn
    exact hrises ⟨i, c⟩ (mem_changesAt.mp hc)
  rw [indent_changeAll]
  constructor
  · have := sum_nonneg hsteps
    omega
  · intro c hc hi hi'
    have hone : (1 : Int) ∈ (changesAt es i).map Change.rise :=
      mem_map.mpr ⟨.shift 1, mem_changesAt.mpr (hraised c hc i hi hi'), rfl⟩
    have := single_le_sum hsteps 1 hone
    omega

/-! ### Alternatives -/

/-- The place lies inside the body of a condition that was found: behind the branch and the jump over the
body, and before the line that the jump leads to. -/
def InsideCondition (s : Shape) (i : Nat) : Prop :=
  ∃ (k : Nat) (target : Int), (k, target) ∈ s.conditions ∧
    (∃ next, (ways s.lines)[k]? = some (.branch, next)) ∧
    (ways s.lines)[k + 1]? = some (.jump, some target) ∧ k + 2 ≤ i ∧ (i : Int) < target

theorem exists_of_endsAt {place : Int} (h : endsAt conditions place = true) :
    ∃ k, (k, place) ∈ conditions := by
  obtain ⟨⟨k, target⟩, hc, htarget⟩ := any_eq_true.mp h
  obtain rfl := beq_iff_eq.mp htarget
  exact ⟨k, hc⟩

/-- **An alternative lies inside a body.** The condition that ends behind the jump has its branch two lines
before it or earlier: the line of the jump is no branch, and the jump does not belong to the condition,
since it is left over. -/
theorem inside_of_alternativeMark (h : Raised lines s) (hi : i ∈ s.jumps)
    (hm : alternativeMark? (ways s.lines) s.conditions i = some m) (hlowered : m ∈ loweredMarks) :
    InsideCondition s i := by
  rw [h.ways_eq] at hm
  obtain ⟨next, hjump⟩ := mem_placesOf.mp (h.jumps.subset hi)
  rw [get?_natCast] at hjump
  -- a condition is inside if it ends beyond the jump and does not begin behind it
  have hinside : ∀ k target, (k, target) ∈ s.conditions → (i : Int) < target → k ≤ i →
      InsideCondition s i := by
    intro k target hc htarget hk
    obtain ⟨-, hbranch, hway, hgone⟩ := h.conditions _ hc
    obtain ⟨next', hbranch⟩ := mem_placesOf.mp hbranch
    rw [get?_natCast] at hbranch
    have hne : k ≠ i := by
      rintro rfl
      rw [hjump] at hbranch
      cases hbranch
    have hne' : k + 1 ≠ i := by
      rintro rfl
      exact hgone hi
    refine ⟨k, target, hc, ?_, ?_, by omega, htarget⟩
    · rw [h.ways_eq]
      exact ⟨next', hbranch⟩
    · rw [h.ways_eq]
      exact hway
  obtain ⟨loads, hloads, rfl⟩ := Option.map_eq_some_iff.mp hm
  by_cases hends : endsAt s.conditions (i + 1) = true
  · obtain ⟨k, hc⟩ := exists_of_endsAt hends
    have := (h.conditions _ hc).1
    exact hinside k _ hc (by omega) (by omega)
  · rw [loadsTruths?] at hloads
    split at hloads
    · rename_i hends'
      obtain ⟨k, hc⟩ := exists_of_endsAt hends'
      obtain ⟨next', hnext, hskips⟩ := Option.map_eq_some_iff.mp hloads
      obtain ⟨hlt, hbranch, -⟩ := h.conditions _ hc
      have hloads : loads = true := by
        by_contra hnot
        simp [loweredMarks, hends, hnot] at hlowered
      -- the line behind the jump skips the next one, so it is no branch either
      have hne : k ≠ i + 1 := by
        rintro rfl
        obtain ⟨next'', hbranch⟩ := mem_placesOf.mp hbranch
        rw [Nat.cast_succ, hnext] at hbranch
        obtain rfl := Option.some.inj hbranch
        simp [hloads] at hskips
      exact hinside k _ hc (by omega) (by omega)
    · obtain rfl := Option.some.inj hloads
      simp [loweredMarks, hends] at hlowered

/-- The edits put the mark before the text of the line at the place, shift it by a number and raise it any
further. -/
def Alters (es : List Edit) (i : Nat) (m : String) (shift : Int) : Prop :=
  ∃ n : Nat, ∀ l : CodeLine, changeAll l (changesAt es i) =
    { l with indent := l.indent + n + shift, text := m ++ l.text }

theorem alters_nil (i : Nat) : Alters [] i "" 0 :=
  ⟨0, fun l => by simp [changesAt, changeAll]⟩

theorem Alters.append {es' : List Edit} {m' : String} {shift shift' : Int} (h : Alters es i m shift)
    (h' : Alters es' i m' shift') : Alters (es ++ es') i (m' ++ m) (shift + shift') := by
  obtain ⟨n, hn⟩ := h
  obtain ⟨n', hn'⟩ := h'
  refine ⟨n + n', fun l => ?_⟩
  rw [changesAt_append, changeAll_append, hn, hn', String.append_assoc]
  congr 1
  push_cast
  ring

theorem alters_shifts (places : List Nat) (i : Nat) : Alters (shifts places) i "" 0 := by
  induction places with
  | nil => exact alters_nil i
  | cons place places ih =>
    have hfirst : Alters [⟨place, .shift 1⟩] i "" 0 := by
      by_cases hplace : place = i
      · exact ⟨1, fun l => by simp [changesAt, changeAll, hplace, Change.apply]⟩
      · exact ⟨0, fun l => by simp [changesAt, changeAll, hplace]⟩
    exact hfirst.append ih

def markShift (m : String) : Int := if m ∈ loweredMarks then -1 else 0

theorem alters_of_alternativeTurn {k : Nat} (h : alternativeTurn? ws conditions k = some t) :
    (k ≠ i → Alters t.edits i "" 0) ∧
      (k = i → ∃ m, alternativeMark? ws conditions i = some m ∧ Alters t.edits i m (markShift m)) := by
  obtain ⟨-, m, inside, hm, hedits⟩ := edits_of_alternativeTurn h
  rw [hedits]
  constructor
  · intro hne
    have hmark : Alters ((markChanges m).map (⟨k, ·⟩)) i "" 0 := by
      refine ⟨0, fun l => ?_⟩
      rw [markChanges]
      split <;> simp [changesAt, changeAll, hne]
    exact hmark.append (alters_shifts inside i)
  · rintro rfl
    have hmark : Alters ((markChanges m).map (⟨k, ·⟩)) k m (markShift m) := by
      refine ⟨0, fun l => ?_⟩
      rw [markChanges, markShift]
      split <;> simp [changesAt, changeAll, Change.apply]
    refine ⟨m, hm, ?_⟩
    have hboth := hmark.append (alters_shifts inside k)
    simpa using hboth

theorem alters_alternatives (hts : xs.mapM (alternativeTurn? ws conditions) = some ts)
    (hnodup : xs.Nodup) (i : Nat) :
    (i ∉ xs → Alters (Turn.sum ts).edits i "" 0) ∧
      (i ∈ xs → ∃ m, alternativeMark? ws conditions i = some m ∧
        Alters (Turn.sum ts).edits i m (markShift m)) := by
  induction xs generalizing ts with
  | nil =>
    obtain rfl := Option.some.inj hts
    exact ⟨fun _ => alters_nil i, fun hi => absurd hi not_mem_nil⟩
  | cons x xs ih =>
    obtain ⟨hx, hnodup⟩ := nodup_cons.mp hnodup
    rw [mapM_cons] at hts
    obtain ⟨t, ht, hts⟩ := Option.bind_eq_some_iff.mp hts
    obtain ⟨us, hus, hts⟩ := Option.bind_eq_some_iff.mp hts
    obtain rfl := Option.some.inj hts
    obtain ⟨hother, hown⟩ := alters_of_alternativeTurn (i := i) ht
    obtain ⟨hothers, howns⟩ := ih hus hnodup
    have hsum : (Turn.sum (t :: us)).edits = t.edits ++ (Turn.sum us).edits := rfl
    rw [hsum]
    constructor
    · intro hi
      obtain ⟨hne, hi⟩ := not_or.mp fun h => hi (mem_cons.mpr h)
      exact (hother (Ne.symm hne)).append (hothers hi)
    · intro hi
      rcases mem_cons.mp hi with rfl | hi
      · obtain ⟨m, hm, halters⟩ := hown rfl
        have hboth := halters.append (hothers hx)
        exact ⟨m, hm, by simpa using hboth⟩
      · obtain ⟨m, hm, halters⟩ := howns hi
        have hboth := (hother (fun he => hx (he ▸ hi))).append halters
        exact ⟨m, hm, by simpa using hboth⟩

/-! ### All lines -/

/-- What became of a line in the last pass: it has a mark before its text and its indent is raised, but
lowered by one for some of the marks. These are put on lines inside the body of a condition. -/
structure Marked (before : Shape) (i : Nat) (l₀ l : CodeLine) (m : String) : Prop where
  text : l.text = m ++ l₀.text
  indent : ∃ n : Nat, l.indent = l₀.indent + n + markShift m
  inside : m ∈ loweredMarks → InsideCondition before i ∧ 1 ≤ l₀.indent
  mark : m = "" ∨ m = "IF-TRUE-ELSE: " ∨ m ∈ loweredMarks

theorem Marked.indent_nonneg {l₀ : CodeLine} (h : Marked s i l₀ l m) (h₀ : 0 ≤ l₀.indent) :
    0 ≤ l.indent := by
  obtain ⟨n, hn⟩ := h.indent
  rw [markShift] at hn
  split at hn
  · rename_i hlowered
    have := (h.inside hlowered).2
    omega
  · omega

/-- **The last pass** marks every line that it lowers as one inside a body. -/
theorem Raised.exists_marked (h : Raised lines s) (hlines : ∀ l ∈ lines, 0 ≤ l.indent)
    (hxs : xs.Perm s.jumps) (hs' : xs.foldlM takeAlternative s = .ok s')
    (hl : s'.lines[i]? = some l) : ∃ l₀ m, s.lines[i]? = some l₀ ∧ Marked s i l₀ l m := by
  have hpass := foldlM_takeAlternative xs s
  rw [hs'] at hpass
  obtain ⟨ts, hts, rfl⟩ := Option.map_eq_some_iff.mp hpass.symm
  have hnodup : xs.Nodup := hxs.symm.nodup (h.jumps.nodup (nodup_placesOf .jump lines))
  obtain ⟨hother, hown⟩ := alters_alternatives hts hnodup i
  rw [Shape.enter, getElem?_editAll] at hl
  obtain ⟨l₀, hl₀, rfl⟩ := Option.map_eq_some_iff.mp hl
  by_cases hi : i ∈ xs
  · obtain ⟨m, hm, n, hn⟩ := hown hi
    rw [hn]
    refine ⟨l₀, m, hl₀, rfl, ⟨n, rfl⟩, fun hlowered => ?_, Or.inr (mem_of_alternativeMark hm)⟩
    have hinside := inside_of_alternativeMark h (hxs.subset hi) hm hlowered
    obtain ⟨k, target, hc, -, -, hk, htarget⟩ := id hinside
    exact ⟨hinside, (h.indent_nonneg hlines hl₀).2 _ hc hk htarget⟩
  · obtain ⟨n, hn⟩ := hother hi
    rw [hn]
    exact ⟨l₀, "", hl₀, rfl, ⟨n, rfl⟩, fun hlowered => absurd hlowered (by decide), Or.inl rfl⟩

/-- **No indent is negative.** Whenever annotating a body succeeds, with the passes taking their lines in
any order, the indent of every line is at least 0. The last pass puts nothing before the text of a line,
or the mark of an alternative; it lowers the lines that it marks with `ELSE: ` or `ELSE2: ` by 1, and each
of them lies inside the body of a condition, with an indent of 1 or more before the pass. -/
theorem indents_of_annotate (o : Options) {order : Enumeration} (horder : order.Permutes)
    (ds : List Description) (r r' : Reading) (ls : List CodeLine)
    (h : Ends (annotate o order (codeLines ds)) r ls r') :
    (∀ l ∈ ls, 0 ≤ l.indent) ∧
    ∃ before, findConditions order (codeLines ds) = .ok before ∧
      ∀ i l, ls[i]? = some l → ∃ l₀ m, before.lines[i]? = some l₀ ∧ Marked before i l₀ l m := by
  obtain ⟨s, hs, hcommented⟩ := (annotated_of_ends h).commented
  rw [ofLines_eq] at hs
  cases hbefore : findConditions order (codeLines ds) with
  | error fault =>
    rw [hbefore] at hs
    cases hs
  | ok before =>
    rw [hbefore] at hs
    have hraised := raised_findConditions horder hbefore
    have hzero : ∀ l ∈ codeLines ds, 0 ≤ l.indent := by
      rintro l hl
      obtain ⟨p, -, rfl⟩ := mem_map.mp hl
      exact le_rfl
    have hmarked : ∀ i l, ls[i]? = some l →
        ∃ l₀ m, before.lines[i]? = some l₀ ∧ Marked before i l₀ l m := by
      intro i l hl
      obtain ⟨l', hl', hsame⟩ := hcommented.getElem? hl
      obtain ⟨l₀, m, hl₀, hmark⟩ :=
        hraised.exists_marked hzero (horder.alternatives before.jumps) hs hl'
      have htext : l.text = l'.text := congrArg (·.text) hsame
      have hindent : l.indent = l'.indent := congrArg (·.indent) hsame
      exact ⟨l₀, m, hl₀, htext.trans hmark.text, hindent ▸ hmark.indent, hmark.inside, hmark.mark⟩
    refine ⟨fun l hl => ?_, before, rfl, hmarked⟩
    obtain ⟨i, hi⟩ := mem_iff_getElem?.mp hl
    obtain ⟨l₀, m, hl₀, hmark⟩ := hmarked i l hi
    exact hmark.indent_nonneg (hraised.indent_nonneg hzero hl₀).1

/-- The body of a function with one condition that has an alternative. -/
def conditionWithAlternative : List Description :=
  ([0x1a, 0x80004016, 0x40, 0x80000016, 0x80, 0x80001e].mapM (Description.ofWord [])).toOption.getD []

/-- No line of the condition and its alternative is indented to the left. -/
theorem indents_of_annotate_alternative :
    ∃ ls r, Ends (annotate {} .descending (codeLines conditionWithAlternative)) { rest := [] } ls r ∧
      ∀ l ∈ ls, 0 ≤ l.indent := by
  have hends : ∃ ls r, Ends (annotate {} .descending (codeLines conditionWithAlternative))
      { rest := [] } ls r := exists_ends_iff.mpr (by cbv)
  obtain ⟨ls, r, h⟩ := hends
  exact ⟨ls, r, h, (indents_of_annotate {} permutes_descending _ _ r ls h).1⟩

-- The jump in the body of the condition is raised with the body and then lowered.
example : (Shape.ofLines .ascending (codeLines conditionWithAlternative)).toOption.map
    (·.lines.map fun l => (l.indent, l.text)) =
      some [(0, "IF r0:  PC++"), (0, "PC += 2"), (1, "r1 = r0"), (0, "ELSE: PC += 1"),
        (1, "r2 = r0"), (0, "return ")] := by decide +kernel

end ApkWorkshop.Listing
