import ApkWorkshop.Proofs.LineEdits

/-!
# Passes as Turns

A pass over a function body takes the lines of a set one by one. What it does at a line, its `Turn`, can
be found in advance: it depends on where the lines lead, and for two passes on the loops or conditions
found before, but on nothing that the pass itself changes. So a pass as a whole adds up the turns at its
lines:

* `Shape.enter` — what a turn does to a shape, and `Turn.sum` — turns one after the other as one turn;
* `foldlM_turns` — a pass that takes turns succeeds if there is a turn at every line, and enters their
  sum;
* `foldlM_takeForLoop`, …, `foldlM_takeAlternative` — so do the six passes. The pass over breaks takes
  every jump with every loop, and the pass over conditions also needs the jump behind each of them.
-/

namespace ApkWorkshop.Listing

open Bytecode Option Function Position CodeLine

/-- What a pass does at a line: the edits of the lines, the loops, conditions and alternatives found,
and for each kind of jump the places that are accounted for. -/
structure Turn where
  edits : List Edit := []
  loops : List (Int × Int) := []
  conditions : List (Nat × Int) := []
  forStarts : List Int := []
  forEnds : List Int := []
  forIns : List Int := []
  jumps : List Int := []
  branches : List Int := []
  elses : List Nat := []
deriving DecidableEq

variable {β : Type} {ws : List (Flow × Option Int)} {i : Nat} {t : Turn}

def Turn.sum (ts : List Turn) : Turn where
  edits := ts.flatMap (·.edits)
  loops := ts.flatMap (·.loops)
  conditions := ts.flatMap (·.conditions)
  forStarts := ts.flatMap (·.forStarts)
  forEnds := ts.flatMap (·.forEnds)
  forIns := ts.flatMap (·.forIns)
  jumps := ts.flatMap (·.jumps)
  branches := ts.flatMap (·.branches)
  elses := ts.flatMap (·.elses)

def withoutAll (places : List Nat) (is : List Int) : List Nat :=
  places.filter fun place => !is.contains (place : Int)

@[simp] theorem withoutAll_nil (places : List Nat) : withoutAll places [] = places := by
  simp [withoutAll]

theorem withoutAll_append (places : List Nat) (is js : List Int) :
    withoutAll places (is ++ js) = withoutAll (withoutAll places is) js := by
  simp [withoutAll, List.filter_filter, Bool.and_comm]

theorem withoutAll_cons_cons (places : List Nat) (i j : Int) (is : List Int) :
    withoutAll places (i :: j :: is) = withoutAll (withoutAll places [i]) (j :: is) :=
  withoutAll_append places [i] (j :: is)

theorem without_eq (places : List Nat) (i : Int) : without places i = withoutAll places [i] := by
  refine List.filter_congr fun place _ => ?_
  simp [bne, beq_eq_decide]

theorem withoutAll_perm (places : List Nat) {is js : List Int} (h : is.Perm js) :
    withoutAll places is = withoutAll places js := by
  refine List.filter_congr fun place _ => ?_
  rw [h.contains_eq]

def Shape.enter (s : Shape) (t : Turn) : Shape :=
  { s with
    lines := editAll s.lines t.edits
    loops := s.loops ++ t.loops
    conditions := s.conditions ++ t.conditions
    forStarts := withoutAll s.forStarts t.forStarts
    forEnds := withoutAll s.forEnds t.forEnds
    forIns := withoutAll s.forIns t.forIns
    jumps := withoutAll s.jumps t.jumps
    branches := withoutAll s.branches t.branches
    elses := s.elses ++ t.elses }

@[simp] theorem enter_sum_nil (s : Shape) : s.enter (Turn.sum []) = s := by
  simp [Shape.enter, Turn.sum]

theorem enter_sum_cons (s : Shape) (t : Turn) (ts : List Turn) :
    s.enter (Turn.sum (t :: ts)) = (s.enter t).enter (Turn.sum ts) := by
  simp [Shape.enter, Turn.sum, editAll_append, withoutAll_append]

@[simp] theorem ways_enter (s : Shape) (t : Turn) : ways (s.enter t).lines = ways s.lines :=
  ways_editAll _ _

/-- **A pass that takes turns** succeeds if there is a turn at every line, and enters their sum. A turn
must not change the turns at the lines to come. -/
theorem foldlM_turns {α : Type} {step : Shape → α → Except Fault Shape}
    (turn? : Shape → α → Option Turn) (hstep : ∀ s a, (step s a).toOption = (turn? s a).map s.enter)
    (hkeeps : ∀ s a t, turn? s a = some t → turn? (s.enter t) = turn? s) (as : List α) (s : Shape) :
    (as.foldlM step s).toOption = (as.mapM (turn? s)).map fun ts => s.enter (Turn.sum ts) := by
  induction as generalizing s with
  | nil => simp
  | cons a as ih =>
    rw [List.foldlM_cons, toOption_bind, hstep s a, List.mapM_cons]
    cases hturn : turn? s a with
    | none => rfl
    | some t =>
      simp only [map_some, bind_some, bind_eq_bind, ih (s.enter t), hkeeps s a t hturn]
      cases as.mapM (turn? s) with
      | none => rfl
      | some ts => exact congrArg some (enter_sum_cons s t ts).symm

/-! ### Loops -/

def forLoopTurn? (ws : List (Flow × Option Int)) (i : Nat) : Option Turn := do
  let j ← (← Position.get? ws i).2
  require? (i < j)
  let last ← Position.get? ws j
  require? (last.1 == .forEnd)
  require? (last.2 == some (i + 1 : Int))
  let inside ← placesFrom? ws.length (i + 1) (j + 1)
  return { edits := shifts inside, loops := [((i : Int), j)], forEnds := [j], forStarts := [(i : Int)] }

theorem eq_of_forLoopTurn (h : forLoopTurn? ws i = some t) :
    ∃ (j : Int) (inside : List Nat), t = {
      edits := shifts inside, loops := [((i : Int), j)], forEnds := [j], forStarts := [(i : Int)] } := by
  simp only [forLoopTurn?, bind_eq_bind, bind_eq_some_iff] at h
  obtain ⟨_, -, j, -, _, -, _, -, _, -, _, -, inside, -, h⟩ := h
  exact ⟨j, inside, (some.inj h).symm⟩

theorem takeForLoop_turn (s : Shape) (i : Nat) :
    (takeForLoop s i).toOption = (forLoopTurn? (ways s.lines) i).map s.enter := by
  rw [takeForLoop, forLoopTurn?, toOption_bind, toOption_lineAt, get?_ways]
  cases get? s.lines i with
  | none => rfl
  | some l =>
    cases htarget : l.target with
    | none => simp [way, htarget]
    | some j =>
      simp [-bind_pure_comp, way, htarget, map_bind, bind_map, comp_def, Shape.enter, without_eq]

theorem foldlM_takeForLoop (xs : List Nat) (s : Shape) :
    (xs.foldlM takeForLoop s).toOption =
      (xs.mapM (forLoopTurn? (ways s.lines))).map fun ts => s.enter (Turn.sum ts) :=
  foldlM_turns (fun s => forLoopTurn? (ways s.lines)) takeForLoop_turn
    (fun s _ t _ => by rw [ways_enter]) xs s

def forInTurn? (ws : List (Flow × Option Int)) (i : Nat) : Option Turn := do
  let back ← Position.get? ws (i + 1)
  require? (back.1 == .jump)
  let j ← back.2
  require? (j < i)
  let entry ← Position.get? ws (j - 1)
  require? (entry.1 == .jump && entry.2 == some (i : Int))
  let inside ← placesFrom? ws.length j (i + 2)
  let entrance ← Position.resolve? ws.length (j - 1)
  return {
    edits := shifts inside ++ [⟨entrance, .mark "TFOR:  "⟩]
    loops := [(j - 1, (i + 1 : Int))]
    jumps := [(i + 1 : Int), j - 1]
    forIns := [(i : Int)] }

theorem eq_of_forInTurn (h : forInTurn? ws i = some t) :
    ∃ (back : Flow × Option Int) (j : Int) (inside : List Nat) (entrance : Nat),
      get? ws (i + 1) = some back ∧ t = {
        edits := shifts inside ++ [⟨entrance, .mark "TFOR:  "⟩]
        loops := [(j - 1, (i + 1 : Int))]
        jumps := [(i + 1 : Int), j - 1]
        forIns := [(i : Int)] } := by
  simp only [forInTurn?, bind_eq_bind, bind_eq_some_iff] at h
  obtain ⟨back, hback, _, -, j, -, _, -, _, -, _, -, inside, -, entrance, -, h⟩ := h
  exact ⟨back, j, inside, entrance, hback, (some.inj h).symm⟩

theorem takeForIn_turn (s : Shape) (i : Nat) :
    (takeForIn s i).toOption = (forInTurn? (ways s.lines) i).map s.enter := by
  rw [takeForIn, forInTurn?, toOption_bind, toOption_lineAt, get?_ways]
  cases get? s.lines (i + 1) with
  | none => rfl
  | some l =>
    cases htarget : l.target with
    | none => cases l.flow == .jump <;> simp [way, htarget, require?]
    | some j =>
      simp [-bind_pure_comp, way, htarget, map_bind, bind_map, comp_def, Shape.enter,
        without_eq, leads, editAll_append, withoutAll_cons_cons]

theorem foldlM_takeForIn (xs : List Nat) (s : Shape) :
    (xs.foldlM takeForIn s).toOption =
      (xs.mapM (forInTurn? (ways s.lines))).map fun ts => s.enter (Turn.sum ts) :=
  foldlM_turns (fun s => forInTurn? (ways s.lines)) takeForIn_turn
    (fun s _ t _ => by rw [ways_enter]) xs s

/-- Is it a repetition that ends with the jump, or another loop? -/
def loopMark (repeats : Bool) : String := if repeats then "REPEAT: " else "WHILE: "

def backJumpTurn? (ws : List (Flow × Option Int)) (i : Nat) : Option Turn := do
  let j ← (← Position.get? ws i).2
  if (i : Int) < j then return {}
  let inside ← placesFrom? ws.length (j + 1) (i + 1)
  let before ← Position.get? ws (i - 1)
  let start ← Position.resolve? ws.length j
  let repeats := before.1 == .branch
  return {
    edits := shifts inside ++ [⟨start, .mark (loopMark repeats)⟩]
    loops := [(j, (i : Int))]
    jumps := [(i : Int)]
    branches := if repeats then [(i - 1 : Int)] else [] }

theorem edits_of_backJumpTurn (h : backJumpTurn? ws i = some t) :
    t.conditions = [] ∧ (t.edits = [] ∨
    ∃ (l before : Flow × Option Int) (j : Int) (inside : List Nat) (start : Nat),
      get? ws i = some l ∧ l.2 = some j ∧ j ≤ i ∧ get? ws (i - 1) = some before ∧
      resolve? ws.length j = some start ∧
      t.edits = shifts inside ++ [⟨start, .mark (loopMark (before.1 == .branch))⟩]) := by
  simp only [backJumpTurn?, bind_eq_bind, bind_eq_some_iff] at h
  obtain ⟨l, hl, j, hj, h⟩ := h
  split at h
  · obtain rfl := some.inj h
    exact ⟨rfl, .inl rfl⟩
  · rename_i hback
    simp only [bind_eq_some_iff] at h
    obtain ⟨inside, -, before, hbefore, start, hstart, h⟩ := h
    obtain rfl := some.inj h
    exact ⟨rfl, .inr ⟨l, before, j, inside, start, hl, hj, not_lt.mp hback, hbefore, hstart, rfl⟩⟩

theorem bind_get?_editAll (ls : List CodeLine) (es : List Edit) (i : Int)
    (f : Flow × Option Int → Option β) :
    ((get? (editAll ls es) i).bind fun l => f l.way) = (get? ls i).bind fun l => f l.way := by
  have hways := (get?_ways (editAll ls es) i).symm.trans ((congrArg (get? · i)
    (ways_editAll ls es)).trans (get?_ways ls i))
  rw [← comp_def f, ← bind_map, hways, bind_map]

theorem takeBackJump_turn (s : Shape) (i : Nat) :
    (takeBackJump s i).toOption = (backJumpTurn? (ways s.lines) i).map s.enter := by
  rw [takeBackJump, backJumpTurn?, toOption_bind, toOption_lineAt, get?_ways]
  cases get? s.lines i with
  | none => rfl
  | some l =>
    cases htarget : l.target with
    | none => simp [way, htarget]
    | some j =>
      by_cases hforward : (i : Int) < j
      · simp [way, htarget, hforward, Shape.enter]
      · simp only [way, htarget, hforward, if_false, map_some, bind_some,
          toOption_bind, toOption_indentLines, bind_eq_bind, length_ways, map_bind,
          bind_map, comp_def, toOption_lineAt, get?_ways]
        refine congrArg _ (funext fun inside => ?_)
        -- The line before the jump is looked at behind the indenting, which keeps its way.
        refine (bind_get?_editAll s.lines (shifts inside) (i - 1) fun (before : Flow × Option Int) =>
          (markLine (editAll s.lines (shifts inside)) j
            (loopMark (before.1 == Flow.branch))).toOption.bind fun ls => some { s with
              lines := ls
              loops := s.loops ++ [(j, (i : Int))]
              jumps := without s.jumps i
              branches := if before.1 == Flow.branch then without s.branches (i - 1)
                else s.branches }).trans ?_
        simp [way, Shape.enter, without_eq, editAll_append, bind_map,
          apply_ite (withoutAll s.branches)]

theorem foldlM_takeBackJump (xs : List Nat) (s : Shape) :
    (xs.foldlM takeBackJump s).toOption =
      (xs.mapM (backJumpTurn? (ways s.lines))).map fun ts => s.enter (Turn.sum ts) :=
  foldlM_turns (fun s => backJumpTurn? (ways s.lines)) takeBackJump_turn
    (fun s _ t _ => by rw [ways_enter]) xs s

/-! ### Breaks -/

/-- The turn at a jump, as far as one loop is concerned: a jump to the line behind the loop breaks out of
it. -/
def breakOfTurn? (ws : List (Flow × Option Int)) (i : Nat) (loop : Int × Int) : Option Turn := do
  let l ← Position.get? ws i
  if loop.1 < i && (i : Int) < loop.2 && l.2 == some (loop.2 + 1) then
    let place ← Position.resolve? ws.length i
    let before ← Position.get? ws (i - 1)
    return {
      edits := [⟨place, .mark "BREAK: "⟩]
      jumps := if before.1 == .branch && before.2 == some (i + 1 : Int) then [] else [(i : Int)] }
  else return {}

theorem takeBreakOf_turn (s : Shape) (i : Nat) (loop : Int × Int) :
    (takeBreakOf i s loop).toOption = (breakOfTurn? (ways s.lines) i loop).map s.enter := by
  rw [takeBreakOf, breakOfTurn?, toOption_bind, toOption_lineAt, get?_ways]
  cases get? s.lines i with
  | none => rfl
  | some l =>
    by_cases hbreak : (loop.1 < i && (i : Int) < loop.2 && l.target == some (loop.2 + 1)) = true
    · simp only [way, hbreak, if_true, map_some, bind_some, toOption_bind, toOption_markLine,
        bind_eq_bind, length_ways, map_bind, bind_map, comp_def, toOption_lineAt, get?_ways]
      refine congrArg _ (funext fun place => ?_)
      refine (bind_get?_editAll s.lines [⟨place, .mark "BREAK: "⟩] (i - 1)
        fun (before : Flow × Option Int) =>
        some { s with
          lines := editAll s.lines [⟨place, .mark "BREAK: "⟩]
          jumps := if before.1 == Flow.branch && before.2 == some (i + 1 : Int) then s.jumps
            else without s.jumps i }).trans ?_
      simp [way, Shape.enter, without_eq, apply_ite (withoutAll s.jumps)]
    · simp only [way, hbreak, map_some, bind_some, bind_eq_bind]
      simp [Shape.enter]

theorem edits_of_breakOfTurn {loop : Int × Int} (h : breakOfTurn? ws i loop = some t) :
    t.loops = [] ∧ t.conditions = [] ∧ ∀ e ∈ t.edits, ∃ place, e = ⟨place, .mark "BREAK: "⟩ := by
  simp only [breakOfTurn?, bind_eq_bind, bind_eq_some_iff] at h
  obtain ⟨l, -, h⟩ := h
  split at h
  · simp only [bind_eq_some_iff] at h
    obtain ⟨place, -, _, -, h⟩ := h
    obtain rfl := some.inj h
    exact ⟨rfl, rfl, by simp⟩
  · obtain rfl := some.inj h
    exact ⟨rfl, rfl, by simp⟩

theorem loops_of_takeBreak {s s' : Shape} (h : takeBreak s i = .ok s') : s'.loops = s.loops := by
  have hfold : ∀ (loops : List (Int × Int)) (s s' : Shape),
      loops.foldlM (takeBreakOf i) s = .ok s' → s'.loops = s.loops := by
    intro loops
    induction loops with
    | nil =>
      rintro s s' h
      cases h
      rfl
    | cons loop loops ih =>
      intro s s' h
      rw [List.foldlM_cons] at h
      cases hfirst : takeBreakOf i s loop with
      | error fault =>
        rw [hfirst] at h
        cases h
      | ok s₁ =>
        rw [hfirst] at h
        have hturn := takeBreakOf_turn s i loop
        rw [hfirst] at hturn
        obtain ⟨t, ht, rfl⟩ := map_eq_some_iff.mp hturn.symm
        rw [ih _ s' h, Shape.enter, (edits_of_breakOfTurn ht).1, List.append_nil]
  exact hfold s.loops s s' h

theorem foldlM_takeBreak_eq (xs : List Nat) (s : Shape) :
    xs.foldlM takeBreak s = (xs ×ˢ s.loops).foldlM (fun s p => takeBreakOf p.1 s p.2) s := by
  induction xs generalizing s with
  | nil => rfl
  | cons x xs ih =>
    rw [List.product_cons, List.foldlM_append, List.foldlM_map]
    change takeBreak s x >>= _ = takeBreak s x >>= _
    cases hbreak : takeBreak s x with
    | error fault => rfl
    | ok s' =>
      rw [← loops_of_takeBreak hbreak]
      exact ih s'

theorem foldlM_takeBreak (xs : List Nat) (s : Shape) :
    (xs.foldlM takeBreak s).toOption =
      ((xs ×ˢ s.loops).mapM fun p => breakOfTurn? (ways s.lines) p.1 p.2).map
        fun ts => s.enter (Turn.sum ts) := by
  rw [foldlM_takeBreak_eq]
  exact foldlM_turns (fun s (p : Nat × Int × Int) => breakOfTurn? (ways s.lines) p.1 p.2)
    (fun s p => takeBreakOf_turn s p.1 p.2) (fun s _ t _ => by simp only [ways_enter]) _ s

/-! ### Conditions -/

/-- The turn at a condition, if the jump behind it is still there. -/
def conditionTurn? (ws : List (Flow × Option Int)) (i : Nat) : Option Turn := do
  let j ← (← Position.get? ws (i + 1)).2
  require? (i < j)
  let inside ← placesFrom? ws.length (i + 2) j
  return {
    edits := shifts inside
    branches := [(i : Int)]
    jumps := [(i + 1 : Int)]
    conditions := [(i, j)] }

theorem takeCondition_turn (s : Shape) (i : Nat) :
    (takeCondition s i).toOption = (require? (s.jumps.contains (i + 1))).bind fun _ =>
      (conditionTurn? (ways s.lines) i).map s.enter := by
  rw [takeCondition, conditionTurn?, toOption_bind, toOption_requireLoop]
  rw [toOption_bind, toOption_lineAt, get?_ways]
  cases get? s.lines (i + 1) with
  | none => rfl
  | some l =>
    cases htarget : l.target with
    | none => simp [way, htarget]
    | some j =>
      by_cases hback : j ≤ i
      · simp [way, htarget, hback, require?, not_lt.mpr hback]
      · simp [-bind_pure_comp, way, htarget, hback, require?, not_le.mp hback,
          bind_map, Shape.enter, without_eq]

theorem eq_of_conditionTurn (h : conditionTurn? ws i = some t) :
    ∃ (flow : Flow) (j : Int) (inside : List Nat), get? ws (i + 1) = some (flow, some j) ∧
      i < j ∧ placesFrom? ws.length (i + 2) j = some inside ∧ t = {
        edits := shifts inside
        branches := [(i : Int)]
        jumps := [(i + 1 : Int)]
        conditions := [(i, j)] } := by
  simp only [conditionTurn?, bind_eq_bind, bind_eq_some_iff] at h
  obtain ⟨⟨flow, target⟩, hl, j, htarget, _, hj, inside, hinside, h⟩ := h
  obtain rfl : target = some j := htarget
  have hlt : i < j := by
    by_contra hge
    simp [require?, hge] at hj
  exact ⟨flow, j, inside, hl, hlt, hinside, (some.inj h).symm⟩

theorem jumps_of_conditionTurn (h : conditionTurn? ws i = some t) : t.jumps = [(i + 1 : Int)] := by
  obtain ⟨_, _, _, -, -, -, rfl⟩ := eq_of_conditionTurn h
  rfl

theorem foldlM_takeCondition {xs : List Nat} (hxs : xs.Nodup) (s : Shape) :
    (xs.foldlM takeCondition s).toOption =
      (require? (xs.all fun i => s.jumps.contains (i + 1))).bind fun _ =>
        (xs.mapM (conditionTurn? (ways s.lines))).map fun ts => s.enter (Turn.sum ts) := by
  induction xs generalizing s with
  | nil => simp [require?]
  | cons x xs ih =>
    obtain ⟨hx, hxs⟩ := List.nodup_cons.mp hxs
    rw [List.foldlM_cons, toOption_bind, takeCondition_turn, List.mapM_cons, List.all_cons]
    cases hjump : s.jumps.contains (x + 1) with
    | false => rfl
    | true =>
      cases hturn : conditionTurn? (ways s.lines) x with
      | none => cases xs.all fun i => s.jumps.contains (i + 1) <;> rfl
      | some t =>
        -- the jump that is gone stands behind `x`, so not behind one of the others
        have hrest : (xs.all fun i => (s.enter t).jumps.contains (i + 1)) =
            xs.all fun i => s.jumps.contains (i + 1) := by
          rw [Bool.eq_iff_iff, List.all_eq_true, List.all_eq_true]
          refine forall₂_congr fun i hi => ?_
          have hne : i ≠ x := fun he => hx (he ▸ hi)
          simp [Shape.enter, withoutAll, jumps_of_conditionTurn hturn, hne]
        simp only [require?, if_true, bind_some, map_some, ih hxs,
          hrest, ways_enter, Bool.true_and, bind_eq_bind]
        cases xs.all fun i => s.jumps.contains (i + 1) <;>
          cases xs.mapM (conditionTurn? (ways s.lines)) <;> simp [enter_sum_cons]

/-! ### Alternatives -/

def endsAt (conditions : List (Nat × Int)) (place : Int) : Bool :=
  conditions.any fun c => c.2 == place

/-- Are two truth values loaded behind the jump, so that its condition ends one line later? -/
def loadsTruths? (ws : List (Flow × Option Int)) (conditions : List (Nat × Int)) (i : Nat) :
    Option Bool :=
  if endsAt conditions (i + 2) then
    (Position.get? ws (i + 1)).map fun next => next.1 == .skipNext && next.2 == some (i + 3 : Int)
  else some false

def alternativeTurn? (ws : List (Flow × Option Int)) (conditions : List (Nat × Int)) (i : Nat) :
    Option Turn := do
  let j ← (← Position.get? ws i).2
  require? (i < j)
  let loads ← loadsTruths? ws conditions i
  let place ← Position.resolve? ws.length i
  let inside ← placesFrom? ws.length (i + 1) j
  return if endsAt conditions (i + 1) then {
      edits := [⟨place, .shift (-1)⟩, ⟨place, .mark "ELSE: "⟩] ++ shifts inside
      jumps := [(i : Int)]
      elses := [i + 1] }
    else if loads then {
      edits := [⟨place, .shift (-1)⟩, ⟨place, .mark "ELSE2: "⟩] ++ shifts inside
      jumps := [(i : Int)]
      elses := [i + 2] }
    else { edits := [⟨place, .mark "IF-TRUE-ELSE: "⟩] ++ shifts inside }

theorem toOption_marked (ls : List CodeLine) (i first stop : Int) (m : String)
    (f : List CodeLine → β) :
    (do
      let marked ← markLine ls i m
      let lines ← indentLines marked first stop
      pure (f lines) : Except Fault β).toOption =
      (resolve? ls.length i).bind fun place =>
        (placesFrom? ls.length first stop).bind fun inside =>
          some (f (editAll ls ([⟨place, .mark m⟩] ++ shifts inside))) := by
  simp [-bind_pure_comp, bind_map]
  rfl

theorem toOption_lowered (ls : List CodeLine) (i first stop : Int) (m : String)
    (f : List CodeLine → β) :
    (do
      let lowered ← changeLine ls i (Change.shift (-1)).apply
      let marked ← markLine lowered i m
      let lines ← indentLines marked first stop
      pure (f lines) : Except Fault β).toOption =
      (resolve? ls.length i).bind fun place =>
        (placesFrom? ls.length first stop).bind fun inside =>
          some (f (editAll ls ([⟨place, .shift (-1)⟩, ⟨place, .mark m⟩] ++ shifts inside))) := by
  rw [toOption_bind, toOption_changeLine]
  cases hplace : resolve? ls.length i with
  | none => rfl
  | some place =>
    simp only [map_some, bind_some, toOption_marked, length_edit, hplace]
    rfl

theorem takeAlternative_turn (s : Shape) (i : Nat) :
    (takeAlternative s i).toOption =
      (alternativeTurn? (ways s.lines) s.conditions i).map s.enter := by
  rw [takeAlternative, alternativeTurn?, toOption_bind, toOption_lineAt, get?_ways]
  cases get? s.lines i with
  | none => rfl
  | some l =>
    cases htarget : l.target with
    | none => simp [way, htarget]
    | some j =>
      by_cases hback : j ≤ i
      · simp [way, htarget, hback, require?, not_lt.mpr hback]
      · have hlower : (fun l : CodeLine => { l with indent := l.indent - 1 }) =
            (Change.shift (-1)).apply := rfl
        have hends : ∀ place : Int, (s.conditions.any fun c => c.2 == place) =
            endsAt s.conditions place := fun _ => rfl
        simp only [way, htarget, hback, require?, not_le.mp hback, hlower, hends,
          map_some, bind_some, if_false, decide_true, if_true, bind_eq_bind,
          loadsTruths?, get?_ways, length_ways]
        cases endsAt s.conditions (i + 2) with
        | false =>
          simp only [Bool.false_eq_true, if_false, pure_bind, pure_def, bind_some]
          cases endsAt s.conditions (i + 1) <;>
            simp only [Bool.false_eq_true, if_false, if_true, toOption_lowered, toOption_marked,
              map_bind, comp_def, map_some, Shape.enter, without_eq,
              withoutAll_nil, List.append_nil]
        | true =>
          rw [if_pos rfl, if_pos rfl, toOption_bind, toOption_lineAt]
          cases get? s.lines (i + 1) with
          | none => rfl
          | some next =>
            simp only [map_some, bind_some, pure_bind, pure_def, leads, way]
            cases endsAt s.conditions (i + 1) <;>
              cases next.flow == Flow.skipNext && next.target == some (i + 3 : Int) <;>
              simp only [Bool.false_eq_true, if_false, if_true, toOption_lowered,
                toOption_marked, map_bind, comp_def, map_some,
                Shape.enter, without_eq, withoutAll_nil, List.append_nil]

def alternativeMark? (ws : List (Flow × Option Int)) (conditions : List (Nat × Int)) (i : Nat) :
    Option String :=
  (loadsTruths? ws conditions i).map fun loads =>
    if endsAt conditions (i + 1) then "ELSE: " else if loads then "ELSE2: " else "IF-TRUE-ELSE: "

def loweredMarks : List String := ["ELSE: ", "ELSE2: "]

theorem mem_of_alternativeMark (h : alternativeMark? ws conditions i = some m) :
    m = "IF-TRUE-ELSE: " ∨ m ∈ loweredMarks := by
  obtain ⟨loads, -, rfl⟩ := map_eq_some_iff.mp h
  by_cases hends : endsAt conditions (i + 1) = true
  · simp [hends, loweredMarks]
  · cases loads <;> simp [hends, loweredMarks]

def markChanges (m : String) : List Change :=
  if m ∈ loweredMarks then [.shift (-1), .mark m] else [.mark m]

theorem edits_of_alternativeTurn {conditions : List (Nat × Int)}
    (h : alternativeTurn? ws conditions i = some t) :
    t.conditions = [] ∧ ∃ (m : String) (inside : List Nat), alternativeMark? ws conditions i = some m ∧
      t.edits = (markChanges m).map (⟨i, ·⟩) ++ shifts inside := by
  simp only [alternativeTurn?, bind_eq_bind, bind_eq_some_iff] at h
  obtain ⟨_, -, j, -, _, -, loads, hloads, place, hplace, inside, -, h⟩ := h
  obtain rfl := some.inj h
  obtain ⟨-, rfl⟩ := resolve?_natCast.mp hplace
  refine ⟨by split_ifs <;> rfl, _, inside, by rw [alternativeMark?, hloads]; rfl, ?_⟩
  by_cases hends : endsAt conditions (i + 1) = true
  · simp [hends, markChanges, loweredMarks]
  · cases loads <;> simp [hends, markChanges, loweredMarks]

theorem foldlM_takeAlternative (xs : List Nat) (s : Shape) :
    (xs.foldlM takeAlternative s).toOption =
      (xs.mapM (alternativeTurn? (ways s.lines) s.conditions)).map
        fun ts => s.enter (Turn.sum ts) := by
  refine foldlM_turns (fun s => alternativeTurn? (ways s.lines) s.conditions)
    takeAlternative_turn (fun s i t ht => ?_) xs s
  have hconditions : (s.enter t).conditions = s.conditions := by
    rw [Shape.enter, (edits_of_alternativeTurn ht).1, List.append_nil]
  rw [ways_enter, hconditions]

end ApkWorkshop.Listing
