import ApkWorkshop.Proofs.IndentDepth

/-!
# Groups Lose No Condition

Conditions are merged into groups on a stack, and a group is written in postfix notation. The text of a
group can be read back (`foldlM_pushWord`). One merge keeps all conditions (`merge_keeps`), and so does
a whole run (`leavesOf_groupBranches`).
-/

namespace ApkWorkshop.Text

open List

/-- The numbers in a text: its longest runs of digits, as they are read. -/
def numbersIn (cs : List Char) : List Nat :=
  (cs.splitOnP fun c => !isDigit c).filterMap readNatural?

theorem numbersIn_append {c : Char} (hc : isDigit c = false) (xs ys : List Char) :
    numbersIn (xs ++ c :: ys) = numbersIn xs ++ numbersIn ys := by
  rw [numbersIn, splitOnP_append_cons, filterMap_append]
  · rfl
  · rw [hc]
    rfl

theorem numbersIn_decimal (n : Nat) : numbersIn (decimal n).toList = [n] := by
  have hdigits : ∀ c ∈ Nat.toDigits 10 n, (!isDigit c) = false := by
    intro c hc
    rw [isDigit_of_isDigit (isDigit_of_mem_toDigits hc)]
    rfl
  rw [numbersIn, toList_decimal, splitOnP_eq_singleton hdigits, filterMap_cons, readNatural?_toDigits]
  rfl

end ApkWorkshop.Text

namespace ApkWorkshop.Listing

open Bytecode List
open Text

variable {pairs : List (Nat × Int)} {ls ls' lines : List CodeLine} {order : Enumeration}

/-! ### Groups as texts -/

/-- The conditions of a group, from left to right. -/
def Group.leaves : Group → List Nat
  | .leaf line => [line]
  | .into left right => left.leaves ++ right.leaves
  | .beside left right => left.leaves ++ right.leaves

/-- Read one word of postfix notation: a number is a condition, and `x` and `y` join the two groups read
last. -/
def pushWord (stack : List Group) (word : List Char) : Option (List Group) :=
  match readNatural? word, stack with
  | some line, stack => some (.leaf line :: stack)
  | none, right :: left :: under =>
    if word = ['x'] then some (.into left right :: under)
    else if word = ['y'] then some (.beside left right :: under)
    else none
  | none, _ => none

/-- Read a text as a group in postfix notation. -/
def Group.ofText? (s : String) : Option Group :=
  match (s.toList.splitOn ' ').foldlM pushWord [] with
  | some [g] => some g
  | _ => none

theorem toList_text_into (left right : Group) : (Group.into left right).text.toList =
    left.text.toList ++ ' ' :: (right.text.toList ++ [' ', 'x']) := by
  simp [Group.text]

theorem toList_text_beside (left right : Group) : (Group.beside left right).text.toList =
    left.text.toList ++ ' ' :: (right.text.toList ++ [' ', 'y']) := by
  simp [Group.text]

theorem foldlM_pushWord (g : Group) (stack : List Group) :
    (g.text.toList.splitOn ' ').foldlM pushWord stack = some (g :: stack) := by
  induction g generalizing stack with
  | leaf line =>
    have hdigits : ' ' ∉ Nat.toDigits 10 line := fun h => absurd (isDigit_of_mem_toDigits h) (by decide)
    rw [Group.text, toList_decimal, splitOn_eq_singleton hdigits, foldlM_cons, pushWord.eq_def,
      readNatural?_toDigits]
    rfl
  | into left right ihl ihr | beside left right ihl ihr =>
    simp only [toList_text_into, toList_text_beside, splitOn_append_cons_self]
    rw [foldlM_append, ihl]
    exact (foldlM_append ..).trans (by rw [ihr]; rfl)

theorem numbersIn_text (g : Group) : numbersIn g.text.toList = g.leaves := by
  induction g with
  | leaf line => exact numbersIn_decimal line
  | into left right ihl ihr | beside left right ihl ihr =>
    simp only [toList_text_into, toList_text_beside]
    rw [numbersIn_append (by decide), numbersIn_append (by decide), ihl, ihr, Group.leaves]
    exact congrArg _ (append_nil _)

theorem head?_leaves (g : Group) : g.leaves.head? = some g.first := by
  induction g with
  | leaf line => rfl
  | into left right ihl _ | beside left right ihl _ =>
    rw [Group.leaves, head?_append, ihl]
    rfl

theorem first_mem_leaves (g : Group) : g.first ∈ g.leaves :=
  mem_of_mem_head? (head?_leaves g)

/-! ### Merging -/

/-- The conditions of all groups on the stack, from the bottom to the top. -/
def leavesOf (stack : List Branch) : List Nat :=
  stack.reverse.flatMap (·.group.leaves)

/-- Merging goes on until no rule applies, and then the last stack is left. -/
inductive MergesTo (line : Nat) : List Branch → List Branch → Prop
  | stop {stack : List Branch} (h : mergeTop? line stack = none) : MergesTo line stack stack
  | merge {stack next last : List Branch} {rule : MergeRule}
      (h : mergeTop? line stack = some (rule, next)) (hrest : MergesTo line next last) :
      MergesTo line stack last

variable {line : Nat} {stack next : List Branch} {rule : MergeRule}

/-- **One merge** takes one branch off the stack, and loses no condition. -/
theorem merge_keeps (h : mergeTop? line stack = some (rule, next)) :
    stack.length = next.length + 1 ∧ leavesOf next = leavesOf stack := by
  fun_cases mergeTop? line stack with
  | case1 top under rest htarget =>
    simp only [mergeTop?, if_pos htarget, Option.some.injEq, Prod.mk.injEq] at h
    simp [← h.2, leavesOf, Group.leaves]
  | case2 top under rest hline htarget =>
    simp only [mergeTop?, if_neg hline, if_pos htarget, Option.some.injEq, Prod.mk.injEq] at h
    simp [← h.2, leavesOf, Group.leaves]
  | case3 top under rest hline htarget => simp [mergeTop?, hline, htarget] at h
  | case4 stack hshort => simp [mergeTop?] at h

theorem MergesTo.leavesOf_eq {last : List Branch} (h : MergesTo line stack last) :
    leavesOf last = leavesOf stack := by
  induction h with
  | stop => rfl
  | merge h _ ih => exact ih.trans (merge_keeps h).2

/-- **Merging ends**: every merge shortens the stack. -/
theorem mergesTo_mergeAll (fuel : Nat) (h : stack.length ≤ fuel) :
    MergesTo line stack (mergeAll line fuel stack).2 := by
  induction fuel generalizing stack with
  | zero =>
    obtain rfl := length_eq_zero_iff.mp (Nat.le_zero.mp h)
    exact .stop rfl
  | succ fuel ih =>
    rw [mergeAll]
    cases hmerge : mergeTop? line stack with
    | none => exact .stop hmerge
    | some merged =>
      have hlength := (merge_keeps hmerge).1
      exact .merge hmerge (ih (by omega))

theorem groupBranches_concat (taken : List (Nat × Int)) (c : Nat × Int) :
    MergesTo c.1 (⟨c.2, .leaf c.1⟩ :: (groupBranches taken).2) (groupBranches (taken ++ [c])).2 := by
  have htaken : groupBranches (taken ++ [c]) = takeBranch (groupBranches taken) c := foldl_append
  rw [htaken]
  exact mergesTo_mergeAll _ (le_refl _)

/-- **All conditions are kept**, in the order in which they are taken. -/
theorem leavesOf_groupBranches (conditions : List (Nat × Int)) :
    leavesOf (groupBranches conditions).2 = conditions.map (·.1) := by
  induction conditions using reverseRecOn with
  | nil => rfl
  | append_singleton taken c ih =>
    rw [(groupBranches_concat taken c).leavesOf_eq, map_append, ← ih]
    simp [leavesOf, Group.leaves]

theorem perm_sortConditions (pairs : List (Nat × Int)) : (sortConditions pairs).Perm pairs :=
  mergeSort_perm pairs _

theorem pairwise_sortConditions (h : (pairs.map (·.1)).Nodup) :
    ((sortConditions pairs).map (·.1)).Pairwise (· < ·) := by
  have hsorted : (sortConditions pairs).Pairwise fun p q =>
      decide (p.1 < q.1 ∨ (p.1 = q.1 ∧ p.2 ≤ q.2)) = true :=
    pairwise_mergeSort (by simp; omega) (by simp; omega) pairs
  have hnodup := ((perm_sortConditions pairs).map (·.1)).symm.nodup h
  refine pairwise_map.mpr ((hsorted.and (pairwise_map.mp hnodup)).imp fun hpq => ?_)
  simp at hpq
  omega

/-! ### Comments -/

section Steps

variable {α β γ : Type} {r r' : Reading} {b : β} {c : Prop}

theorem ends_when [Decidable c] {m : Disassembly Unit} {f : Unit → Disassembly β}
    (h : Ends (if c then m >>= f else f ()) r b r') : ∃ r₁, Ends (f ()) r₁ b r' := by
  split at h
  · obtain ⟨_, r₁, _, hf⟩ := ends_bind.mp h
    exact ⟨r₁, hf⟩
  · exact ⟨r, h⟩

theorem ends_changed [Decidable c] {x : Except Fault α} {a : α} {f : α → Disassembly β}
    (h : Ends (if c then liftM x >>= f else f a) r b r') :
    ∃ a', (if c then x else .ok a) = .ok a' ∧ Ends (f a') r b r' := by
  split at h
  · rename_i hc
    obtain ⟨a', r₁, hx, hf⟩ := ends_bind.mp h
    obtain ⟨hx, rfl⟩ := ends_liftM.mp hx
    exact ⟨a', by rwa [if_pos hc], hf⟩
  · rename_i hc
    exact ⟨a, if_neg hc, h⟩

/-- **A loop** that ends well has taken every item; what holds of those taken holds of all in the end. -/
theorem ends_forIn {xs : List γ} {a a' : α} {f : γ → α → Disassembly (ForInStep α)}
    (inv : List γ → α → Prop) (hinit : inv [] a)
    (hstep : ∀ taken x rest, xs = taken ++ x :: rest → ∀ a, inv taken a → ∀ r step r',
      Ends (f x a) r step r' → ∃ b, step = .yield b ∧ inv (taken ++ [x]) b)
    (h : Ends (forIn xs a f) r a' r') : inv xs a' := by
  have hrest : ∀ (rest taken : List γ) a r, xs = taken ++ rest → inv taken a →
      Ends (forIn rest a f) r a' r' → inv xs a' := by
    intro rest
    induction rest with
    | nil =>
      intro taken a r hxs hinv h
      obtain ⟨rfl, -⟩ := ends_pure.mp h
      rwa [hxs, append_nil]
    | cons x rest ih =>
      intro taken a r hxs hinv h
      rw [forIn_cons] at h
      obtain ⟨step, r₁, hx, h⟩ := ends_bind.mp h
      obtain ⟨b, rfl, hb⟩ := hstep taken x rest hxs a hinv r step r₁ hx
      exact ih (taken ++ [x]) b r₁ (by simpa using hxs) hb h
  exact hrest xs [] a r rfl hinit h

end Steps

theorem eq_of_commentLine {i : Nat} {comment : String} (h : commentLine ls i comment = .ok ls') :
    i < ls.length ∧ ls' = edit ls ⟨i, .comment comment⟩ := by
  have hoption := toOption_changeLine ls i (.comment comment)
  rw [show changeLine ls i (Change.comment comment).apply = .ok ls' from h] at hoption
  obtain ⟨place, hplace, rfl⟩ := Option.map_eq_some_iff.mp hoption.symm
  obtain ⟨hlt, rfl⟩ := resolve?_natCast.mp hplace
  exact ⟨hlt, rfl⟩

/-- The comment above a group, as its branch is written. -/
def Branch.comment (b : Branch) : String :=
  "\t# " ++ decimalInt b.target ++ ": " ++ b.group.text

/-- Each group of two or more conditions has its comment above its first condition. -/
def Commented (stack : List Branch) (ls : List CodeLine) : Prop :=
  ∀ b ∈ stack, b.group.isMerged = true → ls[b.group.first]?.map (·.comment) = some (some b.comment)

theorem Commented.take {taken : List Branch} {b : Branch} (h : Commented taken ls)
    (hfirst : ∀ b' ∈ taken, b'.group.first ≠ b.group.first)
    (hls' : (if b.group.isMerged = true then commentLine ls b.group.first b.comment else .ok ls) =
      .ok ls') :
    Commented (taken ++ [b]) ls' := by
  intro b' hb' hmerged
  split at hls'
  · obtain ⟨hlt, rfl⟩ := eq_of_commentLine hls'
    rcases mem_append.mp hb' with hb' | hb'
    · rw [← h b' hb' hmerged, edit, getElem?_modify_ne _ _ (hfirst b' hb').symm]
    · obtain rfl := mem_singleton.mp hb'
      simp [edit, hlt, Change.apply]
  · rename_i hb
    obtain rfl := Except.ok.inj hls'
    rcases mem_append.mp hb' with hb' | hb'
    · exact h b' hb' hmerged
    · obtain rfl := mem_singleton.mp hb'
      exact absurd hmerged hb

theorem commented_of_annotate {o : Options} {r r' : Reading}
    (h : Ends (annotate o order lines) r ls r') : ∃ s, Shape.ofLines order lines = .ok s ∧
      (((groupBranches (sortConditions s.conditions)).2.reverse.map (·.group.first)).Nodup →
        Commented (groupBranches (sortConditions s.conditions)).2 ls) := by
  obtain ⟨s, r₀, hs, hrest⟩ := ends_bind.mp h
  obtain ⟨r₁, hrest⟩ := ends_when hrest
  obtain ⟨r₂, hrest⟩ := ends_when hrest
  obtain ⟨ls₁, _, hrest⟩ := ends_changed hrest
  obtain ⟨ls₂, r₃, _, hrest⟩ := ends_bind.mp hrest
  obtain ⟨ls₃, r₄, hloop, hrest⟩ := ends_bind.mp hrest
  refine ⟨s, (ends_liftM.mp hs).1, fun hnodup => ?_⟩
  have hall : Commented (groupBranches (sortConditions s.conditions)).2.reverse ls₃ := by
    refine ends_forIn Commented (by simp [Commented]) ?_ hloop
    intro taken b rest hstack ls hls r step r' hbody
    obtain ⟨ls', hls', hbody⟩ := ends_changed hbody
    obtain ⟨rfl, -⟩ := ends_pure.mp hbody
    refine ⟨ls', rfl, hls.take (fun b' hb' => ?_) hls'⟩
    rw [hstack, map_append] at hnodup
    exact (nodup_append.mp hnodup).2.2 _ (mem_map_of_mem hb') _ (by simp)
  have hls : ls₃ = ls := by
    split at hrest
    · obtain ⟨_, _, _, hrest⟩ := ends_bind.mp hrest
      obtain ⟨_, _, _, hrest⟩ := ends_bind.mp hrest
      obtain ⟨_, _, _, hrest⟩ := ends_bind.mp hrest
      obtain ⟨_, hrest⟩ := ends_when hrest
      exact (ends_pure.mp hrest).1
    · obtain ⟨_, hrest⟩ := ends_when hrest
      exact (ends_pure.mp hrest).1
  exact fun b hb => hls ▸ hall b (mem_reverse.mpr hb)

theorem pairwise_leavesOf (h : (pairs.map (·.1)).Nodup) :
    (leavesOf (groupBranches (sortConditions pairs)).2).Pairwise (· < ·) :=
  leavesOf_groupBranches (sortConditions pairs) ▸ pairwise_sortConditions h

theorem first_le {g : Group} (h : g.leaves.Pairwise (· < ·)) :
    ∀ line ∈ g.leaves, g.first ≤ line := by
  intro line hline
  obtain ⟨rest, hrest⟩ := head?_eq_some_iff.mp (head?_leaves g)
  rw [hrest] at h hline
  rcases mem_cons.mp hline with rfl | hline
  · exact le_refl _
  · exact ((pairwise_cons.mp h).1 line hline).le

theorem nodup_first (h : (leavesOf stack).Pairwise (· < ·)) :
    (stack.reverse.map (·.group.first)).Nodup := by
  refine pairwise_map.mpr ((pairwise_flatMap.mp h).2.imp fun {b b'} hlt => ?_)
  exact (hlt _ (first_mem_leaves b.group) _ (first_mem_leaves b'.group)).ne

theorem nodup_conditions (horder : order.Permutes) {s : Shape}
    (h : Shape.ofLines order lines = .ok s) : (s.conditions.map (·.1)).Nodup := by
  rw [ofLines_eq] at h
  cases hbefore : findConditions order lines with
  | error fault =>
    rw [hbefore] at h
    cases h
  | ok before =>
    rw [hbefore] at h
    have hpass := congrArg Except.toOption h
    obtain ⟨ts, hts, rfl⟩ := Option.map_eq_some_iff.mp
      ((foldlM_takeAlternative _ before).symm.trans hpass)
    have hnone : (Turn.sum ts).conditions = [] := flatMap_eq_nil_iff.mpr fun t ht => by
      obtain ⟨_, -, hturn⟩ := exists_of_mapM hts ht
      exact (edits_of_alternativeTurn hturn).1
    rw [Shape.enter, hnone, append_nil]
    exact (raised_findConditions horder hbefore).nodup

/-- **Grouping loses no condition.** Take any conditions on distinct lines in ascending order, one after
the other: each time, merging comes to a stack where no rule applies. Every label in the end is a group in
postfix notation, and the numbers in the labels, from left to right, are the lines of the conditions in
ascending order, each once. In a body whose annotation succeeds the conditions are on distinct lines, and
the comment of each group of two or more stands above the smallest line in its label. -/
theorem grouping_keeps_conditions :
    (∀ pairs : List (Nat × Int), (pairs.map (·.1)).Nodup →
      (∀ taken c rest, sortConditions pairs = taken ++ c :: rest →
        MergesTo c.1 (⟨c.2, .leaf c.1⟩ :: (groupBranches taken).2) (groupBranches (taken ++ [c])).2) ∧
      (∀ b ∈ (groupBranches (sortConditions pairs)).2, Group.ofText? b.group.text = some b.group) ∧
      ((groupBranches (sortConditions pairs)).2.reverse.flatMap
        fun b => numbersIn b.group.text.toList).Perm (pairs.map (·.1)) ∧
      ((groupBranches (sortConditions pairs)).2.reverse.flatMap
        fun b => numbersIn b.group.text.toList).Pairwise (· < ·)) ∧
    ∀ (o : Options) (order : Enumeration), order.Permutes → ∀ lines r ls r',
      Ends (annotate o order lines) r ls r' → ∃ s, Shape.ofLines order lines = .ok s ∧
        (s.conditions.map (·.1)).Nodup ∧
        ∀ b ∈ (groupBranches (sortConditions s.conditions)).2, b.group.isMerged = true →
          ∃ line ∈ numbersIn b.group.text.toList,
            (∀ other ∈ numbersIn b.group.text.toList, line ≤ other) ∧
            ls[line]?.map (·.comment) = some (some b.comment) := by
  simp only [numbersIn_text]
  refine ⟨fun pairs hpairs => ⟨fun taken c _ _ => groupBranches_concat taken c,
    fun b _ => by rw [Group.ofText?, foldlM_pushWord], ?_, pairwise_leavesOf hpairs⟩, ?_⟩
  · rw [← leavesOf, leavesOf_groupBranches]
    exact (perm_sortConditions pairs).map _
  · intro o order horder lines r ls r' h
    obtain ⟨s, hs, hcomments⟩ := commented_of_annotate h
    have hnodup := nodup_conditions horder hs
    have hleaves := pairwise_leavesOf hnodup
    refine ⟨s, hs, hnodup, fun b hb hmerged => ⟨_, first_mem_leaves b.group, ?_, ?_⟩⟩
    · exact first_le ((pairwise_flatMap.mp hleaves).1 b (mem_reverse.mpr hb))
    · exact hcomments (nodup_first hleaves) b hb hmerged

/-- The body of a function with two conditions that guard it together. -/
def guardedTwice : List Description :=
  ([0x1a, 0x80008016, 0x1a, 0x80000016, 0x80, 0x80001e].mapM (Description.ofWord [])).toOption.getD []

/-- Conditions listed out of order are grouped in order, and the guarded body is annotated. -/
theorem grouping_keeps_conditions_guarded :
    ((groupBranches (sortConditions [(6, 8), (0, 6), (4, 8), (2, 8), (9, 1)])).2.reverse.flatMap
      fun b => numbersIn b.group.text.toList).Pairwise (· < ·) ∧
    ∃ ls r s, Ends (annotate {} .ascending (codeLines guardedTwice)) { rest := [] } ls r ∧
      Shape.ofLines .ascending (codeLines guardedTwice) = .ok s ∧ (s.conditions.map (·.1)).Nodup := by
  have hends : ∃ ls r, Ends (annotate {} .ascending (codeLines guardedTwice)) { rest := [] } ls r :=
    exists_ends_iff.mpr (by cbv)
  obtain ⟨ls, r, h⟩ := hends
  obtain ⟨s, hs, hnodup, -⟩ := grouping_keeps_conditions.2 {} _ permutes_ascending _ _ _ _ h
  exact ⟨(grouping_keeps_conditions.1 _ (by decide)).2.2.2, ls, r, s, h, hs, hnodup⟩

-- The two conditions are one group, and its comment stands above the first.
example : (Shape.ofLines .ascending (codeLines guardedTwice)).toOption.map (fun s =>
    (groupBranches (sortConditions s.conditions)).2.map (·.text)) = some ["[5, '0 2 y']"] := by
  cbv

end ApkWorkshop.Listing
