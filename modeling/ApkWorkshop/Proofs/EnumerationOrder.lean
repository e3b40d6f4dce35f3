import ApkWorkshop.Proofs.PassOrder
import ApkWorkshop.Proofs.Steps
import Mathlib

/-!
# The Order of Enumeration Does Not Matter

Annotating a function body looks at the shape that the six passes found: at its loops and conditions in
ascending order, at the lines, and at the jumps left over, kind by kind. So it cannot tell apart shapes
that are the same (`Shape.Same`), except by the texts of the lines, which it hands on.
-/

namespace ApkWorkshop.Listing

open Bytecode List
open Text

/-! ### Sorting -/

theorem mergeSort_congr {α : Type} {le : α → α → Bool}
    (htrans : ∀ a b c, le a b = true → le b c = true → le a c = true)
    (htotal : ∀ a b, (le a b || le b a) = true)
    (hantisymm : ∀ a b, le a b = true → le b a = true → a = b) {xs ys : List α} (h : xs.Perm ys) :
    xs.mergeSort le = ys.mergeSort le :=
  List.Perm.eq_of_pairwise (fun a b _ _ => hantisymm a b) (pairwise_mergeSort htrans htotal xs)
    (pairwise_mergeSort htrans htotal ys)
    ((mergeSort_perm xs le).trans (h.trans (mergeSort_perm ys le).symm))

theorem sortPairs_congr {pairs pairs' : List (Int × Int)} (h : pairs.Perm pairs') :
    sortPairs pairs = sortPairs pairs' := by
  refine mergeSort_congr ?_ ?_ ?_ h <;> simp [Prod.ext_iff] <;> omega

theorem sortConditions_congr {conditions conditions' : List (Nat × Int)}
    (h : conditions.Perm conditions') : sortConditions conditions = sortConditions conditions' := by
  refine mergeSort_congr ?_ ?_ ?_ h <;> simp [Prod.ext_iff] <;> omega

theorem placesText_congr {places places' : List Nat} (h : places.Perm places') :
    placesText places = placesText places' := by
  rw [placesText, placesText, mergeSort_congr ?_ ?_ ?_ h] <;> simp <;> omega

/-! ### Open jumps -/

def SameJumps : List (String × List Nat) → List (String × List Nat) → Prop :=
  List.Forall₂ fun p q => p.1 = q.1 ∧ p.2.Perm q.2

variable {jumps jumps' : List (String × List Nat)} {ls ls' : List CodeLine}

theorem SameJumps.map_eq (h : SameJumps jumps jumps') {α : Type} {f : String × List Nat → α}
    (hf : ∀ kind places places', places.Perm places' → f (kind, places) = f (kind, places')) :
    jumps.map f = jumps'.map f := by
  induction h with
  | nil => rfl
  | @cons p q _ _ hpq _ ih =>
    obtain ⟨kind, places⟩ := p
    obtain ⟨kind', places'⟩ := q
    obtain ⟨rfl, hperm⟩ := hpq
    rw [map_cons, map_cons, ih, hf kind places places' hperm]

variable {H : Prop} {s s' : Shape}

theorem Shape.Same.openJumps (h : Shape.Same H s s') : SameJumps (openJumps s) (openJumps s') := by
  have hflows : s.lines.map (·.flow) = s'.lines.map (·.flow) := by
    have hfirst := congrArg (List.map Prod.fst) h.lines.ways_eq
    rw [ways, ways, map_map, map_map] at hfirst
    exact hfirst
  have hrefl : ∀ jumps, SameJumps jumps jumps := fun jumps =>
    forall₂_same.mpr fun p _ => ⟨rfl, .refl p.2⟩
  simp only [Listing.openJumps, hflows, h.forStarts, h.forEnds, h.forIns, h.jumps, h.branches, h.skips,
    filter_append]
  refine rel_append (hrefl _) ?_
  simp only [filter_cons, h.elses.isEmpty_eq, filter_nil]
  split
  · exact .cons ⟨rfl, h.elses⟩ .nil
  · exact .nil

theorem SameJumps.text_eq (h : SameJumps jumps jumps') :
    openJumpsText jumps = openJumpsText jumps' := by
  rw [openJumpsText, openJumpsText, h.map_eq]
  intro kind places places' hperm
  simp only [placesText_congr hperm]

theorem SameJumps.any_eq (h : SameJumps jumps jumps') (kind : String) :
    jumps.any (·.1 == kind) = jumps'.any (·.1 == kind) := by
  have hkinds : jumps.map (·.1) = jumps'.map (·.1) := h.map_eq fun _ _ _ _ => rfl
  have hany := congrArg (List.any · (· == kind)) hkinds
  simpa only [any_map, Function.comp_def] using hany

/-! ### Comments -/

def SameOutcome (H : Prop) (x x' : Except Fault (List CodeLine)) : Prop :=
  Option.Rel (SameLines H) x.toOption x'.toOption

theorem SameLines.length_eq (h : SameLines H ls ls') : ls.length = ls'.length := by
  rw [← length_ways ls, h.ways_eq, length_ways]

theorem SameLines.commentAll (h : SameLines H ls ls') {is is' : List Int} (his : is.Perm is')
    (c : String) :
    SameOutcome H (is.foldlM (fun ls i => commentLine ls i c) ls)
      (is'.foldlM (fun ls i => commentLine ls i c) ls') := by
  have hedits : ∀ (is : List Int) (ls : List CodeLine),
      (is.foldlM (fun ls i => commentLine ls i c) ls).toOption = _ := fun is ls =>
    toOption_changeLines is (.comment c) ls
  rw [SameOutcome, hedits, hedits, h.length_eq]
  refine rel_map (mapM_perm _ his) fun ks ks' _ hperm => h.editAll (hperm.map _) fun e he f hf => ?_
  obtain ⟨k, -, rfl⟩ := mem_map.mp he
  obtain ⟨k', -, rfl⟩ := mem_map.mp hf
  exact fun _ => rfl

theorem SameLines.commentLine (h : SameLines H ls ls') (i : Int) (c : String) :
    SameOutcome H (commentLine ls i c) (commentLine ls' i c) := by
  have hone := h.commentAll (.refl [i]) c
  simpa only [foldlM_cons, foldlM_nil, bind_pure] using hone

theorem commentLoops_eq (loops : List (Int × Int)) (ls : List CodeLine) :
    commentLoops loops ls =
      (loops.flatMap fun (i, j) => [i, j + 1]).foldlM (fun ls i => Listing.commentLine ls i "") ls := by
  rw [commentLoops]
  induction loops generalizing ls with
  | nil => rfl
  | cons loop loops ih =>
    simp only [foldlM_cons, flatMap_cons, foldlM_append, foldlM_nil, bind_pure, ih]

theorem SameLines.commentLoops (h : SameLines H ls ls') {loops loops' : List (Int × Int)}
    (hloops : loops.Perm loops') :
    SameOutcome H (commentLoops loops ls) (commentLoops loops' ls') := by
  rw [commentLoops_eq, commentLoops_eq]
  exact h.commentAll (hloops.flatMap_right _) ""

/-! ### Steps that follow steps -/

section Follows

variable {α β γ : Type} {R : α → α → Prop} {S : β → β → Prop} {f f' : α → Disassembly β} {c : Prop}

/-- Whenever the first step ends well, so does the second, with the same effect and a related value. -/
def Follows (R : α → α → Prop) (m m' : Disassembly α) : Prop :=
  ∀ r a r', Ends m r a r' → ∃ a', Ends m' r a' r' ∧ R a a'

theorem follows_pure {a a' : α} (h : R a a') : Follows R (pure a) (pure a') := by
  intro r b r' hb
  obtain ⟨rfl, rfl⟩ := ends_pure.mp hb
  exact ⟨a', ends_pure.mpr ⟨rfl, rfl⟩, h⟩

theorem follows_bind {m m' : Disassembly α} (hm : Follows R m m')
    (hf : ∀ a a', R a a' → Follows S (f a) (f' a')) : Follows S (m >>= f) (m' >>= f') := by
  intro r b r' hb
  obtain ⟨a, r₁, ha, hb⟩ := ends_bind.mp hb
  obtain ⟨a', ha', hR⟩ := hm r a r₁ ha
  obtain ⟨b', hb', hS⟩ := hf a a' hR r₁ b r' hb
  exact ⟨b', ha'.bind hb', hS⟩

theorem follows_liftM {x x' : Except Fault α} (h : Option.Rel R x.toOption x'.toOption) :
    Follows R (liftM x) (liftM x') := by
  intro r a r' ha
  obtain ⟨rfl, rfl⟩ := ends_liftM.mp ha
  cases x' with
  | error fault => cases h
  | ok a' =>
    cases h with
    | some hR => exact ⟨a', ends_liftM.mpr ⟨rfl, rfl⟩, hR⟩

theorem follows_step (m : Disassembly α) (hf : ∀ a, Follows S (f a) (f' a)) :
    Follows S (m >>= f) (m >>= f') :=
  follows_bind (R := Eq) (fun _ a _ ha => ⟨a, ha, rfl⟩) fun a _ h => h ▸ hf a

theorem follows_when [Decidable c] (m : Disassembly Unit) {f f' : Unit → Disassembly β}
    (hf : Follows S (f ()) (f' ())) :
    Follows S (if c then m >>= f else f ()) (if c then m >>= f' else f' ()) := by
  split
  · exact follows_step m fun _ => hf
  · exact hf

theorem follows_changed [Decidable c] {x x' : Except Fault (List CodeLine)}
    {f f' : List CodeLine → Disassembly β} (hx : SameOutcome H x x') (hls : SameLines H ls ls')
    (hf : ∀ ls ls', SameLines H ls ls' → Follows S (f ls) (f' ls')) :
    Follows S (if c then liftM x >>= f else f ls) (if c then liftM x' >>= f' else f' ls') := by
  split
  · exact follows_bind (follows_liftM hx) hf
  · exact hf ls ls' hls

theorem follows_forIn {xs : List γ} {b b' : α} {f f' : γ → α → Disassembly (ForInStep α)}
    (hbody : ∀ x b b', R b b' → Follows (fun p p' => ∃ c c', p = .yield c ∧ p' = .yield c' ∧ R c c')
      (f x b) (f' x b')) (hb : R b b') : Follows R (forIn xs b f) (forIn xs b' f') := by
  induction xs generalizing b b' with
  | nil => exact follows_pure hb
  | cons x xs ih =>
    rw [forIn_cons, forIn_cons]
    refine follows_bind (hbody x b b' hb) fun p p' hp => ?_
    obtain ⟨c, c', rfl, rfl, hc⟩ := hp
    exact ih hc

end Follows

/-- **Annotating** follows itself from one enumeration to another. -/
theorem follows_annotate (o : Options) {order order' : Enumeration} (h : order.Permutes)
    (h' : order'.Permutes) (lines : List CodeLine) :
    Follows (SameLines (OneKind (ways lines))) (annotate o order lines)
      (annotate o order' lines) := by
  refine follows_bind (follows_liftM (same_ofLines h h' lines)) fun shape shape' hsame => ?_
  dsimp only
  rw [sortConditions_congr hsame.conditions, sortPairs_congr hsame.loops, hsame.openJumps.text_eq,
    hsame.openJumps.any_eq]
  refine follows_when _ ?_
  refine follows_when _ ?_
  refine follows_changed (hsame.lines.commentLoops hsame.loops) hsame.lines fun ls₁ ls₁' h₁ => ?_
  refine follows_bind (follows_forIn (fun b ls ls' hls => ?_) h₁) fun ls₂ ls₂' h₂ => ?_
  · refine follows_changed (hls.commentLine _ _) hls fun ls₁ ls₁' h₁ => ?_
    exact follows_when _ (follows_pure ⟨_, _, rfl, rfl, h₁⟩)
  refine follows_bind (follows_forIn (fun b ls ls' hls => ?_) h₂) fun ls₃ ls₃' h₃ => ?_
  · exact follows_changed (hls.commentLine _ _) hls fun ls₁ ls₁' h₁ =>
      follows_pure ⟨_, _, rfl, rfl, h₁⟩
  split
  · refine follows_step _ fun _ => follows_step _ fun _ => follows_step _ fun _ => ?_
    exact follows_when _ (follows_pure h₃)
  · exact follows_when _ (follows_pure h₃)

/-- **The order of enumeration does not matter.** Whichever order the passes take their lines in,
annotating a body succeeds or fails alike. On success it writes the same and gives the same lines apart
from their texts; the loops in ascending order, the groups of conditions and the open jumps are the same.
The texts are the same too if no line is the start both of a repetition and of another loop. -/
theorem annotate_enumeration (o : Options) {order order' : Enumeration} (h : order.Permutes)
    (h' : order'.Permutes) (lines : List CodeLine) (r : Reading) :
    ((∃ ls r₁, Ends (annotate o order lines) r ls r₁) ↔
      ∃ ls r₁, Ends (annotate o order' lines) r ls r₁) ∧
    ∀ ls ls' r₁ r₁', Ends (annotate o order lines) r ls r₁ →
      Ends (annotate o order' lines) r ls' r₁' →
      r₁ = r₁' ∧ ls.map CodeLine.textless = ls'.map CodeLine.textless ∧
      (OneKind (ways lines) → ls = ls') ∧
      ∃ s s', Shape.ofLines order lines = .ok s ∧ Shape.ofLines order' lines = .ok s' ∧
        sortPairs s.loops = sortPairs s'.loops ∧
        groupBranches (sortConditions s.conditions) = groupBranches (sortConditions s'.conditions) ∧
        SameJumps (openJumps s) (openJumps s') := by
  have hfollows := follows_annotate o h h' lines
  refine ⟨⟨?_, ?_⟩, ?_⟩
  · rintro ⟨ls, r₁, hls⟩
    obtain ⟨ls', hls', -⟩ := hfollows r ls r₁ hls
    exact ⟨ls', r₁, hls'⟩
  · rintro ⟨ls', r₁, hls'⟩
    obtain ⟨ls, hls, -⟩ := follows_annotate o h' h lines r ls' r₁ hls'
    exact ⟨ls, r₁, hls⟩
  · intro ls ls' r₁ r₁' hls hls'
    obtain ⟨ls'', hls'', htexts, hsame⟩ := hfollows r ls r₁ hls
    obtain ⟨rfl, rfl⟩ := hls''.unique hls'
    refine ⟨rfl, htexts, hsame, ?_⟩
    obtain ⟨s, _, hs, -⟩ := ends_bind.mp hls
    obtain ⟨s', _, hs', -⟩ := ends_bind.mp hls'
    have hs := (ends_liftM.mp hs).1
    have hs' := (ends_liftM.mp hs').1
    have hshapes := same_ofLines h h' lines
    rw [hs, hs'] at hshapes
    obtain ⟨hshape⟩ := hshapes
    exact ⟨s, s', hs, hs', sortPairs_congr hshape.loops,
      congrArg groupBranches (sortConditions_congr hshape.conditions), hshape.openJumps⟩

def Enumeration.descending : Enumeration :=
  ⟨List.reverse, List.reverse, List.reverse, List.reverse, List.reverse, List.reverse⟩

theorem permutes_ascending : Enumeration.ascending.Permutes :=
  ⟨fun _ => .refl _, fun _ => .refl _, fun _ => .refl _, fun _ => .refl _, fun _ => .refl _,
    fun _ => .refl _⟩

theorem permutes_descending : Enumeration.descending.Permutes :=
  ⟨reverse_perm, reverse_perm, reverse_perm, reverse_perm, reverse_perm, reverse_perm⟩

def bodyOf (ws : List (Flow × Option Int)) : List CodeLine :=
  ws.map fun w => { text := "text", line := "line", flow := w.1, target := w.2 }

/-- Two loops that start at one condition, and two conditions with alternatives behind them. -/
def loopsAndAlternatives : List CodeLine := bodyOf [
  (.branch, some 2), (.jump, some 6), (.straight, none), (.jump, some 0), (.straight, none),
  (.jump, some 0), (.branch, some 8), (.jump, some 10), (.straight, none), (.jump, some 11),
  (.straight, none), (.branch, some 13), (.jump, some 15), (.straight, none), (.jump, some 16),
  (.straight, none), (.straight, none)]

/-- The loops and alternatives are annotated alike in both orders. -/
theorem annotate_enumeration_descending :
    ∃ ls r, Ends (annotate { trace := true } .ascending loopsAndAlternatives) { rest := [] } ls r ∧
      Ends (annotate { trace := true } .descending loopsAndAlternatives) { rest := [] } ls r := by
  have hone : OneKind (ways loopsAndAlternatives) := by decide +kernel
  obtain ⟨hiff, hsame⟩ := annotate_enumeration { trace := true } permutes_ascending
    permutes_descending loopsAndAlternatives { rest := [] }
  have hends : ∃ ls r, Ends (annotate { trace := true } .ascending loopsAndAlternatives)
      { rest := [] } ls r := exists_ends_iff.mpr (by cbv)
  obtain ⟨ls, r, hls⟩ := hends
  obtain ⟨ls', r', hls'⟩ := hiff.mp ⟨ls, r, hls⟩
  obtain ⟨rfl, -, hlines, -⟩ := hsame ls ls' r r' hls hls'
  exact ⟨ls, r, hls, hlines hone ▸ hls'⟩

/-- A repetition and another loop that start at the same line. -/
def mixedLoops : List CodeLine := bodyOf [
  (.straight, none), (.branch, some 3), (.jump, some 0), (.straight, none), (.jump, some 0),
  (.straight, none)]

-- Where loops of both kinds start at one line, the order of its marks is the order of enumeration.
example : ¬ OneKind (ways mixedLoops) ∧
    (Shape.ofLines .ascending mixedLoops).toOption.map (·.lines) ≠
      (Shape.ofLines .descending mixedLoops).toOption.map (·.lines) := by decide +kernel

end ApkWorkshop.Listing
