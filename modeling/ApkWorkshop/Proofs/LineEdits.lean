import ApkWorkshop.Listing.Disassembly
import Mathlib.Tactic

/-!
# Edits of a Function Body

The passes over a function body do three things to its lines: they shift indents, put marks before
texts, and set comments. An `Edit` is one such change at one place. Edits at different places commute,
and so do changes of different kinds at one place; two marks, or two comments, commute if they are
equal. So the lines after many edits do not depend on their order, up to the order of marks.

No edit touches where a line leads (`ways_editAll`), which is all that the passes look at.
-/

namespace ApkWorkshop.Listing

open Bytecode List Position CodeLine

/-! ### Changes of a line -/

/-- A change of a line: shift its indent, put a mark before its text, or set the comment above it. -/
inductive Change
  | shift (n : Int)
  | mark (m : String)
  | comment (c : String)
deriving DecidableEq

def Change.apply : Change → CodeLine → CodeLine
  | .shift n, l => { l with indent := l.indent + n }
  | .mark m, l => { l with text := m ++ l.text }
  | .comment c, l => { l with comment := some c }

/-- Two changes that can be made in either order: comments that are equal, marks that are equal if `H`
holds, and any others. -/
def Change.Agrees (H : Prop) : Change → Change → Prop
  | .mark m, .mark m' => H → m = m'
  | .comment c, .comment c' => c = c'
  | _, _ => True

variable {H : Prop} {c d : Change} {ls ls' : List CodeLine} {es es' : List Edit}

theorem Change.apply_comm (h : c.Agrees H d) (hH : H) (l : CodeLine) :
    d.apply (c.apply l) = c.apply (d.apply l) := by
  cases c <;> cases d <;> simp_all [Change.apply, Change.Agrees, Int.add_right_comm]

def CodeLine.textless (l : CodeLine) : CodeLine := { l with text := "" }

def Change.textless : Change → Change
  | .mark _ => .mark ""
  | c => c

theorem Change.Agrees.textless (h : c.Agrees H d) : c.textless.Agrees True d.textless := by
  cases c <;> cases d <;> simp_all [Change.textless, Change.Agrees]

theorem Change.textless_apply (c : Change) (l : CodeLine) :
    (c.apply l).textless = c.textless.apply l.textless := by
  cases c <;> rfl

def CodeLine.way (l : CodeLine) : Flow × Option Int := (l.flow, l.target)

@[simp] theorem Change.way_apply (c : Change) (l : CodeLine) : (c.apply l).way = l.way := by
  cases c <;> rfl

/-! ### Edits of lines -/

/-- A change at a place. -/
structure Edit where
  place : Nat
  change : Change
deriving DecidableEq

/-- Two edits that can be made in either order, marks at one place if `H` holds. -/
def Edit.Agrees (H : Prop) (e f : Edit) : Prop :=
  e.place = f.place → e.change.Agrees H f.change

def Edit.textless (e : Edit) : Edit := { e with change := e.change.textless }

def edit (ls : List CodeLine) (e : Edit) : List CodeLine :=
  ls.modify e.place e.change.apply

def editAll (ls : List CodeLine) (es : List Edit) : List CodeLine :=
  es.foldl edit ls

@[simp] theorem length_edit (ls : List CodeLine) (e : Edit) : (edit ls e).length = ls.length := by
  simp [edit]

@[simp] theorem length_editAll (ls : List CodeLine) (es : List Edit) :
    (editAll ls es).length = ls.length := by
  induction es generalizing ls with
  | nil => rfl
  | cons e es ih => exact (ih (edit ls e)).trans (length_edit ls e)

@[simp] theorem editAll_nil (ls : List CodeLine) : editAll ls [] = ls := rfl

theorem editAll_append (ls : List CodeLine) (es es' : List Edit) :
    editAll ls (es ++ es') = editAll (editAll ls es) es' :=
  foldl_append

theorem edit_comm {e f : Edit} (h : e.Agrees H f) (hH : H) (ls : List CodeLine) :
    edit (edit ls e) f = edit (edit ls f) e := by
  by_cases hplace : e.place = f.place
  · simp only [edit, hplace, modify_modify_eq]
    congr 1
    funext l
    exact Change.apply_comm (h hplace) hH l
  · exact modify_modify_ne _ _ _ hplace

/-- **Edits that agree** give the same lines in any order. -/
theorem editAll_perm (h : es.Perm es') (hagree : ∀ e ∈ es, ∀ f ∈ es, e.Agrees H f) (hH : H)
    (ls : List CodeLine) : editAll ls es = editAll ls es' :=
  h.foldl_eq' (fun e he f hf ls => edit_comm (hagree e he f hf) hH ls) ls

theorem map_modify {α β : Type} {f : α → α} {g : α → β} {k : β → β} (h : ∀ a, g (f a) = k (g a))
    (items : List α) (i : Nat) : (items.modify i f).map g = (items.map g).modify i k := by
  refine ext_getElem (by simp) fun n h₁ h₂ => ?_
  simp only [getElem_map, getElem_modify]
  split
  · exact h _
  · rfl

def ways (ls : List CodeLine) : List (Flow × Option Int) := ls.map CodeLine.way

@[simp] theorem length_ways (ls : List CodeLine) : (ways ls).length = ls.length := by
  simp [ways]

@[simp] theorem ways_editAll (ls : List CodeLine) (es : List Edit) :
    ways (editAll ls es) = ways ls := by
  induction es generalizing ls with
  | nil => rfl
  | cons e es ih =>
    have hfirst : ways (edit ls e) = ways ls :=
      (map_modify (k := id) (fun l => e.change.way_apply l) ls e.place).trans (by simp [ways])
    exact (ih (edit ls e)).trans hfirst

theorem map_textless_editAll (ls : List CodeLine) (es : List Edit) :
    (editAll ls es).map textless = editAll (ls.map textless) (es.map Edit.textless) := by
  induction es generalizing ls with
  | nil => rfl
  | cons e es ih =>
    have hfirst : (edit ls e).map textless = edit (ls.map textless) e.textless :=
      map_modify (fun l => e.change.textless_apply l) ls e.place
    exact (ih (edit ls e)).trans (by rw [hfirst]; rfl)

/-! ### Lines up to their texts -/

/-- The lines are the same apart from their texts; if `H` holds, their texts are the same too. -/
def SameLines (H : Prop) (ls ls' : List CodeLine) : Prop :=
  ls.map CodeLine.textless = ls'.map CodeLine.textless ∧ (H → ls = ls')

theorem SameLines.refl (ls : List CodeLine) : SameLines H ls ls := ⟨rfl, fun _ => rfl⟩

theorem SameLines.ways_eq (h : SameLines H ls ls') : ways ls = ways ls' := by
  have hways : ∀ ms : List CodeLine, ways ms = (ms.map textless).map way := by
    intro ms
    rw [map_map]
    rfl
  rw [hways, hways, h.1]

/-- **Edits in any order** give the same lines apart from texts, and the same texts if they agree. -/
theorem SameLines.editAll (h : SameLines H ls ls') (hes : es.Perm es')
    (hagree : ∀ e ∈ es, ∀ f ∈ es, e.Agrees H f) :
    SameLines H (editAll ls es) (editAll ls' es') := by
  refine ⟨?_, fun hH => ?_⟩
  · rw [map_textless_editAll, map_textless_editAll, h.1]
    refine editAll_perm (H := True) (hes.map _) (fun e he f hf => ?_) trivial _
    obtain ⟨e', he', rfl⟩ := mem_map.mp he
    obtain ⟨f', hf', rfl⟩ := mem_map.mp hf
    exact fun hplace => (hagree e' he' f' hf' hplace).textless
  · rw [h.2 hH]
    exact editAll_perm hes hagree hH ls'

/-! ### Positions -/

section Outcome

variable {α β : Type}

@[simp] theorem toOption_pure (a : α) : (pure a : Except Fault α).toOption = some a := rfl

@[simp] theorem toOption_throw (fault : Fault) :
    (throw fault : Except Fault α).toOption = none := rfl

@[simp] theorem toOption_bind (x : Except Fault α) (f : α → Except Fault β) :
    (x >>= f).toOption = x.toOption.bind fun a => (f a).toOption := by
  cases x <;> rfl

end Outcome

def require? (b : Bool) : Option Unit := if b then some () else none

@[simp] theorem toOption_requireLoop (b : Bool) : (requireLoop b).toOption = require? b := by
  cases b <;> rfl

@[simp] theorem toOption_lineAt (ls : List CodeLine) (i : Int) :
    (lineAt ls i).toOption = get? ls i := by
  rw [lineAt]
  cases get? ls i <;> rfl

@[simp] theorem get?_ways (ls : List CodeLine) (i : Int) :
    get? (ways ls) i = (get? ls i).map way := by
  rw [get?, get?, length_ways]
  cases resolve? ls.length i <;> simp [ways]

theorem resolve?_natCast {length place i : Nat} :
    resolve? length (i : Int) = some place ↔ i < length ∧ i = place := by
  simp only [resolve?, Int.natCast_nonneg, if_true, Int.toNat_natCast]
  split <;> simp_all

theorem toOption_changeLine (ls : List CodeLine) (i : Int) (c : Change) :
    (changeLine ls i c.apply).toOption = (resolve? ls.length i).map fun k => edit ls ⟨k, c⟩ := by
  rw [changeLine, modify?]
  cases resolve? ls.length i <;> rfl

/-- **Changes at positions** are edits, if all positions name places. -/
theorem toOption_changeLines (is : List Int) (c : Change) (ls : List CodeLine) :
    (is.foldlM (fun ls i => changeLine ls i c.apply) ls).toOption =
      (is.mapM (resolve? ls.length)).map fun ks => editAll ls (ks.map (⟨·, c⟩)) := by
  induction is generalizing ls with
  | nil => rfl
  | cons i is ih =>
    rw [foldlM_cons, toOption_bind, toOption_changeLine, mapM_cons]
    cases resolve? ls.length i with
    | none => rfl
    | some k =>
      simp only [Option.map_some, Option.bind_some, Option.bind_eq_bind, ih, length_edit]
      cases is.mapM (resolve? ls.length) <;> rfl

/-- The places of positions from one up to, but not including, another. -/
def placesFrom? (length : Nat) (first stop : Int) : Option (List Nat) :=
  (positions first stop).mapM (Position.resolve? length)

def shifts (places : List Nat) : List Edit :=
  places.map (⟨·, .shift 1⟩)

@[simp] theorem toOption_indentLines (ls : List CodeLine) (first stop : Int) :
    (indentLines ls first stop).toOption =
      (placesFrom? ls.length first stop).map fun ks => editAll ls (shifts ks) :=
  toOption_changeLines (positions first stop) (.shift 1) ls

@[simp] theorem toOption_markLine (ls : List CodeLine) (i : Int) (m : String) :
    (markLine ls i m).toOption = (resolve? ls.length i).map fun k => editAll ls [⟨k, .mark m⟩] :=
  toOption_changeLine ls i (.mark m)

end ApkWorkshop.Listing
