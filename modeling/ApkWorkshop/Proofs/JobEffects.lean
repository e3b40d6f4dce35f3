import ApkWorkshop.Proofs.Steps
import ApkWorkshop.Tool.Versions

/-!
# What Jobs Leave Behind

A job that stops with a fault has still done everything up to that point, and another job may go on
from there. So what a job leaves behind is said for all its ends at once.
-/

namespace ApkWorkshop

open List Job Tool

variable {w w' : World} {id : Nat}

/-! ### All ends of a step -/

section

variable {ε σ α β : Type}

/-- The step ends, well or with a fault, in a way for which `Q` holds. -/
def Leaves (m : ExceptT ε (StateM σ) α) (s : σ) (Q : Except ε α → σ → Prop) : Prop :=
  Q (m.run.run s).1 (m.run.run s).2

section

variable {m : ExceptT ε (StateM σ) α} {P : Except ε α → σ → Prop} {Q : Except ε β → σ → Prop}
  {s' s : σ} {a : α} {e : ε} {f : α → ExceptT ε (StateM σ) β} {g : σ → σ} {xs : List α}
  {good : Prop}

theorem Leaves.mono {Q : Except ε α → σ → Prop} (h : Leaves m s P) (hPQ : ∀ r s', P r s' → Q r s') :
    Leaves m s Q :=
  hPQ _ _ h

theorem Leaves.and {Q : Except ε α → σ → Prop} (h : Leaves m s P) (h' : Leaves m s Q) :
    Leaves m s fun r s' => P r s' ∧ Q r s' :=
  ⟨h, h'⟩

theorem Leaves.of_ends {Q : Except ε α → σ → Prop} (h : Leaves m s Q) (hends : Ends m s a s') :
    Q (.ok a) s' := by
  rw [Leaves, hends] at h
  exact h

theorem Ends.leaves {Q : Except ε α → σ → Prop} (h : Ends m s a s') (hQ : Q (.ok a) s') :
    Leaves m s Q := by
  rw [Leaves, h]
  exact hQ

theorem leaves_pure {Q : Except ε α → σ → Prop} (h : Q (.ok a) s) : Leaves (pure a) s Q := h

theorem leaves_throw {Q : Except ε α → σ → Prop} (h : Q (.error e) s) :
    Leaves (throw e) s Q := h

theorem leaves_throw_bind (h : Q (.error e) s) : Leaves (throw e >>= f) s Q := h

/-- **Two steps in a row**: the second goes on from a good end of the first. -/
theorem Leaves.bind (h : Leaves m s P) (hok : ∀ a s', P (.ok a) s' → Leaves (f a) s' Q)
    (herror : ∀ e s', P (.error e) s' → Q (.error e) s') : Leaves (m >>= f) s Q := by
  rw [Leaves] at h
  rw [Leaves, run_bind]
  cases hm : m.run.run s with
  | mk r s' =>
    rw [hm] at h
    cases r with
    | ok a => exact hok a s' h
    | error e => exact herror e s' h

theorem Leaves.bind_ok {P : σ → Prop} (h : Leaves m s fun r s' => (∃ a, r = .ok a) ∧ P s')
    (hok : ∀ a s', P s' → Leaves (f a) s' Q) : Leaves (m >>= f) s Q :=
  h.bind (fun a s' h => hok a s' h.2) fun e s' h => by
    obtain ⟨⟨a, ha⟩, -⟩ := h
    cases ha

theorem Ends.leaves_bind (h : Ends m s a s') (hf : Leaves (f a) s' Q) : Leaves (m >>= f) s Q := by
  rw [Leaves, h.run_bind]
  exact hf

theorem leaves_get_bind {f : σ → ExceptT ε (StateM σ) β} (h : Leaves (f s) s Q) :
    Leaves (get >>= f) s Q := h

theorem leaves_modify_bind {f : PUnit → ExceptT ε (StateM σ) β} (h : Leaves (f ⟨⟩) (g s) Q) :
    Leaves (modify g >>= f) s Q := h

theorem leaves_modify {Q : Except ε PUnit → σ → Prop} (h : Q (.ok ⟨⟩) (g s)) :
    Leaves (modify g) s Q := h

/-- The states before and after the step are related, however it ends. -/
def Within (R : σ → σ → Prop) (m : ExceptT ε (StateM σ) α) : Prop :=
  ∀ s, Leaves m s fun _ s' => R s s'

variable {R : σ → σ → Prop}

theorem within_pure (hrefl : ∀ s, R s s) (a : α) : Within R (pure a : ExceptT ε (StateM σ) α) :=
  fun s => leaves_pure (hrefl s)

theorem within_throw (hrefl : ∀ s, R s s) (e : ε) : Within R (throw e : ExceptT ε (StateM σ) α) :=
  fun s => leaves_throw (hrefl s)

theorem within_modify (h : ∀ s, R s (g s)) : Within R (modify g : ExceptT ε (StateM σ) PUnit) :=
  fun s => leaves_modify (h s)

theorem Within.bind (htrans : ∀ s s' s'', R s s' → R s' s'' → R s s'') (hm : Within R m)
    (hf : ∀ a, Within R (f a)) : Within R (m >>= f) := fun s =>
  (hm s).bind (fun a s' h => (hf a s').mono fun _ s'' h' => htrans s s' s'' h h') fun _ _ h => h

theorem within_forM (hrefl : ∀ s, R s s) (htrans : ∀ s s' s'', R s s' → R s' s'' → R s s'')
    {f : α → ExceptT ε (StateM σ) PUnit} (h : ∀ x ∈ xs, Within R (f x)) : Within R (xs.forM f) := by
  induction xs with
  | nil => exact within_pure hrefl _
  | cons x xs ih =>
    exact Within.bind htrans (h x mem_cons_self) fun _ =>
      ih fun y hy => h y (mem_cons_of_mem x hy)

/-- From a state with `J`, the step ends well in a state with `J`. -/
def Sure (J : σ → Prop) (m : ExceptT ε (StateM σ) α) : Prop :=
  ∀ s, J s → Leaves m s fun r s' => (∃ a, r = .ok a) ∧ J s'

variable {J : σ → Prop}

theorem Sure.bind (hm : Sure J m) (hf : ∀ a, Sure J (f a)) : Sure J (m >>= f) :=
  fun s hs => (hm s hs).bind_ok fun a s' h => hf a s' h

theorem sure_forM {f : α → ExceptT ε (StateM σ) PUnit} (h : ∀ x ∈ xs, Sure J (f x)) :
    Sure J (xs.forM f) := by
  induction xs with
  | nil => exact fun _ hs => leaves_pure ⟨⟨_, rfl⟩, hs⟩
  | cons x xs ih =>
    exact Sure.bind (h x mem_cons_self) fun _ =>
      ih fun y hy => h y (mem_cons_of_mem x hy)

/-- The step keeps `J`, its result has `P` if it ends well, and it does so if `good`. -/
def Safe (good : Prop) (J : σ → Prop) (P : α → Prop) (m : ExceptT ε (StateM σ) α) : Prop :=
  ∀ s, J s → Leaves m s fun r s' =>
    J s' ∧ (∀ a, r = .ok a → P a) ∧ (good → ∃ a, r = .ok a)

theorem safe_pure {P : α → Prop} (h : P a) : Safe good J P (pure a : ExceptT ε (StateM σ) α) :=
  fun _ hs => leaves_pure ⟨hs, by rintro _ ⟨⟩; exact h, fun _ => ⟨a, rfl⟩⟩

theorem Safe.bind {P : α → Prop} {Q : β → Prop} (hm : Safe good J P m)
    (hf : ∀ a, P a → Safe good J Q (f a)) : Safe good J Q (m >>= f) := by
  intro s hs
  refine (hm s hs).bind (fun a s' h => hf a (h.2.1 a rfl) s' h.1) fun e s' h => ⟨h.1, ?_, ?_⟩
  · rintro a ⟨⟩
  · intro hgood
    obtain ⟨a, ha⟩ := h.2.2 hgood
    cases ha

end

end

namespace Job

variable {α β : Type} {w : World} {m : Job α} {handle : Fault → Job α} {R : World → World → Prop}
  {x : Except Fault α} {f : α → Job β} {Q : Except Fault β → World → Prop}

theorem leaves_files_bind {f : Files → Job α} {Q : Except Fault α → World → Prop}
    (h : Leaves (f w.files) w Q) : Leaves (files >>= f) w Q := h

theorem ends_of_doneIn {a : α} (h : (m.doneIn w).1.toOption = some a) :
    Ends m w a (m.doneIn w).2 := by
  refine ends_of_run ?_
  rw [← doneIn]
  cases hresult : (m.doneIn w).1 with
  | ok b =>
    rw [hresult] at h
    rw [Option.some.inj h]
  | error fault =>
    rw [hresult] at h
    cases h

theorem doneIn_orElse (m : Job α) (handle : Fault → Job α) (w : World) :
    (m.orElse handle).doneIn w =
      match m.doneIn w with
      | (Except.ok a, w') => (Except.ok a, w')
      | (Except.error e, w') => (handle e).doneIn w' := by
  simp only [doneIn, orElse, tryCatch, tryCatchThe, MonadExceptOf.tryCatch, ExceptT.tryCatch,
    ExceptT.mk, ExceptT.run, StateT.run, bind, StateT.bind]
  generalize m w = result
  obtain ⟨r, w'⟩ := result
  cases r <;> rfl

theorem leaves_orElse {P Q : Except Fault α → World → Prop} (h : Leaves m w P)
    (hok : ∀ a w', P (.ok a) w' → Q (.ok a) w')
    (herror : ∀ e w', P (.error e) w' → Leaves (handle e) w' Q) : Leaves (m.orElse handle) w Q := by
  rw [Leaves, ← doneIn] at h
  rw [Leaves, ← doneIn, doneIn_orElse]
  cases hm : m.doneIn w with
  | mk r w' =>
    rw [hm] at h
    cases r with
    | ok a => exact hok a w' h
    | error e => exact herror e w' h

theorem within_orElse (htrans : ∀ w w' w'', R w w' → R w' w'' → R w w'') (hm : Within R m)
    (hhandle : ∀ e, Within R (handle e)) : Within R (m.orElse handle) := fun w =>
  leaves_orElse (hm w) (fun _ _ h => h)
    fun e w' h => (hhandle e w').mono fun _ w'' h' => htrans w w' w'' h h'

def Yields (m : Job α) (w : World) (x : Except Fault α) : Prop :=
  m.doneIn w = (x, w)

theorem Yields.leaves_bind (h : Yields m w x) (hok : ∀ a, x = .ok a → Leaves (f a) w Q)
    (herror : ∀ e, x = .error e → Q (.error e) w) : Leaves (m >>= f) w Q := by
  have hm : Leaves m w fun r w' => r = x ∧ w' = w := by
    rw [Leaves, ← doneIn, h]
    exact ⟨rfl, rfl⟩
  refine hm.bind (fun a w' hend => ?_) fun e w' hend => ?_
  · obtain ⟨hx, rfl⟩ := hend
    exact hok a hx.symm
  · obtain ⟨hx, rfl⟩ := hend
    exact herror e hx.symm

theorem Yields.of_ends {a : α} {x : Except Fault β} (h : Ends m w a w) (hf : Yields (f a) w x) :
    Yields (m >>= f) w x :=
  h.run_bind.trans hf

theorem yields_attempt (x : Except Fault α) (w : World) : Yields (attempt x) w x := by
  cases x <;> rfl

theorem leaves_attempt_bind (hok : ∀ a, x = .ok a → Leaves (f a) w Q)
    (herror : ∀ e, x = .error e → Q (.error e) w) : Leaves (attempt x >>= f) w Q :=
  (yields_attempt x w).leaves_bind hok herror

theorem within_attempt (hrefl : ∀ w, R w w) (x : Except Fault α) : Within R (attempt x) := by
  cases x with
  | ok a => exact within_pure hrefl a
  | error e => exact within_throw hrefl e

end Job

theorem toOption_eq_some {α : Type} {x : Except Fault α} {a : α} (h : x.toOption = some a) :
    x = .ok a := by
  cases x with
  | error e => cases h
  | ok b => rw [Option.some.inj h]

/-! ### What only people and listeners notice -/

/-- Only the journal and the screen differ, and the same panels follow the same cells. -/
structure Told (w w' : World) : Prop where
  rest : w' = { w with journal := w'.journal, display := w'.display }
  watchers : w'.display.cells.map (·.watcher) = w.display.cells.map (·.watcher)

namespace Told

variable {w w' w'' : World}

theorem refl (w : World) : Told w w := ⟨rfl, rfl⟩

theorem trans (h : Told w w') (h' : Told w' w'') : Told w w'' :=
  ⟨by rw [h'.rest, h.rest], h'.watchers.trans h.watchers⟩

theorem files (h : Told w w') : w'.files = w.files := by rw [h.rest]

theorem outside (h : Told w w') : w'.outside = w.outside := by rw [h.rest]

theorem versionPath (h : Told w w') : w'.versionPath = w.versionPath := by rw [h.rest]

theorem settings (h : Told w w') : w'.settings = w.settings := by rw [h.rest]

theorem tools (h : Told w w') : w'.tools = w.tools := by rw [h.rest]

end Told

abbrev Tells {α : Type} (m : Job α) : Prop := Within Told m

section

variable {α β : Type}

theorem tells_pure (a : α) : Tells (pure a) := within_pure Told.refl a

theorem tells_throw (e : Fault) : Tells (throw e : Job α) := within_throw Told.refl e

theorem tells_get : Tells get := Told.refl

theorem Tells.bind {m : Job α} {f : α → Job β} (hm : Tells m) (hf : ∀ a, Tells (f a)) :
    Tells (m >>= f) :=
  Within.bind (R := Told) (fun _ _ _ => Told.trans) hm hf

theorem tells_attempt (x : Except Fault α) : Tells (attempt x) :=
  within_attempt Told.refl x

theorem Tells.orElse {m : Job α} {handle : Fault → Job α} (hm : Tells m)
    (hhandle : ∀ e, Tells (handle e)) : Tells (m.orElse handle) :=
  within_orElse (R := Told) (fun _ _ _ => Told.trans) hm hhandle

theorem tells_forM {f : α → Job PUnit} {xs : List α} (h : ∀ x ∈ xs, Tells (f x)) :
    Tells (xs.forM f) :=
  within_forM Told.refl (fun _ _ _ => Told.trans) h

theorem tells_files : Tells files := tells_get.bind fun _ => tells_pure _

theorem tells_note (f : Journal → Journal) : Tells (note f) :=
  within_modify fun _ => ⟨rfl, rfl⟩

theorem tells_onDisplay {f : Display → Display}
    (h : ∀ d, (f d).cells.map (·.watcher) = d.cells.map (·.watcher)) : Tells (onDisplay f) :=
  within_modify fun w => ⟨rfl, h w.display⟩

theorem tells_change (id : Nat) (f : Widget → Widget) : Tells (change id f) :=
  tells_onDisplay fun _ => rfl

end

/-! ### Tools as they are -/

/-- The tool with a number, as jobs find it. -/
def World.tool (w : World) (id : Nat) : Tool :=
  (w.tools[id]?).getD { settings := 0, part := .unpackCar }

theorem Tool.ends_byNumber (w : World) (id : Nat) : Ends (byNumber id) w (w.tool id) w := by
  refine Ends.bind (ends_get.mpr ⟨rfl, rfl⟩) ?_
  rw [World.tool]
  cases w.tools[id]? <;> exact ends_pure.mpr ⟨rfl, rfl⟩

theorem Told.tool (h : Told w w') (id : Nat) : w'.tool id = w.tool id := by
  rw [World.tool, World.tool, h.tools]

/-- What a tool knows about versions. -/
def World.shelf (w : World) (id : Nat) : Tool.Versions.Shelf :=
  match (w.tool id).part with
  | .versions folder last subfolders list => ⟨folder, last, subfolders, list⟩
  | _ => {}

theorem Tool.Versions.ends_shelf (w : World) (id : Nat) :
    Ends (Tool.Versions.shelf id) w (w.shelf id) w := by
  refine Ends.bind (ends_byNumber w id) ?_
  rw [World.shelf]
  generalize (w.tool id).part = part
  cases part <;> exact ends_pure.mpr ⟨rfl, rfl⟩

theorem World.lt_length_of_shelf (h : (w.shelf id).folder ≠ .null) : id < w.tools.length := by
  by_contra hlt
  rw [World.shelf, World.tool, getElem?_eq_none (by omega)] at h
  exact h rfl

/-- A world in which a tool knows something else about versions. -/
def World.withShelf (w : World) (id : Nat) (s : Tool.Versions.Shelf) : World :=
  { w with tools := w.tools.modify id fun t =>
      { t with part := .versions s.folder s.last s.subfolders s.list } }

theorem Tool.Versions.ends_change (w : World) (id : Nat) (f : Shelf → Shelf) :
    Ends (change id f) w () (w.withShelf id (f (w.shelf id))) :=
  (ends_shelf w id).bind (ends_modify.mpr rfl)

section

variable {w : World} {id : Nat} {s : Tool.Versions.Shelf}

theorem World.tool_withShelf (h : id < w.tools.length) : (w.withShelf id s).tool id =
    { w.tool id with part := .versions s.folder s.last s.subfolders s.list } := by
  rw [World.tool, World.tool, World.withShelf, getElem?_modify, getElem?_eq_getElem h]
  simp

theorem World.shelf_withShelf (h : id < w.tools.length) : (w.withShelf id s).shelf id = s := by
  rw [World.shelf, World.tool_withShelf h]

end

theorem Told.shelf (h : Told w w') (id : Nat) : w'.shelf id = w.shelf id := by
  rw [World.shelf, World.shelf, h.tool]

/-! ### Log lines and events -/

theorem tells_write (desktop : Nat) (line : String) : Tells (Desktop.write desktop line) := by
  refine Tells.bind (Tells.bind tells_get fun w => ?_) fun d => ?_
  · split <;> exact tells_pure _
  · split
    · exact (tells_change _ _).bind fun _ => (tells_change _ _).bind fun _ => tells_change _ _
    · exact tells_note _

theorem tells_tellLog (s : Sink) (v : Value) : Tells (s.tellLog v) := by
  cases s with
  | silent => exact tells_pure _
  | recorder failsOn =>
    refine (tells_note _).bind fun _ => ?_
    rw [Sink.failOn]
    split
    · exact tells_throw _
    · exact tells_pure _
  | desktop id => exact tells_write id _

theorem tells_byNumber (id : Nat) : Tells (byNumber id) := by
  refine tells_get.bind fun w => ?_
  split <;> exact tells_pure _

theorem tells_say (id : Nat) (line : String) : Tells (say id line) :=
  (tells_byNumber id).bind fun _ => tells_tellLog _ _

/-- Whoever is told never fails. -/
def Sink.TakesAll : Sink → Prop
  | .recorder failsOn => failsOn = []
  | _ => True

theorem Told.takesAll (h : Told w w') (hlog : (w.tool id).log.TakesAll) :
    (w'.tool id).log.TakesAll := by
  rw [h.tool]
  exact hlog

theorem Desktop.ends_byNumber (w : World) (desktop : Nat) : Ends (Desktop.byNumber desktop) w
    ((w.desktops[desktop]?).getD { settings := 0 }) w := by
  refine Ends.bind (ends_get.mpr ⟨rfl, rfl⟩) ?_
  cases w.desktops[desktop]? <;> exact ends_pure.mpr ⟨rfl, rfl⟩

theorem leaves_write_ok (w : World) (desktop : Nat) (line : String) :
    Leaves (Desktop.write desktop line) w fun r _ => r = .ok () := by
  refine (Desktop.ends_byNumber w desktop).leaves_bind ?_
  split
  · exact leaves_modify_bind (leaves_modify_bind (leaves_modify rfl))
  · exact leaves_modify rfl

theorem Tells.exists_ends {α : Type} {m : Job α} {a : α} (hm : Tells m)
    (hok : Leaves m w fun r _ => r = .ok a) : ∃ w', Ends m w a w' ∧ Told w w' :=
  ⟨_, ends_of_run hok, (hm w).of_ends (ends_of_run hok)⟩

/-- **A log line** goes through if its reader never fails. -/
theorem Tool.ends_say (h : (w.tool id).log.TakesAll) (line : String) :
    ∃ w', Ends (say id line) w () w' ∧ Told w w' := by
  refine (tells_say id line).exists_ends ((ends_byNumber w id).leaves_bind ?_)
  cases hlog : (w.tool id).log with
  | silent => exact leaves_pure rfl
  | recorder failsOn =>
    rw [hlog] at h
    obtain rfl : failsOn = [] := h
    exact leaves_modify_bind (leaves_pure rfl)
  | desktop number => exact leaves_write_ok w number _

theorem Tool.leaves_say {Q : Except Fault Unit → World → Prop} {line : String}
    (h : (w.tool id).log.TakesAll) (hQ : ∀ w', Told w w' → Q (.ok ()) w') :
    Leaves (say id line) w Q := by
  obtain ⟨w', hends, htold⟩ := ends_say h line
  exact hends.leaves (hQ w' htold)

theorem Tool.leaves_say_bind {β : Type} {Q : Except Fault β → World → Prop} {f : Unit → Job β}
    {line : String} (h : (w.tool id).log.TakesAll) (hf : ∀ w', Told w w' → Leaves (f ()) w' Q) :
    Leaves (say id line >>= f) w Q := by
  obtain ⟨w', hends, htold⟩ := ends_say h line
  exact hends.leaves_bind (hf w' htold)

theorem tells_showProgress (id : Nat) (percent : Int) : Tells (showProgress id percent) := by
  refine (tells_byNumber id).bind fun t => ?_
  cases t.progress with
  | silent => exact tells_pure _
  | recorder failsOn =>
    refine (tells_note _).bind fun _ => ?_
    rw [Sink.failOn]
    split
    · exact tells_throw _
    · exact tells_pure _
  | desktop number =>
    refine Tells.bind (tells_get.bind fun w => ?_) fun d => tells_change _ _
    split <;> exact tells_pure _

theorem Tool.ends_showProgress (h : (w.tool id).progress.TakesAll) (percent : Int) :
    ∃ w', Ends (showProgress id percent) w () w' ∧ Told w w' := by
  refine (tells_showProgress id percent).exists_ends ((ends_byNumber w id).leaves_bind ?_)
  cases hprogress : (w.tool id).progress with
  | silent => exact leaves_pure rfl
  | recorder failsOn =>
    rw [hprogress] at h
    obtain rfl : failsOn = [] := h
    exact leaves_modify_bind (leaves_pure rfl)
  | desktop number => exact (Desktop.ends_byNumber w number).leaves_bind (leaves_modify rfl)

theorem tells_recordEvent (name : String) (failure : Option String) (data : Value) :
    Tells (recordEvent name failure data) := by
  refine (tells_note _).bind fun _ => ?_
  split
  · exact tells_throw _
  · exact tells_pure _

theorem watchers_setCell (d : Display) (cell : Nat) (v : Value) :
    (d.setCell cell v).cells.map (·.watcher) = d.cells.map (·.watcher) := by
  refine ext_getElem? fun i => ?_
  rw [Display.setCell, getElem?_map, getElem?_map, getElem?_modify]
  cases d.cells[i]? with
  | none => rfl
  | some old =>
    split <;> rfl

theorem cells_foldl_change (f : Widget → Widget) (ids : List Nat) (d : Display) :
    (ids.foldl (fun d i => d.change i f) d).cells = d.cells := by
  induction ids generalizing d with
  | nil => rfl
  | cons id ids ih => rw [foldl_cons, ih, Display.change]

theorem tells_colour (panel : Nat) : Tells (ThemePanel.colour panel) := by
  have hthemes : ∀ p : ThemePanel, Tells p.themes := by
    intro p
    rw [ThemePanel.themes]
    split
    · exact tells_pure _
    · refine Tells.bind (tells_get.bind fun w => ?_) fun s => tells_pure _
      split <;> exact tells_pure _
  refine Tells.bind (tells_get.bind fun w => ?_) fun p => ?_
  · split <;> exact tells_pure _
  · refine (hthemes p).bind fun themes => (tells_attempt _).bind fun theme =>
      (tells_attempt _).bind fun colours => Tells.bind ?_ fun _ => tells_change _ _
    exact tells_onDisplay fun d => by rw [cells_foldl_change]

theorem tells_enter (cell : Nat) (s : String) : Tells (ThemePanel.enter cell s) := by
  refine (tells_onDisplay fun d => watchers_setCell d cell _).bind fun _ =>
    Tells.bind (tells_get.bind fun w => tells_pure _) fun d => ?_
  split
  · exact tells_colour _
  · exact tells_pure _

namespace Tool.Versions

theorem tells_shelf (id : Nat) : Tells (shelf id) := by
  refine (tells_byNumber id).bind fun t => ?_
  split <;> exact tells_pure _

theorem tells_versions (id : Nat) : Tells (versions id) := by
  refine (tells_shelf id).bind fun s => ?_
  dsimp only
  split
  · exact tells_pure _
  refine (tells_files.bind fun _ => tells_attempt _).bind fun there => ?_
  split
  · exact tells_pure _
  refine (tells_attempt _).bind fun path => tells_files.bind fun files =>
    (tells_files.bind fun files => ?_).bind fun _ => tells_pure _
  split
  · exact tells_pure _
  · exact tells_throw _

theorem tells_refreshDesktop (desktop : Nat) : Tells (refreshDesktop desktop) := by
  refine Tells.bind (tells_get.bind fun w => ?_) fun d => ?_
  · split <;> exact tells_pure _
  split
  · refine (tells_versions _).bind fun found => (tells_change _ _).bind fun _ =>
      (tells_shelf _).bind fun s => ?_
    dsimp only
    split <;> exact tells_enter _ _
  · exact tells_pure _

theorem tells_tell (event : String) (data : Value) (handler : Handler) :
    Tells (tell event data handler) := by
  cases handler with
  | recorder name failure => exact tells_recordEvent name failure data
  | desktop id =>
    rw [tell]
    split
    · exact (tells_attempt _).bind fun _ => tells_write id _
    split
    · exact (tells_write id _).bind fun _ => tells_refreshDesktop id
    · exact tells_refreshDesktop id

theorem tells_emit (id : Nat) (event : String) (data : Value) : Tells (emit id event data) :=
  (tells_byNumber id).bind fun _ => tells_forM fun _ _ =>
    (tells_tell event data _).orElse fun _ => tells_say id _

theorem ends_emit {w : World} {id : Nat} (h : (w.tool id).log.TakesAll) (event : String)
    (data : Value) : ∃ w', Ends (emit id event data) w () w' ∧ Told w w' := by
  have hsure : Sure (fun v => (v.tool id).log.TakesAll) (emit id event data) := by
    intro v hv
    refine (ends_byNumber v id).leaves_bind (sure_forM (fun handler _ => ?_) v hv)
    intro v₁ hv₁
    refine leaves_orElse (tells_tell event data _ v₁)
      (fun _ v₂ ht => ⟨⟨_, rfl⟩, ht.takesAll hv₁⟩) fun e v₂ ht => ?_
    have hv₂ := ht.takesAll hv₁
    exact leaves_say hv₂ fun v₃ ht₃ => ⟨⟨_, rfl⟩, ht₃.takesAll hv₂⟩
  obtain ⟨⟨done, hok⟩, -⟩ := hsure w h
  exact (tells_emit id event data).exists_ends hok

theorem tells_announce (id : Nat) : Tells (announce id) :=
  ((tells_say id _).bind fun _ => tells_say id _).orElse fun _ => tells_say id _

theorem ends_announce {w : World} {id : Nat} (h : (w.tool id).log.TakesAll) :
    ∃ w', Ends (announce id) w () w' ∧ Told w w' := by
  have htold : Leaves (announce.told id) w fun r _ => r = .ok () :=
    leaves_say_bind h fun _ h₁ => leaves_say (h₁.takesAll h) fun _ _ => rfl
  exact (tells_announce id).exists_ends
    (leaves_orElse htold (fun _ _ h => h) fun _ _ h => by cases h)

end Tool.Versions

end ApkWorkshop
