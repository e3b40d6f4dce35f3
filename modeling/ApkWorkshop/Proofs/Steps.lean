import Mathlib.Tactic

/-!
# Steps That End Well

Readers, writers and jobs are all steps of one kind: they work on a state, and they either return a
value or stop with a fault, keeping the state as it is. `Ends m s a s'` says that the step `m`,
begun in the state `s`, returns `a` and leaves the state `s'`. The lemmas take a step apart:

* `ends_bind` — two steps in a row end well exactly if the first does and the second does from the
  state that the first leaves;
* `ends_forM_cons`, `ends_forM_append` — a step for each item of a list ends well exactly if it does
  for the first items and then, from the state they leave, for the others.
-/

namespace ApkWorkshop

variable {ε σ α β : Type}

variable {m : ExceptT ε (StateM σ) α} {s s' s'' : σ} {a : α} {b : β}
  {f : α → ExceptT ε (StateM σ) PUnit} {u : PUnit} {x : Except ε α} {xs : List α}

/-- The step returns `a` and leads from the state `s` to the state `s'`. -/
def Ends (m : ExceptT ε (StateM σ) α) (s : σ) (a : α) (s' : σ) : Prop :=
  m.run.run s = (Except.ok a, s')

theorem Ends.unique {s₁ s₂ : σ} {a₁ a₂ : α} (h₁ : Ends m s a₁ s₁) (h₂ : Ends m s a₂ s₂) :
    a₁ = a₂ ∧ s₁ = s₂ := by
  have h : ((Except.ok a₁, s₁) : Except ε α × σ) = (Except.ok a₂, s₂) := h₁.symm.trans h₂
  cases h
  exact ⟨rfl, rfl⟩

theorem ends_of_run (h : (m.run.run s).1 = .ok a) : Ends m s a (m.run.run s).2 :=
  Prod.ext h rfl

theorem exists_ends_iff : (∃ a s', Ends m s a s') ↔ (m.run.run s).1.isOk = true := by
  simp only [Ends]
  cases m.run.run s with
  | mk r s' =>
    cases r with
    | ok a => exact ⟨fun _ => rfl, fun _ => ⟨a, s', rfl⟩⟩
    | error e =>
      constructor
      · rintro ⟨a, s'', h⟩
        cases h
      · intro h
        cases h

@[simp] theorem ends_pure {b : α} :
    Ends (pure a : ExceptT ε (StateM σ) α) s b s' ↔ a = b ∧ s = s' := by
  change (Except.ok a, s) = (Except.ok b, s') ↔ _
  simp

@[simp] theorem not_ends_throw {e : ε} {b : α} :
    ¬ Ends (throw e : ExceptT ε (StateM σ) α) s b s' := by
  change ¬ (Except.error e, s) = (Except.ok b, s')
  simp

@[simp] theorem ends_get {a : σ} : Ends (get : ExceptT ε (StateM σ) σ) s a s' ↔ a = s ∧ s' = s := by
  change (Except.ok s, s) = (Except.ok a, s') ↔ _
  simp [eq_comm]

@[simp] theorem ends_set {t : σ} : Ends (set t : ExceptT ε (StateM σ) PUnit) s u s' ↔ s' = t := by
  change (Except.ok PUnit.unit, t) = (Except.ok u, s') ↔ _
  simp [eq_comm]

@[simp] theorem ends_modify {f : σ → σ} :
    Ends (modify f : ExceptT ε (StateM σ) PUnit) s u s' ↔ s' = f s := by
  change (Except.ok PUnit.unit, f s) = (Except.ok u, s') ↔ _
  simp [eq_comm]

@[simp] theorem ends_liftM :
    Ends (liftM x : ExceptT ε (StateM σ) α) s a s' ↔ x = .ok a ∧ s' = s := by
  change (x, s) = (Except.ok a, s') ↔ _
  simp [eq_comm]

/-! ### Running steps -/

theorem run_get_bind (f : σ → ExceptT ε (StateM σ) β) (s : σ) :
    (get >>= f).run.run s = (f s).run.run s := rfl

theorem run_modify_bind (f : σ → σ) (g : PUnit → ExceptT ε (StateM σ) β) (s : σ) :
    (modify f >>= g).run.run s = (g ⟨⟩).run.run (f s) := rfl

theorem run_tryFinally_modify (m : ExceptT ε (StateM σ) α) (f : σ → σ) (s : σ) :
    (tryFinally m (modify f : ExceptT ε (StateM σ) PUnit)).run.run s =
      ((m.run.run s).1, f (m.run.run s).2) := by
  have hm : m s = ((m.run.run s).1, (m.run.run s).2) := rfl
  generalize (m.run.run s).1 = r at hm ⊢
  generalize (m.run.run s).2 = s' at hm ⊢
  cases r with
  | ok a =>
    simp only [tryFinally, tryFinally', ExceptT.run, StateT.run, bind, StateT.bind, hm,
      Functor.map, ExceptT.map, ExceptT.mk]
    rfl
  | error e =>
    simp only [tryFinally, tryFinally', ExceptT.run, StateT.run, bind, StateT.bind, hm,
      Functor.map, ExceptT.map, ExceptT.mk]
    rfl

theorem run_bind (m : ExceptT ε (StateM σ) α) (f : α → ExceptT ε (StateM σ) β) (s : σ) :
    (m >>= f).run.run s =
      match m.run.run s with
      | (Except.ok a, s') => (f a).run.run s'
      | (Except.error e, s') => (Except.error e, s') := by
  rw [ExceptT.run_bind, StateT.run_bind]
  cases m.run.run s with
  | mk r s' =>
    cases r with
    | ok a => rfl
    | error e => rfl

theorem Ends.run_bind {f : α → ExceptT ε (StateM σ) β} (h : Ends m s a s') :
    (m >>= f).run.run s = (f a).run.run s' := by
  rw [ApkWorkshop.run_bind, h]

/-- **Two steps in a row** end well exactly if both do, one after the other. -/
theorem ends_bind {f : α → ExceptT ε (StateM σ) β} :
    Ends (m >>= f) s b s'' ↔ ∃ a s', Ends m s a s' ∧ Ends (f a) s' b s'' := by
  constructor
  · intro h
    rw [Ends, run_bind] at h
    cases hm : m.run.run s with
    | mk r s' =>
      rw [hm] at h
      cases r with
      | ok a => exact ⟨a, s', hm, h⟩
      | error e => cases h
  · rintro ⟨a, s', hm, hf⟩
    exact hm.run_bind.trans hf

theorem Ends.bind {f : α → ExceptT ε (StateM σ) β} (h : Ends m s a s') (h' : Ends (f a) s' b s'') :
    Ends (m >>= f) s b s'' :=
  ends_bind.mpr ⟨a, s', h, h'⟩

theorem Ends.modify_bind {f : σ → σ} {g : PUnit → ExceptT ε (StateM σ) β}
    (h : Ends (g ⟨⟩) (f s) b s'') : Ends (modify f >>= g) s b s'' :=
  Ends.bind (ends_modify.mpr rfl) h

theorem Ends.liftM_bind {g : α → ExceptT ε (StateM σ) β} (hx : x = .ok a) (h : Ends (g a) s b s'') :
    Ends (liftM x >>= g) s b s'' :=
  Ends.bind (ends_liftM.mpr ⟨hx, rfl⟩) h

theorem ends_tryFinally {last : ExceptT ε (StateM σ) β} (h : Ends m s a s')
    (h' : Ends last s' b s'') : Ends (tryFinally m last) s a s'' := by
  have hm : m s = (Except.ok a, s') := h
  have hlast : last s' = (Except.ok b, s'') := h'
  have hboth : Ends (tryFinally' m fun _ => last) s (a, b) s'' := by
    simp only [Ends, tryFinally', ExceptT.mk, ExceptT.run, StateT.run, bind, StateT.bind, hm, hlast]
    rfl
  exact hboth.bind (ends_pure.mpr ⟨rfl, rfl⟩)

theorem ends_forM_cons {x : α} : Ends ((x :: xs).forM f) s u s'' ↔
      ∃ s', Ends (f x) s ⟨⟩ s' ∧ Ends (xs.forM f) s' ⟨⟩ s'' := by
  change Ends (f x >>= fun _ => xs.forM f) s u s'' ↔ _
  rw [ends_bind]
  exact ⟨fun ⟨_, s', h, h'⟩ => ⟨s', h, h'⟩, fun ⟨s', h, h'⟩ => ⟨⟨⟩, s', h, h'⟩⟩

@[simp] theorem ends_forM_nil : Ends (([] : List α).forM f) s u s' ↔ s' = s := by
  simp [eq_comm]

theorem ends_forM_append {ys : List α} : Ends ((xs ++ ys).forM f) s u s'' ↔
      ∃ s', Ends (xs.forM f) s ⟨⟩ s' ∧ Ends (ys.forM f) s' ⟨⟩ s'' := by
  induction xs generalizing s with
  | nil => simp
  | cons x xs ih =>
    rw [List.cons_append, ends_forM_cons]
    constructor
    · rintro ⟨t, hx, h⟩
      obtain ⟨s', hxs, hys⟩ := ih.mp h
      exact ⟨s', ends_forM_cons.mpr ⟨t, hx, hxs⟩, hys⟩
    · rintro ⟨s', h, hys⟩
      obtain ⟨t, hx, hxs⟩ := ends_forM_cons.mp h
      exact ⟨t, hx, ih.mpr ⟨s', hxs, hys⟩⟩

end ApkWorkshop
