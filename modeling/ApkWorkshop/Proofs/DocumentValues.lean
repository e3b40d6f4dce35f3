import ApkWorkshop.Proofs.DocumentScalars

/-!
# Storable Values

The values that a document can hold, and what giving a member a value does to an object:

* `Storable` — there is one double that is not a number, and no object has two members with the same
  name;
* `member?_setMember` — a member that was given a value has it, the others keep theirs;
* `storable_of_readChars` — the reader gives nothing but storable values.
-/

namespace ApkWorkshop

open Text List

/-- The values that a document can hold. -/
inductive Value.Storable : Value → Prop
  | null : Storable .null
  | truth (b : Bool) : Storable (.truth b)
  | whole (n : Int) : Storable (.whole n)
  | real {x : Double} (h : x.value = .notANumber → x = .nan) : Storable (.real x)
  | text (s : String) : Storable (.text s)
  | list {items : List Value} (h : ∀ v ∈ items, Storable v) : Storable (.list items)
  | object {members : List (String × Value)} (hnames : (members.map (·.1)).Nodup)
      (h : ∀ p ∈ members, Storable p.2) : Storable (.object members)

/-! ### Members -/

section

variable {name : String} {members : List (String × Value)} {v : Value}

theorem setMember_of_not_mem (h : name ∉ members.map (·.1)) (v : Value) :
    setMember name v members = members ++ [(name, v)] := by
  induction members with
  | nil => rfl
  | cons p members ih =>
    simp only [map_cons, mem_cons, not_or] at h
    rw [setMember, if_neg h.1, ih h.2, cons_append]

theorem collectMembers_of_nodup (h : (members.map (·.1)).Nodup) :
    collectMembers members = members := by
  -- from the end, so that what was collected before is a prefix
  induction members using List.reverseRecOn with
  | nil => rfl
  | append_singleton members p ih =>
    obtain ⟨name, v⟩ := p
    rw [map_append, nodup_append] at h
    obtain ⟨hnodup, -, hdisjoint⟩ := h
    have hnew : name ∉ members.map (·.1) := fun hmem =>
      hdisjoint name hmem name (by simp) rfl
    have hcollect := ih hnodup
    rw [collectMembers] at hcollect
    rw [collectMembers, foldl_append, hcollect]
    exact setMember_of_not_mem hnew v

theorem map_setMember (name : String) (v : Value) (members : List (String × Value)) :
    (setMember name v members).map (·.1) =
      if name ∈ members.map (·.1) then members.map (·.1) else members.map (·.1) ++ [name] := by
  induction members with
  | nil => simp [setMember]
  | cons p members ih =>
    obtain ⟨other, old⟩ := p
    by_cases hname : name = other
    · simp [setMember, hname]
    · rw [setMember, if_neg hname, map_cons, ih, map_cons]
      simp only [mem_cons, hname, false_or]
      split <;> rfl

theorem nodup_setMember (h : (members.map (·.1)).Nodup) (name : String) (v : Value) :
    ((setMember name v members).map (·.1)).Nodup := by
  rw [map_setMember]
  split
  · exact h
  · rename_i hnew
    rw [nodup_append]
    refine ⟨h, nodup_singleton name, fun a ha b hb => ?_⟩
    obtain rfl : b = name := by simpa using hb
    rintro rfl
    exact hnew ha

theorem mem_setMember {p : String × Value} (h : p ∈ setMember name v members) :
    p = (name, v) ∨ p ∈ members := by
  induction members with
  | nil => exact Or.inl (by simpa [setMember] using h)
  | cons q members ih =>
    rw [setMember] at h
    split at h
    · rcases mem_cons.mp h with h | h
      · exact Or.inl h
      · exact Or.inr (mem_cons_of_mem _ h)
    · rcases mem_cons.mp h with h | h
      · exact Or.inr (by rw [h]; simp)
      · exact (ih h).imp_right (mem_cons_of_mem _)

theorem member?_cons (other : String) (old : Value) (members : List (String × Value))
    (key : String) :
    member? ((other, old) :: members) key =
      if key = other then some old else member? members key := by
  rw [member?, lookup_cons]
  by_cases hkey : key = other
  · simp [hkey]
  · rw [beq_false_of_ne hkey, if_neg hkey]
    rfl

theorem member?_setMember (name key : String) (v : Value) (members : List (String × Value)) :
    member? (setMember name v members) key =
      if key = name then some v else member? members key := by
  induction members with
  | nil => rw [setMember, member?_cons]
  | cons p members ih =>
    obtain ⟨other, old⟩ := p
    rw [setMember]
    by_cases hname : name = other
    · rw [if_pos hname, member?_cons, member?_cons, ← hname]
      split <;> rfl
    · rw [if_neg hname, member?_cons, ih, member?_cons]
      by_cases hother : key = other
      · rw [if_pos hother, if_neg (by rintro rfl; exact hname hother), if_pos hother]
      · rw [if_neg hother, if_neg hother]

theorem Value.Storable.setMember (h : Storable (.object members)) (name : String)
    (hv : v.Storable) : Storable (.object (setMember name v members)) := by
  cases h with
  | object hnames hvalues =>
    refine .object (nodup_setMember hnames name v) fun p hp => ?_
    rcases mem_setMember hp with rfl | hp
    · exact hv
    · exact hvalues p hp

end

namespace Document

/-! ### What the reader gives -/

variable {cs rest : List Char} {v : Value}

theorem exists_of_bind_eq_ok {ε α β : Type} {x : Except ε α} {f : α → Except ε β} {b : β}
    (h : x >>= f = .ok b) : ∃ a, x = .ok a ∧ f a = .ok b := by
  cases x with
  | error e => cases h
  | ok a => exact ⟨a, rfl, h⟩

theorem collectMembers_spec (pairs : List (String × Value)) :
    ((collectMembers pairs).map (·.1)).Nodup ∧ ∀ p ∈ collectMembers pairs, p ∈ pairs := by
  induction pairs using List.reverseRecOn with
  | nil => simp [collectMembers]
  | append_singleton pairs q ih =>
    obtain ⟨hnodup, hmem⟩ := ih
    have hlast : collectMembers (pairs ++ [q]) = setMember q.1 q.2 (collectMembers pairs) := by
      rw [collectMembers, foldl_append]
      rfl
    rw [hlast]
    refine ⟨nodup_setMember hnodup _ _, fun p hp => ?_⟩
    rcases mem_setMember hp with rfl | hp
    · simp
    · exact mem_append_left _ (hmem p hp)

theorem storable_of_numberHere {negative : Bool} {unsigned : List Char}
    (h : numberHere negative cs unsigned = .ok (v, rest)) : v.Storable := by
  simp only [numberHere] at h
  generalize hwhole : (if (digitsHere unsigned).1.head? = some '0' then ['0']
    else (digitsHere unsigned).1) = whole at h
  split at h
  · cases h
  split at h
  · cases h
    exact .whole _
  · cases h
    refine .real fun hnan => ?_
    obtain ⟨m, hm, hdecimal⟩ := Double.exists_ofDecimal_eq
      (numberOf (whole ++ (fractionHere (List.drop whole.length unsigned)).1))
      ((exponentHere (fractionHere (List.drop whole.length unsigned)).2).1.getD 0 -
        (fractionHere (List.drop whole.length unsigned)).1.length)
    rw [hdecimal] at hnan
    exact absurd hnan (Double.value_ofMagnitude_ne hm)

theorem storable_of_scalarHere (h : scalarHere cs = .ok (v, rest)) : v.Storable := by
  simp only [scalarHere] at h
  split at h
  · rename_i found hfound
    cases h
    obtain ⟨p, hp, hword⟩ := exists_of_findSome?_eq_some hfound
    obtain ⟨word, w⟩ := p
    have hv : w = v := by
      simp only [wordHere?] at hword
      split at hword
      · exact (Prod.mk.inj (Option.some.inj hword)).1
      · cases hword
    subst hv
    simp only [mem_cons, not_mem_nil, or_false, Prod.mk.injEq] at hp
    rcases hp with ⟨-, rfl⟩ | ⟨-, rfl⟩ | ⟨-, rfl⟩ | ⟨-, rfl⟩ | ⟨-, rfl⟩ | ⟨-, rfl⟩
    · exact .null
    · exact .truth true
    · exact .truth false
    · exact .real fun _ => rfl
    · exact .real fun hnan => absurd hnan (Double.value_ofMagnitude_ne le_rfl)
    · exact .real fun hnan => absurd hnan (Double.value_ofMagnitude_ne le_rfl)
  · split at h <;> exact storable_of_numberHere h

theorem storable_of_value_succ {fuel : Nat}
    (hitems : ∀ cs vs rest, items fuel cs = .ok (vs, rest) → ∀ v ∈ vs, v.Storable)
    (hmembers : ∀ cs ps rest, members fuel cs = .ok (ps, rest) → ∀ p ∈ ps, p.2.Storable)
    (h : value (fuel + 1) cs = .ok (v, rest)) : v.Storable := by
  rw [value.eq_def] at h
  simp only at h
  split at h
  · obtain ⟨⟨s, after⟩, -, h⟩ := exists_of_bind_eq_ok h
    cases h
    exact .text s
  · split at h
    · cases h
      exact .list (by simp)
    · obtain ⟨⟨vs, after⟩, hvs, h⟩ := exists_of_bind_eq_ok h
      cases h
      exact .list (hitems _ _ _ hvs)
  · split at h
    · cases h
      exact .object (by simp) (by simp)
    · obtain ⟨⟨ps, after⟩, hps, h⟩ := exists_of_bind_eq_ok h
      cases h
      obtain ⟨hnodup, hmem⟩ := collectMembers_spec ps
      exact .object hnodup fun p hp => hmembers _ _ _ hps p (hmem p hp)
  · exact storable_of_scalarHere h

theorem storable_of_fuel (fuel : Nat) :
    (∀ cs v rest, value fuel cs = .ok (v, rest) → v.Storable) ∧
      (∀ cs vs rest, items fuel cs = .ok (vs, rest) → ∀ v ∈ vs, v.Storable) ∧
      (∀ cs ps rest, members fuel cs = .ok (ps, rest) → ∀ p ∈ ps, p.2.Storable) := by
  induction fuel with
  | zero =>
    refine ⟨fun cs v rest h => ?_, fun cs vs rest h => ?_, fun cs ps rest h => ?_⟩
    · rw [value] at h; cases h
    · rw [items] at h; cases h
    · rw [members] at h; cases h
  | succ fuel ih =>
    obtain ⟨hvalue, hitems, hmembers⟩ := ih
    refine ⟨fun cs v rest h => storable_of_value_succ hitems hmembers h, fun cs vs rest h => ?_,
      fun cs ps rest h => ?_⟩
    · rw [items] at h
      obtain ⟨⟨v, after⟩, hv, h⟩ := exists_of_bind_eq_ok h
      have hstorable := hvalue _ _ _ hv
      simp only at h
      split at h
      · cases h
        simpa using hstorable
      · obtain ⟨⟨ws, after'⟩, hws, h⟩ := exists_of_bind_eq_ok h
        cases h
        exact forall_mem_cons.mpr ⟨hstorable, hitems _ _ _ hws⟩
      · cases h
    · rw [members.eq_def] at h
      simp only at h
      split at h
      · obtain ⟨⟨name, after⟩, -, h⟩ := exists_of_bind_eq_ok h
        split at h
        · obtain ⟨⟨v, after'⟩, hv, h⟩ := exists_of_bind_eq_ok h
          have hstorable := hvalue _ _ _ hv
          split at h
          · cases h
            simpa using hstorable
          · obtain ⟨⟨qs, after''⟩, hqs, h⟩ := exists_of_bind_eq_ok h
            cases h
            exact forall_mem_cons.mpr ⟨hstorable, hmembers _ _ _ hqs⟩
          · cases h
        · cases h
      · cases h

theorem storable_of_readChars (h : readChars cs = .ok v) : v.Storable := by
  rw [readChars] at h
  split at h
  · cases h
  split at h
  · cases h
  · rename_i hvalue
    split at h
    · cases h
      exact (storable_of_fuel _).1 _ _ _ hvalue
    · cases h

end Document

end ApkWorkshop
