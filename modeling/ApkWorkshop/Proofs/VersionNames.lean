import ApkWorkshop.Tool.VersionName
import Mathlib.Data.List.TakeWhile
import Mathlib.Tactic

/-!
# Versions Are Names of Folders

A version becomes the name of a folder, so it matters which texts a file name can give. A version
that is written in the name is made of numbers and dividers, and begins with a digit. Any other
version is the name without its ending, which keeps all dots at the front and the sign behind them.
-/

namespace ApkWorkshop

open List

/-- A text that names an entry of a folder: not empty, without slash, and none of the two names with
a meaning in paths. -/
structure PlainName (name : String) : Prop where
  ne_empty : name ≠ ""
  no_slash : '/' ∉ name.toList
  ne_dot : name ≠ "."
  ne_dots : name ≠ ".."

theorem plainName_of_mem {cs : List Char} {c : Char} (hc : c ∈ cs) (hdot : c ≠ '.')
    (hslash : '/' ∉ cs) : PlainName (String.ofList cs) := by
  have hother : ∀ {name : String}, c ∉ name.toList → String.ofList cs ≠ name := by
    rintro name hname rfl
    exact hname (by rwa [String.toList_ofList])
  exact ⟨hother (by simp), by rwa [String.toList_ofList], hother (by simp [hdot]),
    hother (by simp [hdot])⟩

namespace VersionName

open Text

variable {cs ds rest version : List Char} {name : String}

/-! ### Versions that are written in a name -/

/-- Digits and dividers that begin with a digit. -/
structure Numbered (cs : List Char) : Prop where
  first : ∃ c rest, cs = c :: rest ∧ isDigit c = true
  all : ∀ c ∈ cs, isDigit c = true ∨ isDivider c = true

theorem numbered_of_digits (hne : cs ≠ []) (h : ∀ c ∈ cs, isDigit c = true) : Numbered cs := by
  obtain ⟨c, rest, rfl⟩ := exists_cons_of_ne_nil hne
  exact ⟨⟨c, rest, rfl, h c mem_cons_self⟩, fun c hc => Or.inl (h c hc)⟩

theorem Numbered.append {xs ys : List Char} (h : Numbered xs)
    (hys : ∀ c ∈ ys, isDigit c = true ∨ isDivider c = true) : Numbered (xs ++ ys) := by
  obtain ⟨c, rest, rfl, hc⟩ := h.first
  exact ⟨⟨c, rest ++ ys, rfl, hc⟩, forall_mem_append.mpr ⟨h.all, hys⟩⟩

theorem Numbered.plainName (h : Numbered cs) : PlainName (String.ofList cs) := by
  obtain ⟨c, rest, rfl, hc⟩ := h.first
  refine plainName_of_mem mem_cons_self ?_ fun hslash => ?_
  · rintro rfl
    exact absurd hc (by decide)
  · exact absurd (h.all _ hslash) (by decide)

theorem numbered_of_digits? (h : digits? cs = some (ds, rest)) : Numbered ds := by
  rw [digits?] at h
  split at h
  · cases h
  · rename_i d ds' htake
    obtain ⟨rfl, -⟩ := Prod.mk.inj (Option.some.inj h)
    exact numbered_of_digits (cons_ne_nil _ _) fun c hc =>
      mem_takeWhile_imp (htake ▸ hc)

theorem numbered_of_digitCount? {count : Nat} (h : digitCount? (count + 1) cs = some (ds, rest)) :
    Numbered ds := by
  simp only [digitCount?, Option.ite_none_right_eq_some, Bool.and_eq_true, decide_eq_true_eq,
    all_eq_true] at h
  obtain ⟨⟨hlength, hdigits⟩, heq⟩ := h
  obtain ⟨rfl, -⟩ := Prod.mk.inj (Option.some.inj heq)
  exact numbered_of_digits (ne_nil_of_length_eq_add_one hlength) hdigits

theorem isDivider_of_mem_divider : ∀ c ∈ (divider cs).1, isDivider c = true := by
  intro c hc
  rw [divider.eq_def] at hc
  split at hc
  · split at hc
    · rwa [mem_singleton.mp hc]
    · cases hc
  · cases hc

theorem all_of_dotDigits? {part : List Char} (h : dotDigits? cs = some (part, rest)) :
    ∀ c ∈ part, isDigit c = true ∨ isDivider c = true := by
  rw [dotDigits?.eq_def] at h
  split at h
  · obtain ⟨⟨ds, more⟩, hds, heq⟩ := Option.map_eq_some_iff.mp h
    obtain ⟨rfl, -⟩ := Prod.mk.inj heq
    exact forall_mem_cons.mpr ⟨Or.inr (by decide), (numbered_of_digits? hds).all⟩
  · cases h

theorem all_dotDigitsAll (fuel : Nat) (cs : List Char) :
    ∀ c ∈ dotDigitsAll fuel cs, isDigit c = true ∨ isDivider c = true := by
  induction fuel generalizing cs with
  | zero => simp [dotDigitsAll]
  | succ fuel ih =>
    rw [dotDigitsAll]
    split
    · rename_i part more hpart
      exact forall_mem_append.mpr ⟨all_of_dotDigits? hpart, ih more⟩
    · simp

/-! ### The forms of a version -/

theorem numbered_dotted? (h : dotted? cs = some version) : Numbered version := by
  simp only [dotted?, Option.bind_eq_bind, Option.bind_eq_some_iff] at h
  obtain ⟨⟨first, rest⟩, hfirst, ⟨second, rest'⟩, hsecond, h⟩ := h
  have hboth := (numbered_of_digits? hfirst).append (all_of_dotDigits? hsecond)
  split at h
  · rename_i third more hthird
    rw [← Option.some.inj h]
    exact hboth.append (all_of_dotDigits? hthird)
  · rwa [← Option.some.inj h]

theorem numbered_marked? (h : marked? cs = some version) : Numbered version := by
  rw [marked?.eq_def] at h
  split at h
  · split at h
    · obtain ⟨⟨ds, more⟩, hds, rfl⟩ := Option.map_eq_some_iff.mp h
      exact (numbered_of_digits? hds).append (all_dotDigitsAll _ _)
    · cases h
  · cases h

theorem numbered_date? (h : date? cs = some version) : Numbered version := by
  simp only [date?, Option.bind_eq_bind, Option.bind_eq_some_iff] at h
  obtain ⟨⟨year, rest⟩, hyear, ⟨month, rest'⟩, hmonth, ⟨day, rest''⟩, hday, h⟩ := h
  rw [← Option.some.inj h]
  have hmark : ∀ cs : List Char, ∀ c ∈ (divider cs).1, isDigit c = true ∨ isDivider c = true :=
    fun cs c hc => Or.inr (isDivider_of_mem_divider c hc)
  exact ((((numbered_of_digitCount? hyear).append (hmark _)).append
    (numbered_of_digitCount? hmonth).all).append (hmark _)).append
      (numbered_of_digitCount? hday).all

theorem numbered_underscored? (h : underscored? cs = some version) : Numbered version := by
  simp only [underscored?, Option.bind_eq_bind, Option.bind_eq_some_iff] at h
  obtain ⟨⟨first, rest⟩, hfirst, h⟩ := h
  split at h
  · obtain ⟨⟨second, more⟩, hsecond, h⟩ := Option.bind_eq_some_iff.mp h
    rw [← Option.some.inj h]
    exact (numbered_of_digits? hfirst).append
      (forall_mem_cons.mpr ⟨Or.inr (by decide), (numbered_of_digits? hsecond).all⟩)
  · cases h

theorem numbered_year? (h : year? cs = some version) : Numbered version := by
  obtain ⟨⟨year, rest⟩, hyear, rfl⟩ := Option.map_eq_some_iff.mp h
  exact numbered_of_digitCount? hyear

theorem exists_of_firstRead? {α : Type} {read? : List Char → Option α} {a : α}
    (h : firstRead? read? cs = some a) : ∃ more, read? more = some a := by
  induction cs with
  | nil => exact ⟨[], h⟩
  | cons c cs ih =>
    rw [firstRead?] at h
    split at h
    · rename_i b hb
      exact ⟨c :: cs, by rw [hb, h]⟩
    · exact ih h

/-- **A version that is written in a name** is made of digits and dividers, and begins with a digit,
whatever its form is. -/
theorem numbered_find? {version : String} (h : find? name = some version) :
    ∃ cs, version = String.ofList cs ∧ Numbered cs := by
  obtain ⟨cs, hcs, rfl⟩ := Option.map_eq_some_iff.mp h
  obtain ⟨form, hform, hread⟩ := exists_of_findSome?_eq_some hcs
  obtain ⟨more, hmore⟩ := exists_of_firstRead? hread
  refine ⟨cs, rfl, ?_⟩
  simp only [mem_cons, not_mem_nil, or_false] at hform
  rcases hform with rfl | rfl | rfl | rfl | rfl
  · exact numbered_dotted? hmore
  · exact numbered_marked? hmore
  · exact numbered_date? hmore
  · exact numbered_underscored? hmore
  · exact numbered_year? hmore

/-! ### A name without its ending -/

theorem takeWhile_bne {d : Char} (h : d ∉ cs) (rest : List Char) :
    (cs ++ rest).takeWhile (· != d) = cs ++ rest.takeWhile (· != d) :=
  takeWhile_append_of_pos fun _ hc => bne_iff_ne.mpr fun heq => h (heq ▸ hc)

theorem cut_eq_of_not_mem (h : '/' ∉ cs) : Path.cut cs = ([], cs) := by
  have hall := takeWhile_bne (mt mem_reverse.mp h) []
  rw [takeWhile_nil, append_nil] at hall
  simp [Path.cut, hall]

theorem cut_append_slash (xs : List Char) {name : List Char} (hname : '/' ∉ name) :
    Path.cut (xs ++ '/' :: name) = (xs ++ ['/'], name) := by
  have htake : (xs ++ '/' :: name).reverse.takeWhile (· != '/') = name.reverse := by
    rw [reverse_append, reverse_cons, append_assoc, takeWhile_bne (mt mem_reverse.mp hname)]
    simp
  rw [Path.cut, htake, reverse_reverse]
  have hlength : (xs ++ '/' :: name).length - name.length = (xs ++ ['/']).length := by
    simp only [length_append, length_cons, length_nil]
    omega
  rw [hlength, show xs ++ '/' :: name = (xs ++ ['/']) ++ name by simp, take_left]

theorem length_ending_lt {c : Char} (hc : c ≠ '.') (hdot : '.' ∈ c :: rest) :
    ((c :: rest).reverse.takeWhile (· != '.')).length < rest.length := by
  have hmem : '.' ∈ rest.reverse :=
    mem_reverse.mpr ((mem_cons.mp hdot).resolve_left hc.symm)
  obtain ⟨ending, before, heq, hending⟩ := eq_append_cons_of_mem hmem
  have hlength : rest.length = ending.length + (before.length + 1) := by
    simpa using congrArg List.length heq
  have htake : (c :: rest).reverse.takeWhile (· != '.') = ending := by
    rw [reverse_cons, heq, append_assoc, takeWhile_bne hending, cons_append,
      takeWhile_cons_of_neg (by simp), append_nil]
  rw [htake]
  omega

/-- **A name without its ending** is the name, or begins with the dots of the name and the sign
behind them. -/
theorem exists_withoutEnding_eq (h : '/' ∉ name.toList) :
    Path.withoutEnding name = name ∨ ∃ c cs, c ≠ '.' ∧ c ∈ cs ∧ cs <+: name.toList ∧
      Path.withoutEnding name = String.ofList cs := by
  rw [Path.withoutEnding, Path.splitEnding, cut_eq_of_not_mem h]
  dsimp only
  split
  · rename_i hdot
    have hname := takeWhile_append_dropWhile (p := (· == '.')) (l := name.toList)
    generalize name.toList.takeWhile (· == '.') = dots at *
    generalize hrest : name.toList.dropWhile (· == '.') = rest at *
    cases rest with
    | nil => cases hdot
    | cons c rest =>
      have hc : c ≠ '.' := by
        have := head?_dropWhile_not (· == '.') name.toList
        rw [hrest] at this
        simpa using this
      have hlt := length_ending_lt hc (contains_iff_mem.mp hdot)
      refine Or.inr ⟨c, _, hc, ?_, ?_, rfl⟩
      · obtain ⟨n, hn⟩ : ∃ n, (c :: rest).length -
            ((c :: rest).reverse.takeWhile (· != '.')).length - 1 = n + 1 :=
          ⟨rest.length - ((c :: rest).reverse.takeWhile (· != '.')).length - 1, by
            rw [length_cons]
            omega⟩
        rw [hn]
        simp
      · rw [nil_append, ← hname, prefix_append_right_inj]
        exact take_prefix _ _
  · exact Or.inl rfl

theorem plainName_ofFile (h : PlainName name) : PlainName (ofFile name) := by
  rw [ofFile]
  cases hfind : find? name with
  | some version =>
    obtain ⟨cs, rfl, hcs⟩ := numbered_find? hfind
    exact hcs.plainName
  | none =>
    rcases exists_withoutEnding_eq h.no_slash with hself | ⟨c, cs, hc, hmem, hstart, heq⟩
    · rwa [hself]
    · rw [heq]
      exact plainName_of_mem hmem hc fun hslash => h.no_slash (hstart.subset hslash)

end VersionName

end ApkWorkshop
