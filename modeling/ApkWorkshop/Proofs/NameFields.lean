import ApkWorkshop.Proofs.Numeral
import ApkWorkshop.Tool.DistinguishedName

/-!
# Fields of Distinguished Names

A distinguished name is read by cutting it at its commas, except those that a backslash escapes, and
each part at its first equals sign. Values are written as they are, so it depends on them alone
whether the fields can be read back:

* `scan` — what a value does to the commas behind it; `Separate` — values that keep their fields apart;
* `separate_cutFrom`, `cutFrom_joinWith` — cutting gives separate parts, and separate parts are cut
  where they were joined;
* `fields_kept_apart_iff` — **the fields are read back exactly if their values are separate**, and
  then no other fields have this name.
-/

namespace ApkWorkshop.DistinguishedName

open Text List

variable {waiting : Bool} {part : List Char} {d : DistinguishedName} {field : String × String}
  {xs ys : List (String × String)}

/-! ### Cutting -/

/-- Read a text from the left. A comma that is not escaped stops the reading; otherwise the result
says whether a backslash at the end waits for the next character. -/
def scan : Bool → List Char → Option Bool
  | waiting, [] => some waiting
  | waiting, c :: cs => if c = ',' ∧ waiting = false then none else scan (c == '\\' && !waiting) cs

/-- The parts of a text between the commas that are not escaped; `part` is the one being read, last
character first. -/
def cutFrom : Bool → List Char → List Char → List (List Char)
  | _, part, [] => [part.reverse]
  | waiting, part, c :: cs =>
    if c = ',' ∧ waiting = false then part.reverse :: cutFrom false [] cs
    else cutFrom (c == '\\' && !waiting) (c :: part) cs

/-- There are texts, none of them holds a comma that is not escaped, and only the last one may end
with a backslash that escapes nothing. -/
def Separate : List (List Char) → Prop
  | [] => False
  | [last] => (scan false last).isSome
  | part :: rest => scan false part = some false ∧ Separate rest

theorem scan_append (waiting : Bool) (xs ys : List Char) :
    scan waiting (xs ++ ys) = (scan waiting xs).bind fun waiting => scan waiting ys := by
  induction xs generalizing waiting with
  | nil => rfl
  | cons c xs ih =>
    rw [cons_append, scan, scan]
    split
    · rfl
    · exact ih _

theorem cutFrom_append {after : Bool} {xs : List Char} (h : scan waiting xs = some after)
    (part ys : List Char) :
    cutFrom waiting part (xs ++ ys) = cutFrom after (xs.reverse ++ part) ys := by
  induction xs generalizing waiting part with
  | nil => rw [← Option.some.inj h, nil_append, reverse_nil, nil_append]
  | cons c xs ih =>
    rw [scan] at h
    split at h
    · cases h
    · rename_i hgo
      rw [cons_append, cutFrom, if_neg hgo, ih h, reverse_cons, append_assoc, singleton_append]

theorem cutFrom_ne_nil (waiting : Bool) (part cs : List Char) : cutFrom waiting part cs ≠ [] := by
  induction cs generalizing waiting part with
  | nil => simp [cutFrom]
  | cons c cs ih =>
    rw [cutFrom]
    split
    · simp
    · exact ih _ _

theorem separate_cons {rest : List (List Char)} (hrest : rest ≠ []) :
    Separate (part :: rest) ↔ scan false part = some false ∧ Separate rest := by
  cases rest with
  | nil => exact absurd rfl hrest
  | cons next rest => rfl

/-- **Cutting gives separate parts**: a part ends at a comma that no backslash was waiting for. -/
theorem separate_cutFrom (cs : List Char) (h : scan false part.reverse = some waiting) :
    Separate (cutFrom waiting part cs) := by
  induction cs generalizing waiting part with
  | nil => simp [cutFrom, Separate, h]
  | cons c cs ih =>
    rw [cutFrom]
    split
    · rename_i hcomma
      exact (separate_cons (cutFrom_ne_nil _ _ _)).mpr ⟨hcomma.2 ▸ h, ih rfl⟩
    · rename_i hgo
      refine ih ?_
      rw [reverse_cons, scan_append, h]
      simp [scan, hgo]

theorem cutFrom_joinWith {ss : List String} (h : Separate (ss.map String.toList)) :
    cutFrom false [] (joinWith "," ss).toList = ss.map String.toList := by
  induction ss with
  | nil => cases h
  | cons s ss ih =>
    by_cases hss : ss = []
    · obtain rfl := hss
      obtain ⟨after, hafter⟩ := Option.isSome_iff_exists.mp h
      have hcut := cutFrom_append hafter [] []
      rw [append_nil] at hcut
      simp [joinWith, hcut, cutFrom]
    · obtain ⟨hs, hrest⟩ := (separate_cons (by simpa using hss)).mp h
      rw [toList_joinWith_cons hss, cutFrom_append hs, map_cons, ← ih hrest]
      simp [cutFrom]

/-! ### Fields -/

/-- The type and the value of a part: what stands before and behind its first equals sign. -/
def readField (part : List Char) : String × String :=
  (String.ofList (part.takeWhile (· != '=')), String.ofList ((part.dropWhile (· != '=')).drop 1))

/-- The fields that a reader finds in a name. -/
def readFields (text : String) : List (String × String) :=
  (cutFrom false [] text.toList).map readField

/-- The fields that are not empty. -/
def given (d : DistinguishedName) : List (String × String) :=
  d.fields.filter fun field => field.2 != ""

def values (d : DistinguishedName) : List (List Char) :=
  d.given.map fun field => field.2.toList

def written (field : String × String) : String :=
  field.1 ++ "=" ++ field.2

theorem text_eq (d : DistinguishedName) : d.text = joinWith "," (d.given.map written) := rfl

theorem type_of_mem_given (h : field ∈ d.given) :
    scan false (field.1 ++ "=").toList = some false ∧ ∀ c ∈ field.1.toList, c != '=' := by
  have hfields : ∀ type ∈ ["CN", "OU", "O", "L", "ST", "C"],
      scan false (type ++ "=").toList = some false ∧ type.toList.all (· != '=') = true := by
    decide
  obtain ⟨hscan, hall⟩ := hfields field.1 (mem_map_of_mem (f := Prod.fst) (mem_filter.mp h).1)
  exact ⟨hscan, all_eq_true.mp hall⟩

theorem readField_written (h : ∀ c ∈ field.1.toList, c != '=') :
    readField (written field).toList = field := by
  have hlist : (written field).toList = field.1.toList ++ '=' :: field.2.toList := by
    simp [written]
  rw [readField, hlist, takeWhile_append_of_pos h, dropWhile_append_of_pos h]
  simp

theorem written_readField (h : (readField part).2 ≠ "") :
    (written (readField part)).toList = part := by
  have hlist : (written (readField part)).toList =
      part.takeWhile (· != '=') ++ '=' :: (part.dropWhile (· != '=')).drop 1 := by
    simp [written, readField]
  rw [hlist]
  cases hdrop : part.dropWhile (· != '=') with
  | nil => simp [readField, hdrop] at h
  | cons c rest =>
    obtain rfl : c = '=' := by simpa [hdrop] using head?_dropWhile_not (· != '=') part
    rw [drop_one, tail_cons, ← hdrop, takeWhile_append_dropWhile]

theorem separate_written {fields : List (String × String)}
    (h : ∀ field ∈ fields, scan false (field.1 ++ "=").toList = some false) :
    Separate ((fields.map written).map String.toList) ↔
      Separate (fields.map fun field => field.2.toList) := by
  have hscan : ∀ field ∈ fields, scan false (written field).toList = scan false field.2.toList := by
    intro field hfield
    rw [written, String.toList_append, scan_append, h field hfield]
    rfl
  induction fields with
  | nil => rfl
  | cons field rest ih =>
    have hfirst := hscan field mem_cons_self
    by_cases hrest : rest = []
    · rw [hrest, map_cons, map_cons, map_cons, map_nil, map_nil, map_nil, Separate, Separate, hfirst]
    · have hrest' := ih (fun other hother => h other (mem_cons_of_mem _ hother))
        fun other hother => hscan other (mem_cons_of_mem _ hother)
      rw [map_cons, map_cons, map_cons, separate_cons (by simpa using hrest),
        separate_cons (by simpa using hrest), hfirst]
      exact and_congr Iff.rfl hrest'

theorem readFields_text (h : Separate d.values) : readFields d.text = d.given := by
  have hparts := (separate_written fun field hfield => (type_of_mem_given hfield).1).mpr h
  rw [readFields, text_eq, cutFrom_joinWith hparts, map_map, map_map]
  exact (map_congr_left fun field hfield => readField_written (type_of_mem_given hfield).2).trans
    (map_id _)

theorem separate_of_readFields (h : readFields d.text = d.given) : Separate d.values := by
  refine (separate_written fun field hfield => (type_of_mem_given hfield).1).mp ?_
  have hparts : cutFrom false [] d.text.toList = (d.given.map written).map String.toList := by
    rw [← h, readFields, map_map, map_map]
    refine ((map_congr_left fun part hpart => written_readField ?_).trans (map_id _)).symm
    have hmem : readField part ∈ d.given := h ▸ mem_map_of_mem hpart
    simpa using (mem_filter.mp hmem).2
  exact hparts ▸ separate_cutFrom d.text.toList rfl

theorem mem_or_of_filter_eq
    (h : (xs.filter fun field => field.2 != "") = ys.filter fun field => field.2 != "")
    (hfield : field ∈ xs) : field ∈ ys ∨ field.2 = "" := by
  by_cases hvalue : field.2 = ""
  · exact .inr hvalue
  · have hmem : field ∈ xs.filter fun field => field.2 != "" :=
      mem_filter.mpr ⟨hfield, by simpa using hvalue⟩
    exact .inl (mem_filter.mp (h ▸ hmem)).1

theorem eq_of_filter_eq (htypes : xs.map Prod.fst = ys.map Prod.fst)
    (hnodup : (xs.map Prod.fst).Nodup)
    (h : (xs.filter fun field => field.2 != "") = ys.filter fun field => field.2 != "") :
    xs = ys := by
  induction xs generalizing ys with
  | nil => exact (map_eq_nil_iff.mp htypes.symm).symm
  | cons x xs ih =>
    obtain ⟨y, ys, rfl⟩ : ∃ y rest, ys = y :: rest :=
      exists_cons_of_ne_nil fun hnil => by simp [hnil] at htypes
    rw [map_cons, map_cons, cons.injEq] at htypes
    rw [map_cons, nodup_cons] at hnodup
    -- a field of the same type does not come again behind
    have hlater : ∀ field : String × String, field.1 = x.1 → field ∉ xs ∧ field ∉ ys := fun field heq =>
      ⟨fun hmem => hnodup.1 (heq ▸ mem_map_of_mem hmem),
        fun hmem => hnodup.1 (heq ▸ htypes.2 ▸ mem_map_of_mem hmem)⟩
    have hmem := mem_or_of_filter_eq h mem_cons_self
    have hmem' := mem_or_of_filter_eq h.symm mem_cons_self
    obtain rfl : x = y := by
      rcases hmem with hmem | hx
      · exact (mem_cons.mp hmem).resolve_right (hlater x rfl).2
      rcases hmem' with hmem' | hy
      · exact ((mem_cons.mp hmem').resolve_right (hlater y htypes.1.symm).1).symm
      · exact Prod.ext htypes.1 (hx.trans hy.symm)
    rw [filter_cons, filter_cons] at h
    rw [ih htypes.2 hnodup.2 (by split at h <;> simpa using h)]

theorem given_injective : Function.Injective given := fun d e h => by
  have hfields : d.fields = e.fields := eq_of_filter_eq rfl (by simp [fields]) h
  cases d
  cases e
  simpa [fields] using hfields

/-- **Fields are kept apart** exactly if their values are separate: then the name is read as the
fields that are not empty, in their order, and no other fields with separate values have this
name. -/
theorem fields_kept_apart_iff (d : DistinguishedName) :
    (readFields d.text = d.given ↔ Separate d.values) ∧
    (Separate d.values → ∀ e : DistinguishedName, Separate e.values → e.text = d.text → e = d) := by
  refine ⟨⟨separate_of_readFields, readFields_text⟩, fun hd e he htext => given_injective ?_⟩
  rw [← readFields_text he, htext, readFields_text hd]

/-- Values with an escaped comma and with a trailing backslash are separate. -/
theorem fields_kept_apart_escaped :
    let d : DistinguishedName := ⟨"a\\,b", "", "o", "l", "s", "c\\"⟩
    Separate d.values ∧ readFields d.text =
      [("CN", "a\\,b"), ("O", "o"), ("L", "l"), ("ST", "s"), ("C", "c\\")] ∧
    ∀ e : DistinguishedName, Separate e.values → e.text = d.text → e = d := by
  have hvalues : Separate (values ⟨"a\\,b", "", "o", "l", "s", "c\\"⟩) :=
    ⟨by decide, by decide, by decide, by decide, rfl⟩
  have h := fields_kept_apart_iff ⟨"a\\,b", "", "o", "l", "s", "c\\"⟩
  exact ⟨hvalues, (h.1.mpr hvalues).trans (by decide), h.2 hvalues⟩

/-- **A comma in a value** begins a new field: other fields have the same name. -/
theorem comma_divides_value :
    let d : DistinguishedName := ⟨"a", "b", "o", "l", "s", "c"⟩
    let e : DistinguishedName := ⟨"a,OU=b", "", "o", "l", "s", "c"⟩
    d ≠ e ∧ d.text = e.text ∧ readFields e.text ≠ e.given := by
  decide

end ApkWorkshop.DistinguishedName
