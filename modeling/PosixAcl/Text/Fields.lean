/-!
# Fields between separators

A text is a list of characters and a byte string a list of bytes. Both are cut at a separator
into fields and put together again from them: joining undoes cutting, and cutting undoes joining
whenever no field contains the separator.
-/

namespace PosixAcl

/-- A text, as the list of its characters. -/
abbrev Text := List Char

/-- A byte string, as the list of its bytes. -/
abbrev Bytes := List UInt8

variable {α : Type}

/-- The fields of a list between the occurrences of a separator. There is always one field more
than there are separators, so an empty list has one empty field. -/
def fields [DecidableEq α] (separator : α) : List α → List (List α)
  | [] => [[]]
  | a :: rest =>
    if a = separator then [] :: fields separator rest
    else
      match fields separator rest with
      | [] => [[a]]
      | field :: others => (a :: field) :: others

/-- The list that has the given fields between separators. -/
def joinFields (separator : α) : List (List α) → List α
  | [] => []
  | [field] => field
  | field :: next :: others => field ++ separator :: joinFields separator (next :: others)

/-- Joining puts a separator between the first field and the others. -/
theorem joinFields_cons (separator : α) (field : List α) {others : List (List α)}
    (hothers : others ≠ []) :
    joinFields separator (field :: others) = field ++ separator :: joinFields separator others := by
  cases others with
  | nil => exact absurd rfl hothers
  | cons next others => rfl

/-- There is always at least one field. -/
theorem fields_ne_nil [DecidableEq α] (separator : α) (s : List α) : fields separator s ≠ [] := by
  cases s with
  | nil => simp [fields]
  | cons a rest =>
    unfold fields
    split
    · simp
    · split <;> simp

/-- Joining the fields of a list gives the list back. -/
theorem joinFields_fields [DecidableEq α] (separator : α) (s : List α) :
    joinFields separator (fields separator s) = s := by
  induction s with
  | nil => rfl
  | cons a rest ih =>
    unfold fields
    split
    · rename_i ha
      cases hrest : fields separator rest with
      | nil => exact absurd hrest (fields_ne_nil separator rest)
      | cons field others =>
        rw [hrest] at ih
        simp [joinFields, ih, ha]
    · cases hrest : fields separator rest with
      | nil => exact absurd hrest (fields_ne_nil separator rest)
      | cons field others =>
        rw [hrest] at ih
        cases others with
        | nil => simpa [joinFields] using ih
        | cons next others => simpa [joinFields] using ih

/-- What is in joined fields is the separator, or is in one of the fields. -/
theorem mem_of_mem_joinFields {separator : α} {found : List (List α)} {a : α}
    (ha : a ∈ joinFields separator found) : a = separator ∨ ∃ field ∈ found, a ∈ field := by
  induction found with
  | nil => simp [joinFields] at ha
  | cons field others ih =>
    by_cases hempty : others = []
    · subst hempty
      exact Or.inr ⟨field, List.mem_cons_self, ha⟩
    · rw [joinFields_cons separator field hempty, List.mem_append, List.mem_cons] at ha
      rcases ha with ha | rfl | ha
      · exact Or.inr ⟨field, List.mem_cons_self, ha⟩
      · exact Or.inl rfl
      · rcases ih ha with hsep | ⟨other, hother, hin⟩
        · exact Or.inl hsep
        · exact Or.inr ⟨other, List.mem_cons_of_mem _ hother, hin⟩

/-- What is in a field is in the joined fields. -/
theorem mem_joinFields_of_mem {separator : α} {found : List (List α)} {field : List α} {a : α}
    (hfield : field ∈ found) (ha : a ∈ field) : a ∈ joinFields separator found := by
  induction found with
  | nil => simp at hfield
  | cons first others ih =>
    by_cases hempty : others = []
    · subst hempty
      rw [← List.mem_singleton.mp hfield]
      exact ha
    · rw [joinFields_cons separator first hempty, List.mem_append, List.mem_cons]
      rcases List.mem_cons.mp hfield with rfl | hfield
      · exact Or.inl ha
      · exact Or.inr (Or.inr (ih hfield))

/-- What is in a field of a list is in the list. -/
theorem mem_of_mem_field [DecidableEq α] {separator : α} {s field : List α} {a : α}
    (hfield : field ∈ fields separator s) (ha : a ∈ field) : a ∈ s := by
  rw [← joinFields_fields separator s]
  exact mem_joinFields_of_mem hfield ha

/-- No field contains the separator. -/
theorem not_mem_of_mem_fields [DecidableEq α] {separator : α} {s field : List α}
    (hfield : field ∈ fields separator s) : separator ∉ field := by
  induction s generalizing field with
  | nil =>
    have hempty : field = [] := by simpa [fields] using hfield
    simp [hempty]
  | cons a rest ih =>
    unfold fields at hfield
    split at hfield
    · rcases List.mem_cons.mp hfield with rfl | hfield
      · simp
      · exact ih hfield
    · rename_i ha
      cases hrest : fields separator rest with
      | nil => exact absurd hrest (fields_ne_nil separator rest)
      | cons first others =>
        rw [hrest] at hfield ih
        rcases List.mem_cons.mp hfield with rfl | hfield
        · have hfirst := ih List.mem_cons_self
          simpa [hfirst] using Ne.symm ha
        · exact ih (List.mem_cons_of_mem _ hfield)

/-- A list without the separator is a single field. -/
theorem fields_of_not_mem [DecidableEq α] {separator : α} {s : List α} (hs : separator ∉ s) :
    fields separator s = [s] := by
  induction s with
  | nil => rfl
  | cons a rest ih =>
    have ha : a ≠ separator := fun h => hs (by simp [h])
    have hrest : separator ∉ rest := fun h => hs (by simp [h])
    simp [fields, ha, ih hrest]

/-- Cutting takes off one field at a time. -/
theorem fields_append [DecidableEq α] {separator : α} {field : List α} (hfield : separator ∉ field)
    (s : List α) :
    fields separator (field ++ separator :: s) = field :: fields separator s := by
  induction field with
  | nil => simp [fields]
  | cons a rest ih =>
    have ha : a ≠ separator := fun h => hfield (by simp [h])
    have hrest : separator ∉ rest := fun h => hfield (by simp [h])
    simp [fields, ha, ih hrest]

/-- What stands on the two sides of a separator is cut separately. -/
theorem fields_append_separator [DecidableEq α] (separator : α) (s t : List α) :
    fields separator (s ++ separator :: t) = fields separator s ++ fields separator t := by
  induction s with
  | nil => simp [fields]
  | cons a rest ih =>
    by_cases ha : a = separator
    · simp [fields, ha, ih]
    · cases hrest : fields separator rest with
      | nil => exact absurd hrest (fields_ne_nil separator rest)
      | cons field others =>
        rw [hrest] at ih
        simp [fields, ha, ih, hrest]

/-- The fields of joined fields are those fields, if none of them contains the separator. -/
theorem fields_joinFields [DecidableEq α] {separator : α} {found : List (List α)} (hfound : found ≠ [])
    (hfields : ∀ field ∈ found, separator ∉ field) :
    fields separator (joinFields separator found) = found := by
  induction found with
  | nil => exact absurd rfl hfound
  | cons field others ih =>
    have hfield := hfields field (by simp)
    have hothers : ∀ other ∈ others, separator ∉ other :=
      fun other hother => hfields other (by simp [hother])
    by_cases hempty : others = []
    · subst hempty
      exact fields_of_not_mem hfield
    · rw [joinFields_cons separator field hempty, fields_append hfield, ih hempty hothers]

end PosixAcl
