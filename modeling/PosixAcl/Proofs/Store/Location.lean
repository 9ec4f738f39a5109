import PosixAcl.Store.Path

/-!
# Normal forms of paths

A location whose names are proper components has a plain spelling that leads back
to it, and every path has such a location. So the plain spelling of a location is
the normal form of all paths that lead there.
-/

namespace PosixAcl

/-- A name that can stand between two slashes and is not dropped there. -/
def Name.IsComponent (name : Name) : Prop :=
  name ≠ [] ∧ name ≠ dot ∧ slash ∉ name

/-- A location all of whose names are components. -/
def Location.IsNormal (l : Location) : Prop :=
  ∀ name ∈ l.names, Name.IsComponent name

/-- The names of the location of a path are components. -/
theorem Path.location_isNormal (p : Path) : p.location.IsNormal := by
  intro name hname
  obtain ⟨hmem, hkept⟩ := List.mem_filter.mp hname
  obtain ⟨hempty, hdot⟩ : name ≠ [] ∧ name ≠ dot := by simpa using hkept
  exact ⟨hempty, hdot, not_mem_of_mem_fields hmem⟩

namespace Location

/-- Cutting a joined list of components at the slashes gives the components back, and nothing but
empty fields besides. -/
private theorem filter_fields_joinFields {names : List Name}
    (h : ∀ name ∈ names, Name.IsComponent name) :
    ((fields slash (joinFields slash names)).filter fun name => !name.isEmpty && name ≠ dot) =
      names := by
  by_cases hempty : names = []
  · subst hempty
    rfl
  · rw [fields_joinFields hempty fun name hname => (h name hname).2.2, List.filter_eq_self]
    intro name hname
    simp [(h name hname).1, (h name hname).2.1]

/-- The plain spelling of a normal location starts at the root exactly if the location does. -/
theorem IsNormal.isAbsolute_path {l : Location} (h : l.IsNormal) :
    l.path.isAbsolute = l.absolute := by
  obtain ⟨absolute, names⟩ := l
  cases absolute with
  | true => simp [path, Path.isAbsolute]
  | false =>
    cases names with
    | nil => rfl
    | cons name others =>
      obtain ⟨hne, -, hslash⟩ := h name List.mem_cons_self
      cases name with
      | nil => exact absurd rfl hne
      | cons b rest =>
        have hb : b ≠ slash := fun heq => hslash (by simp [heq])
        cases others <;> simp [path, joinFields, Path.isAbsolute, hb]

/-- The plain spelling of a normal location leads back to it. -/
theorem IsNormal.location_path {l : Location} (h : l.IsNormal) : l.path.location = l := by
  have habsolute := h.isAbsolute_path
  have hnames : l.path.location.names = l.names := by
    cases hl : l.absolute with
    | true =>
      have hbytes : l.path.bytes = slash :: joinFields slash l.names := by simp [path, hl]
      simp only [Path.location, hbytes, fields, if_true, List.filter_cons_of_neg,
        List.isEmpty_nil, Bool.not_true, Bool.false_and, Bool.false_eq_true, not_false_eq_true]
      exact filter_fields_joinFields h
    | false =>
      have hbytes : l.path.bytes = joinFields slash l.names := by simp [path, hl]
      simp only [Path.location, hbytes]
      exact filter_fields_joinFields h
  calc l.path.location = ⟨l.path.isAbsolute, l.path.location.names⟩ := rfl
    _ = l := by rw [habsolute, hnames]

end Location

end PosixAcl
