import PosixAcl.Proofs.Store.Location

/-!
# Spellings of a path

A path can be spelled in many ways that lead to the same place. Slashes may be
repeated or put at the end, and single dots may stand anywhere between them. What
counts is whether the path starts with a slash, and its other components. The plain
spelling of a location is one spelling out of many, the same for all that lead there.
-/

namespace PosixAcl

/-- Cutting a list into fields is cutting it at every separator. -/
theorem fields_eq_splitOn {α : Type} [DecidableEq α] (separator : α) (s : List α) :
    fields separator s = s.splitOn separator := by
  induction s with
  | nil => rfl
  | cons a rest ih =>
    rw [List.splitOn] at ih ⊢
    rw [fields, ih, List.splitOnP_cons_eq_if_modifyHead]
    by_cases ha : a = separator
    · simp [ha]
    · cases hrest : rest.splitOnP (· == separator) with
      | nil => exact absurd (ih.trans hrest) (fields_ne_nil separator rest)
      | cons field others => simp [ha]

namespace Path

/-- What stands between the slashes of a path, without empty pieces and single dots. Two dots are a
name like any other. -/
def pieces (p : Path) : List Bytes :=
  (p.bytes.splitOn 0x2F).filter fun piece => piece ≠ [] ∧ piece ≠ [0x2E]

/-- Two paths are spellings of one place: both of them start with a slash or none does, and the same
pieces stand between their slashes. -/
structure Respells (p q : Path) : Prop where
  /-- Both start with a slash, or none does. -/
  start : p.bytes.head? = some 0x2F ↔ q.bytes.head? = some 0x2F
  /-- The same pieces stand between the slashes. -/
  pieces : p.pieces = q.pieces

/-- The plain spelling of the location of a path. -/
def normal (p : Path) : Path :=
  p.location.path

/-- The pieces of a path are the names of its location. -/
theorem names_location (p : Path) : p.location.names = p.pieces := by
  rw [location, pieces, ← fields_eq_splitOn]
  refine List.filter_congr fun piece _ => ?_
  cases piece <;> simp [dot]

/-- Two paths are spellings of one place exactly if they have the same location. -/
theorem respells_iff {p q : Path} : p.Respells q ↔ p.location = q.location := by
  have hlocation : ∀ p : Path, p.location = ⟨p.isAbsolute, p.pieces⟩ := fun p =>
    congrArg (Location.mk p.isAbsolute) p.names_location
  rw [hlocation, hlocation, Location.mk.injEq, isAbsolute, isAbsolute, decide_eq_decide]
  exact ⟨fun h => ⟨h.start, h.pieces⟩, fun h => ⟨h.1, h.2⟩⟩

/-- The plain spelling leads to the same location. -/
theorem location_normal (p : Path) : p.normal.location = p.location :=
  p.location_isNormal.location_path

/-- Two paths are spellings of one place exactly if they have the same plain spelling. -/
theorem respells_iff_normal_eq {p q : Path} : p.Respells q ↔ p.normal = q.normal := by
  rw [respells_iff]
  constructor
  · exact congrArg Location.path
  · intro h
    rw [← p.location_normal, h, q.location_normal]

/-! ## Slack in a spelling -/

/-- The pieces on the two sides of a slash are the pieces of the whole. -/
theorem pieces_append_slash (before after : Bytes) :
    (Path.mk (before ++ slash :: after)).pieces =
      (Path.mk before).pieces ++ (Path.mk after).pieces := by
  simp only [← names_location, location, fields_append_separator, List.filter_append]

/-- Repeated slashes, with or without single dots between them, are one slash. -/
theorem respells_of_slack_between (before after : Bytes) {slack : Bytes}
    (hslack : (Path.mk slack).pieces = []) :
    Respells ⟨before ++ slash :: (slack ++ slash :: after)⟩ ⟨before ++ slash :: after⟩ where
  start := by cases before <;> simp
  pieces := by simp only [pieces_append_slash, hslack, List.nil_append]

/-- Slashes at the end, with or without single dots between them, do not count, unless nothing stands
before them. -/
theorem respells_of_slack_after {before slack : Bytes} (hbefore : before ≠ [])
    (hslack : (Path.mk slack).pieces = []) : Respells ⟨before ++ slash :: slack⟩ ⟨before⟩ where
  start := by
    obtain ⟨first, rest, rfl⟩ := List.exists_cons_of_ne_nil hbefore
    rfl
  pieces := by rw [pieces_append_slash, hslack, List.append_nil]

end Path

end PosixAcl
