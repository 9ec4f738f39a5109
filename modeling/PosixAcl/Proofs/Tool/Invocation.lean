import PosixAcl.Proofs.Text.Decoding
import PosixAcl.Proofs.Tool.CommandLine

/-!
# Which changes are accepted, and which fault is reported

The flags and operands of a change are accepted exactly if one flag only selects a
change and the operands are those that go with it. Otherwise the first fault is
reported, in an order that begins with the flags and goes through the operands. That
no flag selects a change is noticed last.
-/

namespace PosixAcl

namespace Flag

/-- Whether a flag takes a specification before the path. -/
def needsSpec : Flag → Bool
  | .merge | .remove | .replace => true
  | .help | .recursive | .keepBase | .dropDefault => false

/-- The change that a flag selects, with the entries of the specification if it takes one. -/
def selected? (entries : List Entry) : Flag → Option Change
  | .help | .recursive => none
  | .keepBase => some .keepBase
  | .dropDefault => some .dropDefault
  | .merge => some (.merge entries)
  | .remove => some (.remove entries)
  | .replace => some (.replace entries)

/-- What a flag selects is the change that it makes of the entries in the specification, where it
takes one, or of none. -/
theorem selects_iff {flag : Flag} {operands : List Bytes} {what : Change} {path : Path} :
    flag.Selects operands what path ↔
      if flag.needsSpec then
        ∃ text entries, operands = [Utf8.encode text, path.bytes] ∧
          readSpec text = .ok entries ∧ flag.selected? entries = some what
      else operands = [path.bytes] ∧ flag.selected? [] = some what := by
  constructor
  · intro h
    cases h with
    | keepBase path | dropDefault path => exact ⟨rfl, rfl⟩
    | merge path htext hread | remove path htext hread | replace path htext hread =>
      rw [Utf8.decode?_eq_some_iff] at htext
      subst htext
      exact ⟨_, _, rfl, hread, rfl⟩
  · obtain ⟨bytes⟩ := path
    cases flag with
    | help | recursive => rintro ⟨-, ⟨⟩⟩
    | keepBase =>
      rintro ⟨rfl, ⟨⟩⟩
      exact .keepBase bytes
    | dropDefault =>
      rintro ⟨rfl, ⟨⟩⟩
      exact .dropDefault bytes
    | merge =>
      rintro ⟨text, entries, rfl, hread, ⟨⟩⟩
      exact .merge bytes (Utf8.decode?_encode text) hread
    | remove =>
      rintro ⟨text, entries, rfl, hread, ⟨⟩⟩
      exact .remove bytes (Utf8.decode?_encode text) hread
    | replace =>
      rintro ⟨text, entries, rfl, hread, ⟨⟩⟩
      exact .replace bytes (Utf8.decode?_encode text) hread

end Flag

namespace Invocation

variable {flags : List Flag} {operands : List Bytes}

/-! ## The faults in their order -/

/-- The operands that are left for the path: all but the first if a flag takes a specification. -/
def paths (flags : List Flag) (operands : List Bytes) : List Bytes :=
  if flags.any Flag.needsSpec then operands.tail else operands

/-- What is wrong with the flags and operands of a change. The number is the place in the order of
the faults. -/
inductive Fault (flags : List Flag) (operands : List Bytes) : Nat → ToolError → Prop where
  /-- Two flags select different changes. -/
  | conflict {flag other : Flag} (hflag : flag ∈ flags) (hother : other ∈ flags)
      (hchange : flag.isChange = true) (hchange' : other.isChange = true) (hne : flag ≠ other) :
      Fault flags operands 0 (.usage .conflictingFlags)
  /-- There are not two operands where a specification has to precede the path. -/
  | noSpec (hneeds : flags.any Flag.needsSpec = true) (hshort : operands.length < 2) :
      Fault flags operands 1 (.usage (.missingOperand .spec))
  /-- The specification is not the UTF-8 form of a text. -/
  | noText {spec : Bytes} {rest : List Bytes} (hneeds : flags.any Flag.needsSpec = true)
      (hoperands : operands = spec :: rest) (htext : ∀ text, spec ≠ Utf8.encode text) :
      Fault flags operands 2 (.usage (.malformedText .spec))
  /-- The text of the specification cannot be read. -/
  | badSpec {text : Text} {rest : List Bytes} {error : SpecError}
      (hneeds : flags.any Flag.needsSpec = true) (hoperands : operands = Utf8.encode text :: rest)
      (hread : readSpec text = .error error) : Fault flags operands 3 (.spec error)
  /-- No operand is left for the path. -/
  | noPath (hnone : paths flags operands = []) :
      Fault flags operands 4 (.usage (.missingOperand .path))
  /-- More than one operand is left for the path. -/
  | manyPaths (hmany : 2 ≤ (paths flags operands).length) :
      Fault flags operands 5 (.usage .tooManyArguments)
  /-- No flag selects a change. -/
  | noChange (hnone : ∀ flag ∈ flags, flag.isChange = false) :
      Fault flags operands 6 (.usage .missingOperation)

/-- An error reports the first fault. -/
def FirstFault (flags : List Flag) (operands : List Bytes) (error : ToolError) : Prop :=
  ∃ place, Fault flags operands place error ∧
    ∀ earlier < place, ∀ other, ¬ Fault flags operands earlier other

/-- The fault at one place of the order is reported by one error. -/
theorem Fault.unique {place : Nat} {error other : ToolError} (h : Fault flags operands place error)
    (hother : Fault flags operands place other) : error = other := by
  cases h with
  | conflict | noSpec | noText | noPath | manyPaths | noChange => cases hother; rfl
  | badSpec hneeds hoperands hread =>
    cases hother with
    | badSpec hneeds' hoperands' hread' =>
      have htext := Utf8.encode_injective (List.cons.inj (hoperands.symm.trans hoperands')).1
      rw [htext, hread'] at hread
      rw [Except.error.inj hread]

/-- Only one error reports the first fault. -/
theorem FirstFault.unique {error other : ToolError} (h : FirstFault flags operands error)
    (hother : FirstFault flags operands other) : error = other := by
  obtain ⟨place, hfault, hfirst⟩ := h
  obtain ⟨place', hfault', hfirst'⟩ := hother
  rcases Nat.lt_trichotomy place place' with hlt | rfl | hlt
  · exact absurd hfault (hfirst' place hlt error)
  · exact hfault.unique hfault'
  · exact absurd hfault' (hfirst place' hlt other)

/-! ## What the steps of the check find -/

/-- Flags are combined exactly if this is a fault. -/
theorem conflicting_eq_true_iff (operands : List Bytes) :
    conflicting flags = true ↔ ∃ error, Fault flags operands 0 error := by
  rw [← not_iff_not, Bool.not_eq_true, conflicting_eq_false_iff]
  constructor
  · rintro hsame ⟨-, hflag, hother, hchange, hchange', hne⟩
    exact hne (hsame _ hflag _ hother hchange hchange')
  · intro hfree flag hflag other hother hchange hchange'
    by_contra hne
    exact hfree ⟨_, .conflict hflag hother hchange hchange' hne⟩

/-- The flags ask for a specification if one of them takes one. -/
theorem takesSpec_eq_any : takesSpec flags = flags.any Flag.needsSpec := by
  rw [Bool.eq_iff_iff]
  simp only [takesSpec, Bool.or_eq_true, List.contains_iff_mem, List.any_eq_true]
  constructor
  · rintro ((hmem | hmem) | hmem)
    · exact ⟨_, hmem, rfl⟩
    · exact ⟨_, hmem, rfl⟩
    · exact ⟨_, hmem, rfl⟩
  · rintro ⟨flag, hmem, hneeds⟩
    cases flag <;> simp_all [Flag.needsSpec]

/-- Taking the entries finds the first fault of the specification, or there is none and the other
operands are left for the path. -/
private theorem takeEntries_verdict (flags : List Flag) (operands : List Bytes) :
    (∃ entries, takeEntries flags operands = .ok (entries, paths flags operands) ∧
      ∀ place error, Fault flags operands place error → place = 0 ∨ 4 ≤ place) ∨
    ∃ error place, takeEntries flags operands = .error error ∧ Fault flags operands place error ∧
      ∀ earlier < place, ∀ other, Fault flags operands earlier other → earlier = 0 := by
  by_cases hneeds : flags.any Flag.needsSpec = true
  · have htakes : takesSpec flags = true := takesSpec_eq_any.trans hneeds
    match operands with
    | [] | [_] =>
      refine Or.inr ⟨.usage (.missingOperand .spec), 1, ?_, .noSpec hneeds (by simp), ?_⟩
      · simp only [takeEntries, htakes, if_true]
      · exact fun earlier hlt _ _ => by omega
    | spec :: path :: rest =>
      have hlong : ¬ (spec :: path :: rest).length < 2 := Nat.not_lt.mpr (Nat.le_add_left 2 _)
      cases hdecoded : Utf8.decode? spec with
      | none =>
        have hmalformed := Utf8.decode?_eq_none_iff.mp hdecoded
        refine Or.inr ⟨.usage (.malformedText .spec), 2, ?_, .noText hneeds rfl hmalformed, ?_⟩
        · simp only [takeEntries, htakes, hdecoded, if_true]
        · intro earlier hlt other hfault
          cases hfault with
          | conflict => rfl
          | noSpec _ hshort => exact absurd hshort hlong
          | _ => omega
      | some text =>
        obtain rfl := Utf8.decode?_eq_some_iff.mp hdecoded
        cases hread : readSpec text with
        | error error =>
          refine Or.inr ⟨.spec error, 3, ?_, .badSpec hneeds rfl hread, ?_⟩
          · simp only [takeEntries, htakes, hdecoded, hread, if_true]
          · intro earlier hlt other hfault
            cases hfault with
            | conflict => rfl
            | noSpec _ hshort => exact absurd hshort hlong
            | noText _ hoperands hmalformed =>
              exact absurd (List.cons.inj hoperands).1.symm (hmalformed text)
            | _ => omega
        | ok entries =>
          refine Or.inl ⟨entries, ?_, fun place error hfault => ?_⟩
          · simp only [takeEntries, htakes, hdecoded, hread, paths, hneeds, if_true, List.tail_cons]
          · cases hfault with
            | conflict => exact Or.inl rfl
            | noSpec _ hshort => exact absurd hshort hlong
            | noText _ hoperands hmalformed =>
              exact absurd (List.cons.inj hoperands).1.symm (hmalformed text)
            | badSpec _ hoperands hfailed =>
              rw [← Utf8.encode_injective (List.cons.inj hoperands).1, hread] at hfailed
              cases hfailed
            | noPath | manyPaths | noChange => right; omega
  · have htakes : ¬ takesSpec flags = true := by rwa [takesSpec_eq_any]
    have htake : takeEntries flags operands = .ok ([], paths flags operands) := by
      rw [paths, if_neg hneeds]
      exact if_neg htakes
    refine Or.inl ⟨[], htake, fun place error hfault => ?_⟩
    cases hfault with
    | conflict => exact Or.inl rfl
    | noSpec hneeds' | noText hneeds' | badSpec hneeds' => exact absurd hneeds' hneeds
    | noPath | manyPaths | noChange => right; omega

/-- The path is single, or the number of operands that are left for it is the fault. -/
private theorem singlePath_verdict (flags : List Flag) (operands : List Bytes) :
    (∃ path, singlePath (paths flags operands) = .ok path ∧
      ∀ place error, Fault flags operands place error → place < 4 ∨ place = 6) ∨
    ∃ error place, singlePath (paths flags operands) = .error error ∧
      Fault flags operands place (.usage error) ∧
      ∀ earlier < place, ∀ other, Fault flags operands earlier other → earlier < 4 := by
  match hpaths : paths flags operands with
  | [] => exact Or.inr ⟨_, 4, rfl, .noPath hpaths, fun earlier hlt _ _ => hlt⟩
  | [path] =>
    refine Or.inl ⟨⟨path⟩, rfl, fun place error hfault => ?_⟩
    cases hfault with
    | noPath hnone => rw [hpaths] at hnone; cases hnone
    | manyPaths hmany => simp [hpaths] at hmany
    | _ => omega
  | first :: second :: rest =>
    refine Or.inr ⟨_, 5, rfl, .manyPaths (by simp [hpaths]), fun earlier hlt other hfault => ?_⟩
    cases hfault with
    | noPath hnone => rw [hpaths] at hnone; cases hnone
    | _ => omega

/-- The flags ask for a change, or that none of them does is the fault. -/
private theorem change?_verdict (flags : List Flag) (operands : List Bytes) (entries : List Entry) :
    (∃ what, change? flags entries = some what ∧ ∀ error, ¬ Fault flags operands 6 error) ∨
      change? flags entries = none ∧ Fault flags operands 6 (.usage .missingOperation) := by
  cases hchange : change? flags entries with
  | some what =>
    obtain ⟨flag, hflag, hselects⟩ := exists_mem_of_change? hchange
    refine Or.inl ⟨what, rfl, fun error hfault => ?_⟩
    cases hfault with
    | noChange hnone => exact absurd hselects (by simp [hnone flag hflag])
  | none =>
    refine Or.inr ⟨rfl, .noChange fun flag hflag => ?_⟩
    simp only [change?, List.contains_iff_mem] at hchange
    split_ifs at hchange with hkeep hdrop hmerge hremove hreplace
    cases flag <;> simp_all [Flag.isChange]

/-- The check finds the first fault, or there is none. -/
private theorem ofChange_verdict (flags : List Flag) (operands : List Bytes) :
    (∃ edit, ofChange ⟨flags, operands⟩ = .ok edit ∧
      ∀ place error, ¬ Fault flags operands place error) ∨
    ∃ error, ofChange ⟨flags, operands⟩ = .error error ∧ FirstFault flags operands error := by
  by_cases hconflict : conflicting flags = true
  · obtain ⟨-, hflag, hother, hchange, hchange', hne⟩ :=
      (conflicting_eq_true_iff operands).mp hconflict
    refine Or.inr ⟨.usage .conflictingFlags, by simp only [ofChange, hconflict, if_true], 0,
      .conflict hflag hother hchange hchange' hne, fun earlier hlt => by omega⟩
  -- Each step that finds nothing leaves only the later places for a fault.
  have hfree : conflicting flags = false := by simpa using hconflict
  have hzero : ∀ other, ¬ Fault flags operands 0 other :=
    fun other hfault => hconflict ((conflicting_eq_true_iff operands).mpr ⟨other, hfault⟩)
  obtain ⟨entries, htake, hspec⟩ | ⟨error, place, htake, hfault, hearlier⟩ :=
    takeEntries_verdict flags operands
  · have hfour : ∀ earlier < 4, ∀ other, ¬ Fault flags operands earlier other := by
      intro earlier hlt other hother
      rcases hspec earlier other hother with rfl | hge
      · exact hzero other hother
      · omega
    obtain ⟨path, hpath, hsingle⟩ | ⟨error, place, hpath, hfault, hearlier⟩ :=
      singlePath_verdict flags operands
    · have hsix : ∀ earlier other, Fault flags operands earlier other → earlier = 6 := by
        intro earlier other hother
        rcases hsingle earlier other hother with hlt | rfl
        · exact absurd hother (hfour earlier hlt other)
        · rfl
      obtain ⟨what, hchange, hnone⟩ | ⟨hchange, hfault⟩ := change?_verdict flags operands entries
      · refine Or.inl ⟨⟨flags.contains .recursive, what, path⟩, ?_, fun place error hfault => ?_⟩
        · simp only [ofChange, hfree, htake, hpath, hchange, Bool.false_eq_true, if_false]
        · exact hnone error (hsix place error hfault ▸ hfault)
      · refine Or.inr ⟨.usage .missingOperation, ?_, 6, hfault, fun earlier hlt other hother => ?_⟩
        · simp only [ofChange, hfree, htake, hpath, hchange, Bool.false_eq_true, if_false]
        · exact absurd (hsix earlier other hother) (by omega)
    · refine Or.inr ⟨.usage error, ?_, place, hfault, fun earlier hlt other hother => ?_⟩
      · simp only [ofChange, hfree, htake, hpath, Bool.false_eq_true, if_false]
      · exact hfour earlier (hearlier earlier hlt other hother) other hother
  · refine Or.inr ⟨error, ?_, place, hfault, fun earlier hlt other hother => ?_⟩
    · simp only [ofChange, hfree, htake, Bool.false_eq_true, if_false]
    · exact hzero other (hearlier earlier hlt other hother ▸ hother)

/-! ## The whole check -/

/-- What the tool that changes lists is to do is settled for all flags and operands. It is accepted
exactly if one flag only selects a change and the operands are the path alone or, for a flag that
takes one, the UTF-8 form of a specification that can be read, and the path. The change is then the
one of the flag with these entries. Whatever else is given is refused for its first fault. -/
theorem ofChange_accepts_and_refuses (flags : List Flag) (operands : List Bytes) :
    (∀ edit : Invocation Change, ofChange ⟨flags, operands⟩ = .ok edit ↔
      ∃ flag : Flag, flag.isChange = true ∧
        (∀ other : Flag, other.isChange = true → (other ∈ flags ↔ other = flag)) ∧
        edit.recursive = flags.contains .recursive ∧
        if flag.needsSpec then
          ∃ text entries, operands = [Utf8.encode text, edit.path.bytes] ∧
            readSpec text = .ok entries ∧ flag.selected? entries = some edit.action
        else operands = [edit.path.bytes] ∧ flag.selected? [] = some edit.action) ∧
    ∀ error : ToolError, ofChange ⟨flags, operands⟩ = .error error ↔
      FirstFault flags operands error := by
  refine ⟨fun edit => ⟨fun h => ?_, ?_⟩, fun error => ?_⟩
  · obtain ⟨hfree, -, entries, -, hchange⟩ := ofChange_eq_ok_iff.mp h
    obtain ⟨flag, hflag, hselects⟩ := exists_mem_of_change? hchange
    have honly : ∀ other : Flag, other.isChange = true → (other ∈ flags ↔ other = flag) := by
      refine fun other hother => ⟨fun hmem => ?_, fun heq => heq ▸ hflag⟩
      exact conflicting_eq_false_iff.mp hfree other hmem flag hflag hother hselects
    obtain ⟨hrecursive, hoperands⟩ := (ofChange_eq_ok_iff_of_mem hselects honly).mp h
    exact ⟨flag, hselects, honly, hrecursive, Flag.selects_iff.mp hoperands⟩
  · rintro ⟨flag, hselects, honly, hrecursive, hoperands⟩
    exact (ofChange_eq_ok_iff_of_mem hselects honly).mpr
      ⟨hrecursive, Flag.selects_iff.mpr hoperands⟩
  · obtain ⟨edit, hedit, hnone⟩ | ⟨other, hother, hfirst⟩ := ofChange_verdict flags operands
    · rw [hedit]
      exact ⟨nofun, fun ⟨place, hfault, _⟩ => absurd hfault (hnone place error)⟩
    · rw [hother, Except.error.injEq]
      exact ⟨fun heq => heq ▸ hfirst, fun herror => hfirst.unique herror⟩

/-- Flags for two changes are the first fault also where the operands have faults of their own. -/
example : ofChange ⟨[.merge, .recursive, .dropDefault], [[0xFF]]⟩ =
    .error (.usage .conflictingFlags) := by
  decide +kernel

end Invocation

end PosixAcl
