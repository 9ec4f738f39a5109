import PosixAcl.Proofs.Entry.Grammar

/-!
# Which entries survive writing

An entry that is written and read again comes back exactly if its name has no
colon, and a list of entries exactly if it is not empty and no name has a colon or
a comma. An entry with a colon in its name is refused, and never taken for
another one.
-/

namespace PosixAcl

/-- The written form of an entry in parts. -/
theorem Entry.text_eq_parts (e : Entry) :
    e.text = e.scope.marker ++ e.kind.name ++ ':' :: e.name ++ ':' :: e.permission.symbol := by
  obtain ⟨scope, kind, name, permission⟩ := e
  cases scope <;> simp [Entry.text, joinFields, Scope.marker]

/-- A name with a colon makes the written form of an entry malformed: it has at least three colons,
and more than three if it begins with the marker of the default scope. -/
theorem Entry.malformed_text {e : Entry} (h : ':' ∈ e.name) : Malformed e.text := by
  have hname : 0 < e.name.count ':' := List.count_pos_iff.mpr h
  have hkind : e.kind.name.count ':' = 0 := List.count_eq_zero.mpr e.kind.not_mem_name.1
  have hsymbol : e.permission.symbol.count ':' = 0 :=
    List.count_eq_zero.mpr e.permission.not_mem_symbol.1
  have hcount : e.text.count ':' = e.scope.marker.count ':' + e.name.count ':' + 2 := by
    rw [e.text_eq_parts]
    simp only [List.count_append, List.count_cons_self, hkind, hsymbol]
    omega
  cases hscope : e.scope with
  | access =>
    rw [hscope, show Scope.access.marker.count ':' = 0 from rfl] at hcount
    by_cases hthree : e.text.count ':' = 3
    · refine Or.inr ⟨hthree, ?_⟩
      rintro ⟨rest, hrest⟩
      obtain ⟨first, others, hfirst, hletter⟩ := e.kind.exists_name_eq
      rw [e.text_eq_parts, hscope, hfirst] at hrest
      have hd : 'd' = first := (List.cons.inj hrest).1
      rw [← hd] at hletter
      exact absurd hletter (by decide)
    · exact Or.inl ⟨by omega, hthree⟩
  | default =>
    rw [hscope, show Scope.default.marker.count ':' = 1 from by decide] at hcount
    exact Or.inl ⟨by omega, by omega⟩

/-- The written form of an entry reads back as that entry exactly if its name has no colon. -/
theorem Entry.read_text_iff {e : Entry} : Entry.read e.text = .ok e ↔ ':' ∉ e.name := by
  refine ⟨fun h hcolon => ?_, Entry.read_text⟩
  rw [Entry.read_of_malformed (Entry.malformed_text hcolon)] at h
  cases h

/-- A specification that can be read has entries. -/
theorem ne_nil_of_readSpec {spec : Text} {entries : List Entry}
    (h : readSpec spec = .ok entries) : entries ≠ [] := by
  rintro rfl
  obtain ⟨hne, hdenote⟩ := readSpec_eq_ok_iff.mp h
  exact hne (List.forall₂_nil_right_iff.mp hdenote)

/-- Written entries read back as they were exactly if there are any and no name has a colon or a
comma. So what was read from a specification can be written and read again without loss. A single
entry reads back unless its name has a colon. Then its written form is refused as malformed. -/
theorem readSpec_texts_iff :
    (∀ entries : List Entry, readSpec (joinFields ',' (entries.map Entry.text)) = .ok entries ↔
      entries ≠ [] ∧ ∀ e ∈ entries, ':' ∉ e.name ∧ ',' ∉ e.name) ∧
    (∀ (spec : Text) (entries : List Entry), readSpec spec = .ok entries →
      readSpec (joinFields ',' (entries.map Entry.text)) = .ok entries) ∧
    ∀ e : Entry, (Entry.read e.text = .ok e ↔ ':' ∉ e.name) ∧
      (':' ∈ e.name → Entry.read e.text = .error ⟨.malformed, e.text⟩) := by
  refine ⟨fun entries => ⟨fun h => ?_, fun h => readSpec_texts h.1 h.2⟩, fun spec entries h => ?_,
    fun e => ⟨Entry.read_text_iff, fun h => Entry.read_of_malformed (Entry.malformed_text h)⟩⟩
  · exact ⟨ne_nil_of_readSpec h, legible_of_readSpec h⟩
  · exact readSpec_texts (ne_nil_of_readSpec h) (legible_of_readSpec h)

/-- A name may be a reserved word or a space. A name with delimiters may hold a second entry: then
the list reads back, but as two other entries. -/
theorem readSpec_texts_iff_odd_names :
    let reserved : Entry := ⟨.default, .user, Scope.defaultToken, ⟨true, false, false⟩⟩
    let space : Entry := ⟨.access, .group, [' '], ⟨true, false, true⟩⟩
    let twofold : Entry :=
      ⟨.access, .user, ['a', ':', 'r', '-', '-', ',', 'u', 's', 'e', 'r', ':', 'b'],
        ⟨true, false, false⟩⟩
    readSpec (joinFields ',' ([reserved, space].map Entry.text)) = .ok [reserved, space] ∧
      readSpec (joinFields ',' ([twofold].map Entry.text)) ≠ .ok [twofold] ∧
      Entry.read twofold.text = .error ⟨.malformed, twofold.text⟩ := by
  intro reserved space twofold
  obtain ⟨hlist, -, hone⟩ := readSpec_texts_iff
  refine ⟨(hlist _).mpr (by decide), fun h => ?_, (hone twofold).2 (by decide)⟩
  exact absurd ((hlist _).mp h) (by decide)

end PosixAcl
