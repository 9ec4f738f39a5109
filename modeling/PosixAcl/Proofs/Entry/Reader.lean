import Mathlib.Data.List.Forall2
import PosixAcl.Entry.Reader

/-!
# Reading back what was written

The written form of an entry reads back as that entry, unless its name contains a
colon, and a specification made of written entries reads back as these entries,
unless a name contains a comma. Names that come from a specification contain
neither.
-/

namespace PosixAcl

/-- An entry that can be written into a specification: its name contains neither a colon nor a
comma. -/
def Entry.Legible (e : Entry) : Prop :=
  ':' ∉ e.name ∧ ',' ∉ e.name

/-- An entry without a name is legible. -/
theorem Entry.legible_of_unnamed {e : Entry} (h : e.name = []) : e.Legible := by
  rw [Entry.Legible, h]
  exact ⟨List.not_mem_nil, List.not_mem_nil⟩

/-! ## White space -/

/-- A text that begins and ends with something else than white space is not trimmed. -/
theorem trim_eq_self {first last : Char} (hfirst : isBlank first = false)
    (hlast : isBlank last = false) (middle : Text) :
    trim (first :: (middle ++ [last])) = first :: (middle ++ [last]) := by
  have hfront : (first :: (middle ++ [last])).dropWhile isBlank = first :: (middle ++ [last]) :=
    List.dropWhile_cons_of_neg (by simp [hfirst])
  have hback : (first :: (middle ++ [last])).reverse = last :: (middle.reverse ++ [first]) := by
    simp
  rw [trim, hfront, hback, List.dropWhile_cons_of_neg (by simp [hlast]), ← hback,
    List.reverse_reverse]

/-- Trimming adds nothing. -/
theorem mem_of_mem_trim {s : Text} {c : Char} (hc : c ∈ trim s) : c ∈ s := by
  rw [trim, List.mem_reverse] at hc
  have hback := (List.dropWhile_suffix isBlank).subset hc
  exact (List.dropWhile_suffix isBlank).subset (List.mem_reverse.mp hback)

/-! ## One entry -/

/-- The name of a kind reads back as that kind. -/
theorem Kind.ofName?_name (kind : Kind) : Kind.ofName? kind.name = some kind := by
  cases kind <;> rfl

/-- The name of a kind contains letters only. -/
theorem Kind.not_mem_name (kind : Kind) : ':' ∉ kind.name ∧ ',' ∉ kind.name := by
  cases kind <;> decide

/-- The symbol of a permission contains letters and dashes only. -/
theorem Permission.not_mem_symbol (p : Permission) : ':' ∉ p.symbol ∧ ',' ∉ p.symbol := by
  rcases p with ⟨_ | _, _ | _, _ | _⟩ <;> decide

/-- The name of a kind begins with its letter. -/
theorem Kind.exists_name_eq (kind : Kind) :
    ∃ first rest, kind.name = first :: rest ∧ first ∈ ['u', 'g', 'm', 'o'] := by
  cases kind <;> exact ⟨_, _, rfl, by decide⟩

/-- An entry is written with a letter at the beginning, and a letter or a dash at the end. -/
theorem Entry.exists_text_eq (e : Entry) :
    ∃ first middle last, e.text = first :: (middle ++ [last]) ∧
      first ∈ ['u', 'g', 'm', 'o', 'd'] ∧ last ∈ ['x', '-'] := by
  obtain ⟨scope, kind, name, read, write, execute⟩ := e
  obtain ⟨first, rest, hkind, hfirst⟩ := kind.exists_name_eq
  have hlast : (if execute then 'x' else '-') ∈ ['x', '-'] := by cases execute <;> decide
  have hrights : ∃ front, Permission.symbol ⟨read, write, execute⟩ =
      front ++ [if execute then 'x' else '-'] := ⟨[_, _], rfl⟩
  obtain ⟨front, hsymbol⟩ := hrights
  cases scope with
  | access =>
    refine ⟨first, rest ++ ':' :: (name ++ ':' :: front), _, ?_,
      List.mem_append_left ['d'] hfirst, hlast⟩
    simp [Entry.text, joinFields, hkind, hsymbol]
  | default =>
    refine ⟨'d', Scope.defaultToken.tail ++ ':' :: (kind.name ++ ':' :: (name ++ ':' :: front)),
      _, ?_, by decide, hlast⟩
    simp [Entry.text, joinFields, Scope.defaultToken, hsymbol]

/-- The fields of a written entry. -/
def Entry.parts (e : Entry) : List Text :=
  match e.scope with
  | .access => [e.kind.name, e.name, e.permission.symbol]
  | .default => [Scope.defaultToken, e.kind.name, e.name, e.permission.symbol]

/-- An entry is written as its fields between colons. -/
theorem Entry.text_eq (e : Entry) : e.text = joinFields ':' e.parts := by
  obtain ⟨scope, kind, name, permission⟩ := e
  cases scope <;> rfl

/-- A colon or a comma in a field of a written entry is in its name. -/
theorem Entry.not_mem_parts {e : Entry} {c : Char} (hc : c = ':' ∨ c = ',') (h : c ∉ e.name) :
    ∀ part ∈ e.parts, c ∉ part := by
  have hkind : c ∉ e.kind.name := by
    rcases hc with rfl | rfl
    · exact e.kind.not_mem_name.1
    · exact e.kind.not_mem_name.2
  have hsymbol : c ∉ e.permission.symbol := by
    rcases hc with rfl | rfl
    · exact e.permission.not_mem_symbol.1
    · exact e.permission.not_mem_symbol.2
  have htoken : c ∉ Scope.defaultToken := by
    rcases hc with rfl | rfl <;> decide
  unfold Entry.parts
  cases e.scope <;> simp [hkind, h, hsymbol, htoken]

/-- The written form of an entry reads back as that entry. -/
theorem Entry.read_text {e : Entry} (h : ':' ∉ e.name) : Entry.read e.text = .ok e := by
  have hfields : fields ':' e.text = e.parts := by
    rw [e.text_eq]
    refine fields_joinFields ?_ (Entry.not_mem_parts (Or.inl rfl) h)
    unfold Entry.parts
    cases e.scope <;> simp
  rw [Entry.read, hfields]
  obtain ⟨scope, kind, name, permission⟩ := e
  cases scope <;>
    simp [Entry.parts, Entry.ofFields, Kind.ofName?_name, Permission.ofSymbol?_symbol,
      Except.mapError]

/-- The written form of an entry contains no comma if its name contains none. -/
theorem Entry.comma_not_mem_text {e : Entry} (h : ',' ∉ e.name) : ',' ∉ e.text := by
  rw [e.text_eq]
  intro hmem
  rcases mem_of_mem_joinFields hmem with hcolon | ⟨part, hpart, hin⟩
  · exact absurd hcolon (by decide)
  · exact Entry.not_mem_parts (Or.inr rfl) h part hpart hin

/-- A written entry is not trimmed. -/
theorem Entry.trim_text (e : Entry) : trim e.text = e.text := by
  obtain ⟨first, middle, last, htext, hfirst, hlast⟩ := e.exists_text_eq
  have hletters : ∀ c ∈ ['u', 'g', 'm', 'o', 'd'], isBlank c = false := by
    simp [isBlank, blankRanges]
  have hends : ∀ c ∈ ['x', '-'], isBlank c = false := by
    simp [isBlank, blankRanges]
  rw [htext]
  exact trim_eq_self (hletters first hfirst) (hends last hlast) middle

/-- The name of an entry that was read has no colon, and no character that was not written. -/
theorem Entry.name_of_read {s : Text} {e : Entry} (h : Entry.read s = .ok e) :
    ':' ∉ e.name ∧ ∀ c ∈ e.name, c ∈ s := by
  have hfields : ∀ {scope : Scope} {kind name permission : Text},
      (Entry.ofFields scope kind name permission).mapError (fun fault => SpecError.mk fault s) =
        .ok e → e.name = name := by
    intro scope kind name permission hok
    unfold Entry.ofFields at hok
    cases hkind : Kind.ofName? kind with
    | none => simp [hkind, Except.mapError] at hok
    | some found =>
      cases hpermission : Permission.ofSymbol? permission with
      | none => simp [hkind, hpermission, Except.mapError] at hok
      | some rights =>
        simp only [hkind, hpermission, Except.mapError, Except.ok.injEq] at hok
        rw [← hok]
  have hname : e.name ∈ fields ':' s := by
    unfold Entry.read at h
    split at h
    · rename_i hparts
      rw [hfields h, hparts]
      simp
    · rename_i hparts
      split at h
      · rw [hfields h, hparts]
        simp
      · cases h
    · cases h
  exact ⟨not_mem_of_mem_fields hname, fun c hc => mem_of_mem_field hname hc⟩

/-! ## Specifications -/

/-- A list of actions succeeds if each of them does. -/
theorem mapM_eq_ok_iff {α β ε : Type} {f : α → Except ε β} {inputs : List α}
    {outputs : List β} :
    inputs.mapM f = .ok outputs ↔ List.Forall₂ (fun a b => f a = .ok b) inputs outputs := by
  induction inputs generalizing outputs with
  | nil =>
    rw [List.mapM_nil, List.forall₂_nil_left_iff]
    exact ⟨fun h => (Except.ok.inj h).symm, fun h => h ▸ rfl⟩
  | cons a rest ih =>
    rw [List.mapM_cons, List.forall₂_cons_left_iff]
    cases hfirst : f a with
    | error error => simp [bind, Except.bind]
    | ok b =>
      cases hrest : rest.mapM f with
      | error error =>
        simp only [bind, Except.bind, reduceCtorEq, false_iff]
        rintro ⟨first, others, -, hothers, -⟩
        rw [ih.mpr hothers] at hrest
        cases hrest
      | ok others =>
        simp only [bind, Except.bind, pure, Except.pure, Except.ok.injEq]
        constructor
        · rintro rfl
          exact ⟨b, others, rfl, ih.mp hrest, rfl⟩
        · rintro ⟨first, found, rfl, hfound, rfl⟩
          rw [ih.mpr hfound] at hrest
          rw [Except.ok.inj hrest]

/-- A specification made of written entries has these as its segments. -/
theorem segments_texts {entries : List Entry} (hne : entries ≠ [])
    (hlegible : ∀ e ∈ entries, e.Legible) :
    segments (joinFields ',' (entries.map Entry.text)) = entries.map Entry.text := by
  have hfields : fields ',' (joinFields ',' (entries.map Entry.text)) = entries.map Entry.text := by
    refine fields_joinFields (by simpa using hne) fun field hfield => ?_
    obtain ⟨e, he, rfl⟩ := List.mem_map.mp hfield
    exact Entry.comma_not_mem_text (hlegible e he).2
  have htrim : (entries.map Entry.text).map trim = entries.map Entry.text := by
    rw [List.map_map]
    exact List.map_congr_left fun e _ => e.trim_text
  rw [segments, hfields, htrim, List.filter_eq_self]
  intro text htext
  obtain ⟨e, -, rfl⟩ := List.mem_map.mp htext
  obtain ⟨first, middle, last, htext, -⟩ := e.exists_text_eq
  rw [htext]
  rfl

/-- A specification made of written entries reads back as these entries. -/
theorem readSpec_texts {entries : List Entry} (hne : entries ≠ [])
    (hlegible : ∀ e ∈ entries, e.Legible) :
    readSpec (joinFields ',' (entries.map Entry.text)) = .ok entries := by
  have hread : (entries.map Entry.text).mapM Entry.read = .ok entries := by
    refine mapM_eq_ok_iff.mpr (List.forall₂_map_left_iff.mpr ?_)
    exact List.forall₂_same.mpr fun e he => Entry.read_text (hlegible e he).1
  rw [readSpec, segments_texts hne hlegible]
  cases entries with
  | nil => exact absurd rfl hne
  | cons e rest => exact hread

/-- The entries of a specification that can be read are legible. -/
theorem legible_of_readSpec {spec : Text} {entries : List Entry}
    (h : readSpec spec = .ok entries) : ∀ e ∈ entries, e.Legible := by
  have hread : (segments spec).mapM Entry.read = .ok entries := by
    unfold readSpec at h
    cases hsegments : segments spec with
    | nil => simp [hsegments] at h
    | cons first rest => simpa only [hsegments] using h
  intro e he
  obtain ⟨s, hs, hok⟩ : ∃ s ∈ segments spec, Entry.read s = .ok e := by
    have hall := mapM_eq_ok_iff.mp hread
    obtain ⟨i, hi, rfl⟩ := List.mem_iff_getElem.mp he
    have hlength := hall.length_eq
    exact ⟨_, List.getElem_mem _, hall.get (by omega) hi⟩
  obtain ⟨hcolon, hname⟩ := Entry.name_of_read hok
  refine ⟨hcolon, fun hcomma => ?_⟩
  obtain ⟨field, hfield, rfl⟩ := List.mem_map.mp (List.mem_of_mem_filter hs)
  exact not_mem_of_mem_fields hfield (mem_of_mem_trim (hname _ hcomma))

end PosixAcl
