import PosixAcl.Proofs.Acl.Verdict

/-!
# Effects

What merging and removing leave behind when they succeed, key by key. Apart from the
masks it is the existing list, overridden by the entries or without their keys, and
completed by missing default entries. The mask of a scope is kept where nothing
happened in the scope, and otherwise it is taken from the result itself.
-/

namespace PosixAcl.Acl

variable {table result : Acl} {existing entries : List Entry} {touched given : Scope → Prop}

/-! ## Accepted candidates -/

/-- The only list that is accepted is the candidate. It has no misnamed entry, and the access base
entries were in the table. -/
theorem Settles.accepted (h : Settles table touched given (.ok result)) :
    Candidate table touched given result ∧ (∀ e ∈ result, ¬ Misnamed e) ∧
      ∀ kind ∈ Kind.base, table.hasKey ⟨.access, kind, []⟩ = true := by
  obtain ⟨candidate, hcandidate, -, hverdict⟩ := h
  cases (hverdict _).mp rfl with
  | accepted hnames _ hbase _ =>
    refine ⟨hcandidate, hnames, fun kind hkind => ?_⟩
    rw [← hasKey_congr (hcandidate.get?_access_base hkind)]
    exact hbase kind hkind

/-- A candidate takes over what is not a mask. -/
theorem Candidate.get?_of_kind (h : Candidate table touched given result) {key : Key}
    (hkind : key.kind ≠ .mask) :
    result.get? key = (table.get? key).or (table.copied? key) :=
  h.get?_eq key fun heq => hkind (congrArg Key.kind heq)

/-- The masks of a list without misnamed entries have no name. -/
theorem name_of_mask (hnames : ∀ e ∈ result, ¬ Misnamed e) :
    ∀ e ∈ result, e.kind = .mask → e.name = [] := by
  intro e he hmask
  by_contra hname
  exact hnames e he ⟨Or.inl hmask, hname⟩

/-! ## Merging -/

/-- Entries that were merged had different keys. -/
theorem nodup_of_merge_eq_ok (hok : merge existing entries = .ok result) :
    (entries.map Entry.key).Nodup := by
  by_contra hrepeated
  obtain ⟨e, he⟩ := exists_firstRepeated_iff.mpr hrepeated
  rw [merge_eq_duplicate_iff.mpr he] at hok
  cases hok

/-- A mask that was given has no name, and it is the mask afterwards. -/
theorem Candidate.get?_given_mask
    (h : Candidate (existing ++ entries) touched
      (fun scope => ∃ e ∈ entries, e.scope = scope ∧ e.kind = .mask) result)
    (hnodup : (entries.map Entry.key).Nodup) (hnames : ∀ e ∈ result, ¬ Misnamed e)
    {e : Entry} (he : e ∈ entries) (hmask : e.kind = .mask) :
    result.get? (maskKey e.scope) = some e.permission := by
  have hput : get? (existing ++ entries) e.key = some e.permission := by
    rw [get?_append, get?_of_mem hnodup he, Option.some_or]
  have hname : e.name = [] := by
    by_contra hname
    have hkey : e.key ≠ maskKey e.key.scope := fun heq => hname (congrArg Key.name heq)
    have hin : result.get? e.key = some e.permission := by
      rw [h.get?_eq e.key hkey, hput, Option.some_or]
    exact hnames e (h.ordered.mem_iff.mpr hin) ⟨Or.inl hmask, hname⟩
  have hkey : e.key = maskKey e.scope := by rw [Entry.key, maskKey, hmask, hname]
  rw [h.mask_kept e.scope (Or.inl ⟨e, he, rfl, hmask⟩), ← hkey, hput]

/-- What merging makes of two lists when it succeeds. Apart from masks the result is the existing
list overridden by the entries, with the missing default entries copied. A mask that was given is
the mask afterwards. In any other scope the mask is that of before if no entry is new in it or has
another permission and nothing was copied into it, and otherwise there is one if the scope names a
subject or had a mask, and it is the union of what it bounds. -/
theorem merge_effect (hok : merge existing entries = .ok result) :
    let table := existing ++ entries
    result.Ordered ∧
    (∀ key, get? table key = (get? entries key).or (get? existing key)) ∧
    (∀ kind ∈ Kind.base, hasKey table ⟨.access, kind, []⟩ = true) ∧
    (∀ key : Key, key.kind ≠ .mask →
      result.get? key = (get? table key).or (copied? table key)) ∧
    (∀ e ∈ result, e.kind = .mask → e.name = []) ∧
    (∀ e ∈ entries, e.kind = .mask → result.get? (maskKey e.scope) = some e.permission) ∧
    ∀ scope, (∀ e ∈ entries, e.scope = scope → e.kind ≠ .mask) →
      let unchanged := (∀ e ∈ entries, e.scope = scope →
        get? existing e.key = some e.permission) ∧ ¬ CopiesInto table scope
      (unchanged → result.get? (maskKey scope) = get? existing (maskKey scope)) ∧
      (¬ unchanged →
        (result.hasKey (maskKey scope) = true ↔
          NamesSubject table scope ∨ hasKey existing (maskKey scope) = true) ∧
        ∀ p, result.get? (maskKey scope) = some p → p.IsUnion (result.Bounded scope)) := by
  intro table
  have hnodup := nodup_of_merge_eq_ok hok
  have hsettles := settles_merge existing hnodup
  rw [hok] at hsettles
  obtain ⟨hcandidate, hnames, hbase⟩ := hsettles.accepted
  refine ⟨hcandidate.ordered, get?_append existing entries, hbase,
    fun key => hcandidate.get?_of_kind, name_of_mask hnames,
    fun e he => hcandidate.get?_given_mask hnodup hnames he, fun scope hnone => ?_⟩
  have hgiven : ¬ ∃ e ∈ entries, e.scope = scope ∧ e.kind = .mask := by
    rintro ⟨e, he, hscope, hmask⟩
    exact hnone e he hscope hmask
  have hold : get? table (maskKey scope) = get? existing (maskKey scope) :=
    get?_append_maskKey hnone
  refine ⟨fun ⟨hsame, hcopies⟩ => ?_, fun hchanged => ?_⟩
  · rw [← hold]
    refine hcandidate.mask_kept scope (Or.inr ⟨?_, hcopies⟩)
    rintro ⟨e, he, hscope, hother⟩
    exact hother (hsame e he hscope)
  · have hfresh : (∃ e ∈ entries, e.scope = scope ∧ get? existing e.key ≠ some e.permission) ∨
        CopiesInto table scope := by
      by_contra hnot
      push Not at hnot
      exact hchanged hnot
    refine ⟨?_, hcandidate.mask_isUnion scope hgiven hfresh⟩
    rw [hcandidate.mask_iff scope hgiven hfresh, hasKey_congr hold]

/-- A default entry for a user is merged in beside a narrow access mask. The access scope keeps its
mask. The default scope gets copies of the base entries, and a mask that covers its user and its
group. -/
theorem merge_effect_narrow_mask :
    let existing : List Entry :=
      [⟨.access, .user, [], ⟨true, true, true⟩⟩, ⟨.access, .user, ['b'], ⟨true, true, true⟩⟩,
        ⟨.access, .group, [], ⟨true, false, true⟩⟩, ⟨.access, .mask, [], ⟨true, false, false⟩⟩,
        ⟨.access, .other, [], ⟨true, false, false⟩⟩]
    let entries : List Entry := [⟨.default, .user, ['c'], ⟨true, true, false⟩⟩]
    let result : List Entry := existing ++
      [⟨.default, .user, [], ⟨true, true, true⟩⟩, ⟨.default, .user, ['c'], ⟨true, true, false⟩⟩,
        ⟨.default, .group, [], ⟨true, false, true⟩⟩, ⟨.default, .mask, [], ⟨true, true, true⟩⟩,
        ⟨.default, .other, [], ⟨true, false, false⟩⟩]
    merge existing entries = .ok result ∧
      get? result (maskKey .access) = get? existing (maskKey .access) ∧
      Permission.IsUnion ⟨true, true, true⟩ (Bounded result .default) := by
  intro existing entries result
  have hok : merge existing entries = .ok result := by decide +kernel
  obtain ⟨-, -, -, -, -, -, hmasks⟩ := merge_effect hok
  have hcopies : ∀ scope, CopiesInto (existing ++ entries) scope ↔ scope = .default :=
    fun scope => copiesInto_iff.trans (and_iff_left (by decide))
  have haccess := (hmasks .access (by decide)).1
  have hdefault := (hmasks .default (by decide)).2
  refine ⟨hok, haccess ⟨by decide, by simp [hcopies]⟩, ?_⟩
  refine (hdefault fun hunchanged => ?_).2 _ (by decide)
  exact hunchanged.2 ((hcopies .default).mpr rfl)

/-! ## Removing -/

/-- What removing some keys makes of a list when it succeeds. Apart from masks the result is what is
left of the list, with the missing default entries copied, whether or not they were to be removed.
No default entry remains if all of them were named, and no access base entry was named. The mask of
a scope is that of before if the scope lost nothing and nothing was copied into it. Otherwise there
is one if what is left names a subject or has a mask, and it is the union of what it bounds. -/
theorem remove_effect (hok : remove existing entries = .ok result) :
    let left := existing.filter fun e => !hasKey entries e.key
    result.Ordered ∧
    (∀ key, get? left key = if hasKey entries key then none else get? existing key) ∧
    (∀ kind ∈ Kind.base, hasKey left ⟨.access, kind, []⟩ = true ∧
      hasKey entries ⟨.access, kind, []⟩ = false) ∧
    (∀ key : Key, key.kind ≠ .mask →
      result.get? key = (get? left key).or (copied? left key)) ∧
    ((∀ e ∈ existing, e.scope = .default → hasKey entries e.key = true) →
      result.hasDefault = false) ∧
    (∀ e ∈ result, e.kind = .mask → e.name = []) ∧
    ∀ scope,
      let unchanged := (∀ key : Key, key.scope = scope → hasKey entries key = true →
        hasKey existing key = false) ∧ ¬ CopiesInto left scope
      (unchanged → result.get? (maskKey scope) = get? existing (maskKey scope)) ∧
      (¬ unchanged →
        (result.hasKey (maskKey scope) = true ↔
          NamesSubject left scope ∨ hasKey left (maskKey scope) = true) ∧
        ∀ p, result.get? (maskKey scope) = some p → p.IsUnion (result.Bounded scope)) := by
  intro left
  have hsettles := settles_remove existing entries
  rw [hok] at hsettles
  obtain ⟨hcandidate, hnames, hbase⟩ := hsettles.accepted
  have hget : ∀ key, get? left key = if hasKey entries key then none else get? existing key :=
    get?_eraseAll existing entries
  refine ⟨hcandidate.ordered, hget, fun kind hkind => ?_,
    fun key => hcandidate.get?_of_kind, fun hall => ?_, name_of_mask hnames, fun scope => ?_⟩
  · have hleft := hbase kind hkind
    refine ⟨hleft, ?_⟩
    rw [hasKey_eraseAll, Bool.and_eq_true, Bool.not_eq_true'] at hleft
    exact hleft.1
  · rw [← Bool.not_eq_true]
    intro hdefault
    obtain ⟨key, hscope, hleft⟩ :=
      hasDefault_iff_hasKey.mp (hcandidate.hasDefault_table hdefault)
    rw [hasKey_eraseAll, Bool.and_eq_true, Bool.not_eq_true'] at hleft
    obtain ⟨e, he, rfl⟩ := hasKey_iff.mp hleft.2
    rw [hall e he hscope] at hleft
    cases hleft.1
  refine ⟨fun ⟨hlost, hcopies⟩ => ?_, fun hchanged => ?_⟩
  · have hkept : result.get? (maskKey scope) = get? left (maskKey scope) := by
      refine hcandidate.mask_kept scope (Or.inr ⟨?_, hcopies⟩)
      rintro ⟨key, hscope, hnamed, hin⟩
      rw [hlost key hscope hnamed] at hin
      cases hin
    rw [hkept, hget]
    split
    · rename_i hnamed
      have hlacks := hlost (maskKey scope) rfl hnamed
      rw [hasKey_eq_isSome, Option.isSome_eq_false_iff, Option.isNone_iff_eq_none] at hlacks
      exact hlacks.symm
    · rfl
  · have hfresh : (∃ key : Key, key.scope = scope ∧ hasKey entries key = true ∧
        hasKey existing key = true) ∨ CopiesInto left scope := by
      by_contra hnot
      push Not at hnot
      refine hchanged ⟨fun key hscope hnamed => ?_, hnot.2⟩
      exact Bool.eq_false_iff.mpr (hnot.1 key hscope hnamed)
    exact ⟨hcandidate.mask_iff scope id hfresh, hcandidate.mask_isUnion scope id hfresh⟩

/-- The narrow access mask and the default entry of the owner are to be removed. The access scope
still has a named user, so it gets a mask again, and the default entry comes back as a copy of the
access entry. -/
theorem remove_effect_mask_and_default :
    let base : List Entry :=
      [⟨.access, .user, [], ⟨true, true, true⟩⟩, ⟨.access, .user, ['b'], ⟨true, true, true⟩⟩,
        ⟨.access, .group, [], ⟨true, false, true⟩⟩]
    let rest : List Entry :=
      [⟨.default, .group, [], ⟨true, false, true⟩⟩, ⟨.default, .other, [], ⟨true, false, false⟩⟩]
    let existing : List Entry := base ++
      [⟨.access, .mask, [], ⟨true, false, false⟩⟩, ⟨.access, .other, [], ⟨true, false, false⟩⟩,
        ⟨.default, .user, [], .empty⟩] ++ rest
    let entries : List Entry := [⟨.access, .mask, [], .empty⟩, ⟨.default, .user, [], .empty⟩]
    let result : List Entry := base ++
      [⟨.access, .mask, [], ⟨true, true, true⟩⟩, ⟨.access, .other, [], ⟨true, false, false⟩⟩,
        ⟨.default, .user, [], ⟨true, true, true⟩⟩] ++ rest
    remove existing entries = .ok result ∧
      Permission.IsUnion ⟨true, true, true⟩ (Bounded result .access) ∧
      get? result ⟨.default, .user, []⟩ =
        copied? (existing.filter fun e => !hasKey entries e.key) ⟨.default, .user, []⟩ := by
  intro base rest existing entries result
  have hok : remove existing entries = .ok result := by decide +kernel
  obtain ⟨-, -, -, hkeys, -, -, hmasks⟩ := remove_effect hok
  have hremoved : hasKey entries (maskKey .access) = true ∧
      hasKey existing (maskKey .access) = true := by decide
  refine ⟨hok, ?_, ?_⟩
  · refine ((hmasks .access).2 fun hunchanged => ?_).2 _ (by decide)
    rw [hunchanged.1 _ rfl hremoved.1] at hremoved
    cases hremoved.2
  · rw [hkeys _ (by decide)]
    decide

end PosixAcl.Acl
