import PosixAcl.Proofs.Acl.Verdict

/-!
# Changing a list twice

A change that is made again to its own result gives the same list. This holds of all
lists, also of those that no store would keep. For a merge all entries are there
already. A removal may take copied default entries and a fresh mask out again, but
then it puts the same copies and the same mask back.
-/

namespace PosixAcl.Acl

variable {acl table result : Acl} {existing entries : List Entry} {touched given : Scope → Prop}

/-! ## Merging -/

/-- After a merge all merged entries are there, masks included. -/
theorem Ordered.get?_merged_of_mem (h : acl.Ordered) (hnodup : (entries.map Entry.key).Nodup)
    {e : Entry} (he : e ∈ entries) : (acl.merged entries).get? e.key = some e.permission := by
  have hput : (acl.insertAll entries).get? e.key = some e.permission := by
    rw [h.get?_insertAll, Acl.get?_of_mem hnodup he]
    rfl
  have hkey : (acl.insertAll entries).hasKey e.key = true := by
    rw [hasKey_eq_isSome, hput]
    rfl
  rw [Acl.merged]
  by_cases hmask : e.key = maskKey e.scope
  · -- A mask that is given is not taken afresh.
    have hgiven : givesMask entries e.scope = true := by
      refine List.any_eq_true.mpr ⟨e, he, ?_⟩
      have hkind : e.kind = .mask := congrArg Key.kind hmask
      simp [hkind]
    rw [hmask, (h.insertAll entries).get?_completed_maskKey, if_neg (by simp [isStale, hgiven]),
      ← hmask, hput]
  · rw [(h.insertAll entries).get?_completed_of_ne _ _ hmask,
      (h.insertAll entries).get?_filled_of_hasKey hkey, hput]

/-- Merging the same entries again gives the same list. -/
theorem merge_merge (hok : merge existing entries = .ok result) :
    merge result entries = .ok result := by
  obtain ⟨hnodup, rfl, herror⟩ := merge_eq_ok_iff.mp hok
  have htable := ordered_ofEntries existing
  have hagain := (htable.merged entries).merged_eq herror
    fun e he => htable.get?_merged_of_mem hnodup he
  exact (htable.merged entries).merge_eq_ok_iff.mpr ⟨hnodup, hagain, herror⟩

/-! ## Removing -/

/-- A candidate has all keys of its table. -/
theorem Candidate.hasKey_of_table (h : Candidate table touched given result) {key : Key}
    (hkey : table.hasKey key = true) : result.hasKey key = true := by
  by_cases hmask : key = maskKey key.scope
  · generalize key.scope = scope at hmask
    subst hmask
    rcases h.mask_cases scope with hkept | hfresh
    · rwa [hasKey_congr hkept]
    · exact hfresh.mpr (Or.inr hkey)
  · rw [hasKey_eq_isSome] at hkey
    rw [hasKey_eq_isSome, h.get?_eq key hmask, Option.isSome_or, hkey, Bool.true_or]

/-- Keys that were removed are not left. -/
theorem hasKey_eraseAll_of_hasKey {key : Key} (hnamed : hasKey entries key = true) :
    (acl.eraseAll entries).hasKey key = false := by
  rw [hasKey_eraseAll, hnamed]
  rfl

/-- What was left when entries were removed is also left when they are removed again. -/
theorem Candidate.hasKey_again (h : Candidate (acl.eraseAll entries) touched given result)
    {key : Key} (hkey : (acl.eraseAll entries).hasKey key = true) :
    (result.eraseAll entries).hasKey key = true := by
  have hthere := h.hasKey_of_table hkey
  rw [hasKey_eraseAll, Bool.and_eq_true] at hkey
  rw [hasKey_eraseAll, hkey.1, hthere]
  rfl

/-- A second removal copies what the first one copied, if no access base entry is removed. -/
theorem Candidate.copied?_again (h : Candidate (acl.eraseAll entries) touched given result)
    (hbase : ∀ kind ∈ Kind.base, hasKey entries ⟨.access, kind, []⟩ = false) (key : Key) :
    (result.eraseAll entries).copied? key = (acl.eraseAll entries).copied? key := by
  have hdefault : (result.eraseAll entries).hasDefault = (acl.eraseAll entries).hasDefault := by
    rw [Bool.eq_iff_iff]
    constructor
    · intro hany
      obtain ⟨other, hscope, hkey⟩ := hasDefault_iff_hasKey.mp hany
      rw [hasKey_eraseAll, Bool.and_eq_true] at hkey
      exact h.hasDefault_table (hasDefault_iff_hasKey.mpr ⟨other, hscope, hkey.2⟩)
    · intro hany
      obtain ⟨other, hscope, hkey⟩ := hasDefault_iff_hasKey.mp hany
      exact hasDefault_iff_hasKey.mpr ⟨other, hscope, h.hasKey_again hkey⟩
  refine copied?_congr hdefault (fun kind hkind => ?_) key
  rw [get?_eraseAll, if_neg (by simp [hbase kind hkind]), h.get?_access_base hkind]

/-- What a second removal takes afresh was taken afresh by the first one: keys that can be removed
again have been copied, or are those of a fresh mask. -/
theorem Candidate.fresh_of_again (h : Candidate (acl.eraseAll entries) touched given result)
    (hbase : ∀ kind ∈ Kind.base, hasKey entries ⟨.access, kind, []⟩ = false) {scope : Scope}
    (hagain : result.loses entries scope = true ∨ (result.eraseAll entries).CopiesInto scope) :
    touched scope ∨ (acl.eraseAll entries).CopiesInto scope := by
  rcases hagain with hloses | ⟨key, hscope, hnot, hcopied⟩
  · obtain ⟨key, rfl, hnamed, hkey⟩ := loses_iff.mp hloses
    have hleft : (acl.eraseAll entries).hasKey key = false := hasKey_eraseAll_of_hasKey hnamed
    by_contra hkept
    rw [not_or] at hkept
    by_cases hmask : key = maskKey key.scope
    · rw [hmask, hasKey_congr (h.mask_kept _ (Or.inr hkept)), ← hmask, hleft] at hkey
      cases hkey
    · refine hkept.2 ⟨key, rfl, hleft, fun hcopied => ?_⟩
      rw [hasKey_eq_isSome, h.get?_eq key hmask, hasKey_eq_false_iff.mp hleft, hcopied] at hkey
      cases hkey
  · rw [h.copied?_again hbase] at hcopied
    refine Or.inr ⟨key, hscope, ?_, hcopied⟩
    by_contra hkey
    rw [h.hasKey_again (by simpa using hkey)] at hnot
    cases hnot

/-- A second removal finds the same named subjects as the first one. -/
theorem Candidate.namesSubject_again (h : Candidate (acl.eraseAll entries) touched given result)
    {scope : Scope} :
    (result.eraseAll entries).NamesSubject scope ↔ (acl.eraseAll entries).NamesSubject scope := by
  refine namesSubject_congr fun key hname =>
    Bool.eq_iff_iff.mpr ⟨fun hkey => ?_, h.hasKey_again⟩
  rw [hasKey_eraseAll, Bool.and_eq_true, hasKey_congr (h.get?_of_name hname)] at hkey
  exact hkey.2

/-- The candidate of a removal is also the candidate of removing the same entries from it, if no
access base entry is removed. -/
theorem Candidate.again (h : Candidate (acl.eraseAll entries) touched (fun _ => False) result)
    (hbase : ∀ kind ∈ Kind.base, hasKey entries ⟨.access, kind, []⟩ = false) :
    Candidate (result.eraseAll entries) (result.loses entries · = true) (fun _ => False) result := by
  refine ⟨h.ordered, fun key hmask => ?_, fun scope hkept => ?_, fun scope _ hagain => ?_,
    fun scope _ hagain => h.mask_isUnion scope id (h.fresh_of_again hbase hagain)⟩
  · have hget := h.get?_eq key hmask
    rw [h.copied?_again hbase, get?_eraseAll]
    by_cases hnamed : hasKey entries key = true
    · rw [if_pos hnamed, hget, hasKey_eq_false_iff.mp (hasKey_eraseAll_of_hasKey hnamed)]
    · rw [if_neg hnamed, hget, Option.or_assoc, Option.or_self]
  · rw [get?_eraseAll]
    by_cases hnamed : hasKey entries (maskKey scope) = true
    · -- A mask that is named and still there would be removed again.
      have hnot : result.hasKey (maskKey scope) = false := by
        rw [Bool.eq_false_iff]
        exact fun hkey =>
          (hkept.resolve_left id).1 (loses_iff.mpr ⟨maskKey scope, rfl, hnamed, hkey⟩)
      rw [if_pos hnamed, hasKey_eq_false_iff.mp hnot]
    · rw [if_neg hnamed]
  · have hmask := h.mask_iff scope id (h.fresh_of_again hbase hagain)
    rw [h.namesSubject_again]
    constructor
    · intro hkey
      exact (hmask.mp hkey).imp_right h.hasKey_again
    · rintro (hnames | hkey)
      · exact hmask.mpr (Or.inl hnames)
      · rw [hasKey_eraseAll, Bool.and_eq_true] at hkey
        exact hkey.2

/-- Removing the same entries again gives the same list. -/
theorem remove_remove (hok : remove existing entries = .ok result) :
    remove result entries = .ok result := by
  obtain ⟨hcandidate, herror⟩ := remove_eq_ok_iff.mp hok
  obtain ⟨-, hbase, -⟩ := scope_of_error?_eq_none herror
  refine remove_eq_ok_iff.mpr ⟨hcandidate.again fun kind hkind => ?_, herror⟩
  -- The access base entries are in the result, so they were left.
  have hthere := hasBase_iff.mp hbase kind hkind
  rw [hasKey_congr (hcandidate.get?_access_base hkind), hasKey_eraseAll, Bool.and_eq_true,
    Bool.not_eq_true'] at hthere
  exact hthere.1

/-! ## Keeping a part -/

/-- Sorting what is kept of a list that was made so changes nothing. -/
theorem sort_filter_sort (acl : Acl) (keep : Entry → Bool) :
    sort ((sort (acl.filter keep)).filter keep) = sort (acl.filter keep) := by
  have hkept : (sort (acl.filter keep)).filter keep = sort (acl.filter keep) := by
    refine List.filter_eq_self.mpr fun e he => ?_
    exact (List.mem_filter.mp (mem_sort_iff.mp he)).2
  rw [hkept, sort_sort]

/-! ## All changes -/

/-- A change that succeeds makes nothing else of its own result. -/
theorem apply_apply {change : Change} (hok : change.apply existing = .ok result) :
    change.apply result = .ok result := by
  cases change with
  | keepBase =>
    obtain rfl : keepBase existing = result := Except.ok.inj hok
    exact congrArg Except.ok (sort_filter_sort existing _)
  | dropDefault =>
    obtain rfl : dropDefault existing = result := Except.ok.inj hok
    exact congrArg Except.ok (sort_filter_sort existing _)
  | merge entries => exact merge_merge hok
  | remove entries => exact remove_remove hok
  | replace entries => exact hok

/-- Each of the five changes is idempotent on all lists, valid or not: when it succeeds, it makes
nothing else of its own result. Replacing reads its entries only, so there it is the result that
takes their place. -/
theorem changes_idempotent (existing entries : List Entry) :
    keepBase (keepBase existing) = keepBase existing ∧
    dropDefault (dropDefault existing) = dropDefault existing ∧
    (∀ result, merge existing entries = .ok result → merge result entries = .ok result) ∧
    (∀ result, remove existing entries = .ok result → remove result entries = .ok result) ∧
    ∀ result, replace entries = .ok result → replace result = .ok result :=
  ⟨sort_filter_sort existing _, sort_filter_sort existing _, fun _ => merge_merge,
    fun _ => remove_remove, fun _ hok => (WellFormed.of_replace hok).replace_eq⟩

/-- A list that no store would keep: it repeats a key, names a user without a mask, and lacks base
entries in its default scope. Removing the default entry of the owner and the default mask adds
both, and so it does again. The list can also be merged into itself without the repeated entry, and
replaced by that. -/
theorem changes_idempotent_invalid_list :
    let owner : Entry := ⟨.access, .user, [], ⟨true, true, true⟩⟩
    let rest : List Entry :=
      [⟨.access, .user, [], ⟨true, true, false⟩⟩, ⟨.access, .user, ['b'], ⟨true, true, true⟩⟩,
        ⟨.access, .group, [], ⟨true, false, true⟩⟩, ⟨.access, .other, [], ⟨true, false, false⟩⟩]
    let named : Entry := ⟨.default, .user, ['c'], ⟨true, true, false⟩⟩
    let existing : List Entry := owner :: rest ++ [named]
    let entries : List Entry := [⟨.default, .user, [], .empty⟩, ⟨.default, .mask, [], .empty⟩]
    let defaults : List Entry :=
      [⟨.default, .user, [], ⟨true, true, false⟩⟩, named,
        ⟨.default, .group, [], ⟨true, false, true⟩⟩, ⟨.default, .mask, [], ⟨true, true, true⟩⟩,
        ⟨.default, .other, [], ⟨true, false, false⟩⟩]
    let masked : List Entry :=
      rest.take 3 ++ ⟨.access, .mask, [], ⟨true, true, true⟩⟩ :: rest.drop 3 ++ defaults
    remove existing entries = .ok (rest ++ defaults) ∧
      remove (rest ++ defaults) entries = .ok (rest ++ defaults) ∧
      merge existing (rest ++ [named]) = .ok (rest ++ defaults) ∧
      merge (rest ++ defaults) (rest ++ [named]) = .ok (rest ++ defaults) ∧
      replace (rest ++ [named]) = .ok masked ∧ replace masked = .ok masked := by
  intro owner rest named existing entries defaults masked
  have hremove : remove existing entries = .ok (rest ++ defaults) := by decide +kernel
  have hmerge : merge existing (rest ++ [named]) = .ok (rest ++ defaults) := by decide +kernel
  have hreplace : replace (rest ++ [named]) = .ok masked := by decide +kernel
  obtain ⟨-, -, -, hremoved, -⟩ := changes_idempotent existing entries
  obtain ⟨-, -, hmerged, -, hreplaced⟩ := changes_idempotent existing (rest ++ [named])
  exact ⟨hremove, hremoved _ hremove, hmerge, hmerged _ hmerge, hreplace, hreplaced _ hreplace⟩

end PosixAcl.Acl
