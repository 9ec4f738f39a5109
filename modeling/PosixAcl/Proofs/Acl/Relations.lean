import PosixAcl.Proofs.Acl.Verdict

/-!
# How changes relate

Replacing a list is merging into an empty one. For a well-formed list, dropping the
default entries and keeping the base entries are removals: it is enough to name the
entries that are to go. A removal that names no mask leaves each mask in its place,
and it changes the value of a mask only where the scope changed.
-/

namespace PosixAcl.Acl

variable {acl table result : Acl} {entries : List Entry} {touched given : Scope → Prop}
  {scope : Scope}

/-- A scope with base entries only has nothing that a mask is for. -/
theorem not_masked_of_isBase (hbase : ∀ e ∈ acl, e.scope = scope → e.isBase = true) :
    ¬ (acl.NamesSubject scope ∨ acl.hasKey (maskKey scope) = true) := by
  rintro (⟨e, he, hscope, -, hname⟩ | hkey)
  · exact hname (isBase_iff.mp (hbase e he hscope)).2.1
  · obtain ⟨e, he, heq⟩ := hasKey_iff.mp hkey
    exact (isBase_iff.mp (hbase e he (congrArg Key.scope heq))).2.2 (congrArg Key.kind heq)

/-! ## Replacing -/

/-- It makes no difference to a candidate whether empty scopes count as touched. -/
theorem Candidate.of_all_touched (h : Candidate table (fun _ => True) given result)
    (hempty : ∀ scope, ¬ touched scope → ∀ e ∈ table, e.scope ≠ scope) :
    Candidate table touched given result := by
  refine ⟨h.ordered, h.get?_eq, fun scope hkept => ?_,
    fun scope hnot _ => h.mask_iff scope hnot (Or.inl trivial),
    fun scope hnot _ => h.mask_isUnion scope hnot (Or.inl trivial)⟩
  by_cases hgiven : given scope
  · exact h.mask_kept scope (Or.inl hgiven)
  · -- An empty scope has no mask, and it gets none.
    have hnone := not_masked_of_isBase fun e he hscope =>
      absurd hscope (hempty scope (hkept.resolve_left hgiven).1 e he)
    have hnew := hnone
    rw [← h.mask_iff scope hgiven (Or.inl trivial), Bool.not_eq_true, hasKey_eq_false_iff] at hnew
    rw [not_or, Bool.not_eq_true, hasKey_eq_false_iff] at hnone
    rw [hnew, hnone.2]

/-- Merging into an empty list does the same as replacing, and fails in the same way. Merging
touches only the scopes that get an entry, but nothing is to be done in the others. -/
theorem merge_nil_eq_replace (entries : List Entry) : merge [] entries = replace entries := by
  have hempty : ∀ scope, ¬ (∃ e ∈ entries, e.scope = scope ∧ get? [] e.key ≠ some e.permission) →
      ∀ e ∈ entries, e.scope ≠ scope := by
    intro scope hnot e he hscope
    refine hnot ⟨e, he, hscope, ?_⟩
    rw [get?_nil]
    exact (Option.some_ne_none _).symm
  have hcandidate : (ofEntries []).merged entries = replaced entries :=
    (candidate_merged [] entries).unique ((candidate_replaced entries).of_all_touched hempty)
  rw [merge_eq, replace_eq, hcandidate]

/-! ## Stripping -/

/-- A well-formed list is its own candidate, if the scopes that were touched have base entries
only. -/
theorem WellFormed.candidate_self (h : acl.WellFormed)
    (hbase : ∀ scope, touched scope → ∀ e ∈ acl, e.scope = scope → e.isBase = true) :
    Candidate acl touched given acl := by
  have hnone : ∀ scope, touched scope ∨ acl.CopiesInto scope →
      ¬ (acl.NamesSubject scope ∨ acl.hasKey (maskKey scope) = true) := by
    rintro scope (htouched | hcopies)
    · exact not_masked_of_isBase (hbase scope htouched)
    · exact absurd h.missingDefaults_eq_nil (copiesInto_iff.mp hcopies).2
  refine ⟨h.ordered, fun key _ => ?_, fun _ _ => rfl, fun scope _ hfresh => ?_,
    fun scope _ hfresh p hp => ?_⟩
  · rw [← h.ordered.get?_filled, h.filled_eq]
  · exact iff_of_false (fun hkey => hnone scope hfresh (Or.inr hkey)) (hnone scope hfresh)
  · have hkey : acl.hasKey (maskKey scope) = true := by
      rw [hasKey_eq_isSome, hp, Option.isSome_some]
    exact absurd (Or.inr hkey) (hnone scope hfresh)

/-- Erasing the keys of a part of an ordered list leaves the other part. -/
theorem Ordered.eraseAll_eq_filter (h : acl.Ordered) {drop : Entry → Bool}
    (hkeys : ∀ key, hasKey entries key = hasKey (acl.filter drop) key) :
    acl.eraseAll entries = acl.filter fun e => !drop e := by
  refine List.filter_congr fun e he => congrArg Bool.not ?_
  have hdropped : hasKey (acl.filter drop) e.key = drop e := by
    rw [Bool.eq_iff_iff, hasKey_iff]
    constructor
    · rintro ⟨f, hf, hkey⟩
      obtain ⟨hmem, hdrop⟩ := List.mem_filter.mp hf
      -- No other entry has this key.
      have hpermission := (h.get?_of_mem hmem).symm.trans (hkey ▸ h.get?_of_mem he)
      rwa [Entry.eq_of_key hkey (Option.some.inj hpermission)] at hdrop
    · exact fun hdrop => ⟨e, List.mem_filter.mpr ⟨he, hdrop⟩, rfl⟩
  exact (hkeys e.key).trans hdropped

/-- A removal does no more than erase, if what is left is well formed and has only base entries in
the scopes that lose something. -/
theorem WellFormed.remove_eq_ok (h : (acl.eraseAll entries).WellFormed)
    (hbase : ∀ scope, acl.loses entries scope = true →
      ∀ e ∈ acl.eraseAll entries, e.scope = scope → e.isBase = true) :
    acl.remove entries = .ok (acl.eraseAll entries) :=
  remove_eq_ok_iff.mpr ⟨h.candidate_self hbase, h.error?_eq_none⟩

/-- Removing the default entries of a well-formed list drops its default scope. -/
theorem WellFormed.remove_defaults (h : acl.WellFormed)
    (hkeys : ∀ key, hasKey entries key = hasKey (acl.filter (·.scope = .default)) key) :
    acl.remove entries = .ok acl.dropDefault := by
  have hleft : acl.eraseAll entries = acl.filter (·.scope = .access) := by
    rw [h.ordered.eraseAll_eq_filter hkeys]
    refine List.filter_congr fun e _ => ?_
    cases e.scope <;> rfl
  have hsorted : acl.dropDefault = acl.filter (·.scope = .access) := (h.ordered.filter _).sort_eq
  have hwell := h.dropDefault
  rw [hsorted, ← hleft] at hwell ⊢
  refine hwell.remove_eq_ok fun scope hloses e he hscope => ?_
  -- Only the default scope loses something, and nothing is left of it.
  obtain ⟨key, rfl, hnamed, -⟩ := loses_iff.mp hloses
  rw [hkeys, hasKey_iff] at hnamed
  obtain ⟨f, hf, rfl⟩ := hnamed
  rw [hleft] at he
  have haccess : e.scope = .access := by simpa using (List.mem_filter.mp he).2
  have hdefault : f.scope = .default := by simpa using (List.mem_filter.mp hf).2
  cases haccess.symm.trans (hscope.trans hdefault)

/-- Removing all but the base entries of a well-formed list leaves the base entries. -/
theorem WellFormed.remove_extended (h : acl.WellFormed)
    (hkeys : ∀ key, hasKey entries key = hasKey (acl.filter fun e => !e.isBase) key) :
    acl.remove entries = .ok acl.keepBase := by
  have hleft : acl.eraseAll entries = acl.filter Entry.isBase := by
    rw [h.ordered.eraseAll_eq_filter hkeys]
    simp only [Bool.not_not]
  have hsorted : acl.keepBase = acl.filter Entry.isBase := (h.ordered.filter _).sort_eq
  have hwell := h.keepBase
  rw [hsorted, ← hleft] at hwell ⊢
  refine hwell.remove_eq_ok fun scope _ e he _ => ?_
  rw [hleft] at he
  exact (List.mem_filter.mp he).2

/-! ## Masks after a removal -/

/-- Erasing entries that are not masks leaves the masks. -/
theorem get?_eraseAll_maskKey (hnames : ∀ e ∈ entries, e.kind ≠ .mask) :
    (acl.eraseAll entries).get? (maskKey scope) = acl.get? (maskKey scope) := by
  rw [get?_eraseAll, if_neg]
  intro hnamed
  obtain ⟨e, he, heq⟩ := hasKey_iff.mp hnamed
  exact hnames e he (congrArg Key.kind heq)

/-- What is left of a list has default entries only if the list has some. -/
theorem hasDefault_of_eraseAll (hdefault : (acl.eraseAll entries).hasDefault = true) :
    acl.hasDefault = true := by
  obtain ⟨e, he, hscope⟩ := hasDefault_iff.mp hdefault
  exact hasDefault_iff.mpr ⟨e, List.mem_of_mem_filter he, hscope⟩

/-- A removal copies nothing into a scope of a well-formed list that loses nothing: the default base
entries were there. -/
theorem WellFormed.loses_of_copiesInto (h : acl.WellFormed)
    (hcopies : (acl.eraseAll entries).CopiesInto scope) : acl.loses entries scope = true := by
  obtain ⟨rfl, hmissing⟩ := copiesInto_iff.mp hcopies
  obtain ⟨e, he⟩ := List.exists_mem_of_ne_nil _ hmissing
  obtain ⟨hdefault, hkind, hkey, hnot, -⟩ := mem_missingDefaults_iff.mp he
  have hthere := h.default_base (hasDefault_of_eraseAll hdefault) e.kind hkind
  rw [hkey, hasKey_eraseAll, hthere, Bool.and_true, Bool.not_eq_false'] at hnot
  exact loses_iff.mpr ⟨⟨.default, e.kind, []⟩, rfl, hnot, hthere⟩

/-- A removal leaves the mask of a scope of a well-formed list that loses nothing. -/
theorem WellFormed.get?_mask_of_not_loses (h : acl.WellFormed)
    (hnames : ∀ e ∈ entries, e.kind ≠ .mask) (hok : acl.remove entries = .ok result)
    (hnot : ¬ acl.loses entries scope = true) :
    result.get? (maskKey scope) = acl.get? (maskKey scope) := by
  obtain ⟨hcandidate, -⟩ := remove_eq_ok_iff.mp hok
  have hkept := hcandidate.mask_kept scope
    (Or.inr ⟨hnot, fun hcopies => hnot (h.loses_of_copiesInto hcopies)⟩)
  rw [hkept, get?_eraseAll_maskKey hnames]

/-- A removal that names no mask neither adds a mask to a well-formed list nor takes one away. -/
theorem WellFormed.hasKey_mask_remove (h : acl.WellFormed)
    (hnames : ∀ e ∈ entries, e.kind ≠ .mask) (hok : acl.remove entries = .ok result) :
    result.hasKey (maskKey scope) = acl.hasKey (maskKey scope) := by
  obtain ⟨hcandidate, -⟩ := remove_eq_ok_iff.mp hok
  by_cases hloses : acl.loses entries scope = true
  · rw [Bool.eq_iff_iff, hcandidate.mask_iff scope id (Or.inl hloses),
      hasKey_congr (get?_eraseAll_maskKey hnames)]
    refine ⟨?_, Or.inr⟩
    rintro (⟨e, he, rfl, hkind, hname⟩ | hkey)
    · -- A named subject that is left had a mask before.
      exact h.masked e (List.mem_of_mem_filter he) (isNamedSubject_iff.mpr ⟨hkind, hname⟩)
    · exact hkey
  · rw [hasKey_congr (h.get?_mask_of_not_loses hnames hok hloses)]

/-- A removal that names no mask leaves the mask of a scope in which it leaves the other entries,
unless it takes away a default base entry, which then comes back as a copy. -/
theorem WellFormed.get?_mask_remove (h : acl.WellFormed)
    (hnames : ∀ e ∈ entries, e.kind ≠ .mask) (hok : acl.remove entries = .ok result)
    (hsame : ∀ key : Key, key.scope = scope → key.kind ≠ .mask →
      result.get? key = acl.get? key)
    (hbase : scope = .default → ∀ kind ∈ Kind.base,
      hasKey entries ⟨.default, kind, []⟩ = false) :
    result.get? (maskKey scope) = acl.get? (maskKey scope) := by
  refine h.get?_mask_of_not_loses hnames hok fun hloses => ?_
  obtain ⟨key, rfl, hnamed, hkey⟩ := loses_iff.mp hloses
  obtain ⟨hcandidate, -⟩ := remove_eq_ok_iff.mp hok
  obtain ⟨e, he, heq⟩ := hasKey_iff.mp hnamed
  have hkind : key.kind ≠ .mask := heq ▸ hnames e he
  have hmask : key ≠ maskKey key.scope := fun hmask => hkind (congrArg Key.kind hmask)
  -- What was lost and is still there has been copied.
  rw [← hasKey_congr (hsame key rfl hkind), hasKey_eq_isSome, hcandidate.get?_eq key hmask,
    get?_eraseAll, if_pos hnamed, Option.none_or, copied?] at hkey
  split at hkey
  · rename_i hcopy
    obtain ⟨scope, kind, name⟩ := key
    obtain ⟨-, rfl, hkind, rfl⟩ := hcopy
    rw [hbase rfl kind hkind] at hnamed
    cases hnamed
  · cases hkey

/-- Where a removal names a default base entry of a well-formed list, the default mask becomes the
union of what it bounds. -/
theorem WellFormed.mask_isUnion_remove (h : acl.WellFormed)
    (hok : acl.remove entries = .ok result) {kind : Kind} (hkind : kind ∈ Kind.base)
    (hnamed : hasKey entries ⟨.default, kind, []⟩ = true) {p : Permission}
    (hp : result.get? (maskKey .default) = some p) : p.IsUnion (result.Bounded .default) := by
  obtain ⟨hcandidate, -⟩ := remove_eq_ok_iff.mp hok
  have hmask : result.hasKey (maskKey .default) = true := by
    rw [hasKey_eq_isSome, hp, Option.isSome_some]
  have hleft := hcandidate.hasDefault_table
    (hasDefault_iff_hasKey.mpr ⟨maskKey .default, rfl, hmask⟩)
  have hthere := h.default_base (hasDefault_of_eraseAll hleft) kind hkind
  have hloses := loses_iff.mpr ⟨⟨.default, kind, []⟩, rfl, hnamed, hthere⟩
  exact hcandidate.mask_isUnion .default id (Or.inl hloses) p hp

end PosixAcl.Acl
