import PosixAcl.Proofs.Acl.Completion

/-!
# Well-formed access control lists

A list that a store may keep is in strict order, has its base entries, is not too
large, and has a mask wherever it names a user or a group. The checks of a change
say nothing about masks. That every change keeps a mask where one is needed
follows from the way in which stale masks are taken afresh.
-/

namespace PosixAcl

/-- The entries that a change puts in. -/
def Change.entries : Change → List Entry
  | .merge entries | .replace entries => entries
  | .keepBase | .dropDefault | .remove _ => []

namespace Acl

/-- What holds of every list that a store keeps. -/
structure WellFormed (acl : Acl) : Prop where
  /-- The keys ascend strictly. -/
  ordered : acl.Ordered
  /-- Masks and entries for the others have no name. -/
  unnamed : ∀ e ∈ acl, e.kind = .mask ∨ e.kind = .other → e.name = []
  /-- No scope is too large. -/
  count_le : ∀ scope, acl.count scope ≤ maxEntries
  /-- The access scope has its unnamed base entries. -/
  access_base : ∀ kind ∈ Kind.base, acl.hasKey ⟨.access, kind, []⟩ = true
  /-- The default scope has its unnamed base entries, if it has any entry. -/
  default_base : acl.hasDefault = true →
    ∀ kind ∈ Kind.base, acl.hasKey ⟨.default, kind, []⟩ = true
  /-- A scope with a named user or group has a mask. -/
  masked : ∀ e ∈ acl, isNamedSubject e = true → acl.hasKey (maskKey e.scope) = true

variable {acl : Acl}

/-! ## The checks of a change -/

/-- A scope has its base entries if it has the three keys. -/
theorem hasBase_iff {scope : Scope} :
    acl.hasBase scope = true ↔ ∀ kind ∈ Kind.base, acl.hasKey ⟨scope, kind, []⟩ = true := by
  simp [hasBase]

/-- A list has a default entry exactly if the default scope has one. -/
theorem hasDefault_iff : acl.hasDefault = true ↔ ∃ e ∈ acl, e.scope = .default := by
  simp [hasDefault, hasScope]

/-- A list has a default entry exactly if it has a key in the default scope. -/
theorem hasDefault_iff_hasKey :
    acl.hasDefault = true ↔ ∃ key : Key, key.scope = .default ∧ acl.hasKey key = true := by
  rw [hasDefault_iff]
  constructor
  · rintro ⟨e, he, hscope⟩
    exact ⟨e.key, hscope, hasKey_iff.mpr ⟨e, he, rfl⟩⟩
  · rintro ⟨key, hscope, hkey⟩
    obtain ⟨e, he, rfl⟩ := hasKey_iff.mp hkey
    exact ⟨e, he, hscope⟩

/-- The default scope is empty exactly if the list has no default entry. -/
theorem count_default_eq_zero_iff : acl.count .default = 0 ↔ acl.hasDefault = false := by
  simp [count, hasDefault, hasScope]

/-- A list without an error has its base entries in the access scope, and in the default scope if
it has any entry there, and is not too large in either of them. -/
theorem scope_of_error?_eq_none (herror : acl.error? = none) :
    (∀ scope, acl.count scope ≤ maxEntries) ∧ acl.hasBase .access = true ∧
      (acl.hasDefault = true → acl.hasBase .default = true) := by
  have hscopes := (error?_eq_none_iff.mp herror).2
  refine ⟨fun scope => ?_, ?_, fun hdefault => ?_⟩
  · rcases scopeError?_eq_none_iff.mp (hscopes scope) with ⟨-, hzero⟩ | ⟨hcount, -⟩
    · omega
    · exact hcount
  · rcases scopeError?_eq_none_iff.mp (hscopes .access) with ⟨haccess, -⟩ | ⟨-, hbase⟩
    · cases haccess
    · exact hbase
  · rcases scopeError?_eq_none_iff.mp (hscopes .default) with ⟨-, hzero⟩ | ⟨-, hbase⟩
    · rw [count_default_eq_zero_iff, hdefault] at hzero
      cases hzero
    · exact hbase

/-- A list without an error lacks no default entry. -/
theorem missingDefaults_eq_nil_of_error? (herror : acl.error? = none) :
    acl.missingDefaults = [] := by
  obtain ⟨-, -, hbase⟩ := scope_of_error?_eq_none herror
  rw [List.eq_nil_iff_forall_not_mem]
  intro e he
  obtain ⟨hdefault, hkind, hkey, hhas, -⟩ := mem_missingDefaults_iff.mp he
  rw [hkey, hasBase_iff.mp (hbase hdefault) e.kind hkind] at hhas
  cases hhas

/-- An ordered list without an error is well formed if it has its masks. -/
theorem Ordered.wellFormed (h : acl.Ordered) (herror : acl.error? = none)
    (hmasked : ∀ e ∈ acl, isNamedSubject e = true → acl.hasKey (maskKey e.scope) = true) :
    acl.WellFormed := by
  obtain ⟨hcount, haccess, hdefault⟩ := scope_of_error?_eq_none herror
  refine ⟨h, fun e he hkind => ?_, hcount, hasBase_iff.mp haccess,
    fun hany => hasBase_iff.mp (hdefault hany), hmasked⟩
  by_contra hname
  have hmisnamed := (error?_eq_none_iff.mp herror).1 e he
  rw [isMisnamed_iff.mpr ⟨hkind, hname⟩] at hmisnamed
  cases hmisnamed

/-- A well-formed list has no error. -/
theorem WellFormed.error?_eq_none (h : acl.WellFormed) : acl.error? = none := by
  refine error?_eq_none_iff.mpr ⟨fun e he => ?_, fun scope => ?_⟩
  · rw [Bool.eq_false_iff]
    intro hmisnamed
    obtain ⟨hkind, hname⟩ := isMisnamed_iff.mp hmisnamed
    exact hname (h.unnamed e he hkind)
  · rw [scopeError?_eq_none_iff]
    cases scope with
    | access => exact Or.inr ⟨h.count_le _, hasBase_iff.mpr h.access_base⟩
    | default =>
      cases hany : acl.hasDefault with
      | false => exact Or.inl ⟨rfl, count_default_eq_zero_iff.mpr hany⟩
      | true => exact Or.inr ⟨h.count_le _, hasBase_iff.mpr (h.default_base hany)⟩

/-- A well-formed list lacks no default entry. -/
theorem WellFormed.missingDefaults_eq_nil (h : acl.WellFormed) : acl.missingDefaults = [] :=
  missingDefaults_eq_nil_of_error? h.error?_eq_none

/-- A well-formed list is already filled. -/
theorem WellFormed.filled_eq (h : acl.WellFormed) : acl.filled = acl :=
  filled_of_missingDefaults h.missingDefaults_eq_nil

/-- A well-formed list has a mask wherever it uses one. -/
theorem WellFormed.hasKey_mask_of_usesMask (h : acl.WellFormed) {scope : Scope}
    (huses : acl.usesMask scope = true) : acl.hasKey (maskKey scope) = true := by
  rcases usesMask_iff.mp huses with ⟨e, he, hscope, hnamed⟩ | hmask
  · exact hscope ▸ h.masked e he hnamed
  · exact hmask

/-! ## Completions -/

/-- What a completion adds has no name, so a named entry comes from the list that is completed. -/
theorem Ordered.mem_of_mem_completed (h : acl.Ordered) {changed given : Scope → Bool} {e : Entry}
    (he : e ∈ acl.completed changed given) (hname : e.name ≠ []) : e ∈ acl := by
  have hmask : e.key ≠ maskKey e.key.scope := fun heq => hname (congrArg Key.name heq)
  have hbase : ∀ kind ∈ Kind.base, e.key ≠ ⟨.default, kind, []⟩ :=
    fun kind _ heq => hname (congrArg Key.name heq)
  rw [(h.completed changed given).mem_iff, h.get?_completed_of_ne _ _ hmask,
    h.get?_filled_of_ne hbase, ← h.mem_iff] at he
  exact he

/-- A completion that succeeds is well formed, if each scope that did not change has its mask, and
each mask that is said to be given is in the list. -/
theorem Ordered.wellFormed_of_complete (h : acl.Ordered) {changed given : Scope → Bool}
    {result : Acl} (hok : acl.complete changed given = .ok result)
    (hgiven : ∀ scope, given scope = true → ∃ e ∈ acl, e.scope = scope ∧ e.kind = .mask)
    (hkept : ∀ e ∈ acl, isNamedSubject e = true → changed e.scope = false →
      acl.hasKey (maskKey e.scope) = true) :
    result.WellFormed := by
  obtain ⟨rfl, herror⟩ := complete_eq_ok_iff.mp hok
  refine (h.completed changed given).wellFormed herror fun e he hnamed => ?_
  have hold := h.mem_of_mem_completed he (isNamedSubject_iff.mp hnamed).2
  by_cases hstale : acl.isStale changed given e.scope = true
  · -- A stale scope with a named subject gets a mask.
    have hfilled : e ∈ acl.filled := by
      rw [h.filled.mem_iff, h.get?_filled_of_hasKey (hasKey_iff.mpr ⟨e, hold, rfl⟩), ← h.mem_iff]
      exact hold
    have huses := usesMask_iff.mpr (Or.inl ⟨e, hfilled, rfl, hnamed⟩)
    rw [hasKey_eq_isSome, h.get?_completed_maskKey, if_pos ⟨hstale, huses⟩]
    rfl
  · by_cases hg : given e.scope = true
    · -- A mask that was given has no name, since the result has no misnamed entry.
      obtain ⟨mask, hmem, hscope, hkind⟩ := hgiven e.scope hg
      have hkey : (acl.completed changed given).hasKey mask.key = true :=
        h.hasKey_completed changed given (hasKey_iff.mpr ⟨mask, hmem, rfl⟩)
      obtain ⟨found, hfound, heq⟩ := hasKey_iff.mp hkey
      have hfoundKind : found.kind = .mask := (congrArg Key.kind heq).trans hkind
      have hname : found.name = [] := by
        by_contra hname
        have hmisnamed := (error?_eq_none_iff.mp herror).1 found hfound
        rw [isMisnamed_iff.mpr ⟨Or.inl hfoundKind, hname⟩] at hmisnamed
        cases hmisnamed
      have hmaskName : mask.name = [] := (congrArg Key.name heq).symm.trans hname
      have hmaskKey : mask.key = maskKey e.scope := by
        simp [Entry.key, maskKey, hscope, hkind, hmaskName]
      rwa [hmaskKey] at hkey
    · have hunchanged : changed e.scope = false := by
        rw [Bool.eq_false_iff]
        intro hchanged
        exact hstale (by simp [isStale, hchanged, Bool.eq_false_iff.mpr hg])
      exact h.hasKey_completed changed given (hkept e hold hnamed hunchanged)

/-! ## The five changes -/

/-- A mask that is given for a scope is among the entries that are put in. -/
theorem Ordered.exists_mask_of_givesMask (h : acl.Ordered) {entries : List Entry} {scope : Scope}
    (hgives : givesMask entries scope = true) :
    ∃ e ∈ acl.insertAll entries, e.scope = scope ∧ e.kind = .mask := by
  obtain ⟨mask, hmem, hmask⟩ := List.any_eq_true.mp hgives
  obtain ⟨hscope, hkind⟩ : mask.scope = scope ∧ mask.kind = .mask := by simpa using hmask
  have hkey : (acl.insertAll entries).hasKey mask.key = true := by
    rw [h.hasKey_insertAll, hasKey_iff.mpr ⟨mask, hmem, rfl⟩, Bool.true_or]
  obtain ⟨e, he, heq⟩ := hasKey_iff.mp hkey
  exact ⟨e, he, (congrArg Key.scope heq).trans hscope, (congrArg Key.kind heq).trans hkind⟩

/-- Merging entries into a well-formed list gives a well-formed list. -/
theorem WellFormed.merge (h : acl.WellFormed) {entries : List Entry} {result : Acl}
    (hok : acl.merge entries = .ok result) : result.WellFormed := by
  unfold Acl.merge at hok
  split at hok
  · cases hok
  · rw [h.ordered.ofEntries_eq] at hok
    refine (h.ordered.insertAll entries).wellFormed_of_complete hok
      (fun scope => h.ordered.exists_mask_of_givesMask) fun e he hnamed hunchanged => ?_
    -- Every entry that was put into the scope was there before.
    have hsame : ∀ f ∈ entries, f.scope = e.scope → acl.get? f.key = some f.permission := by
      intro f hf hscope
      have hnot := List.any_eq_false.mp hunchanged f hf
      simpa [hscope] using hnot
    have hold : acl.hasKey e.key = true := by
      have hkey := hasKey_iff.mpr ⟨e, he, rfl⟩
      rw [h.ordered.hasKey_insertAll, Bool.or_eq_true] at hkey
      rcases hkey with hkey | hkey
      · obtain ⟨f, hf, heq⟩ := hasKey_iff.mp hkey
        rw [← heq, hasKey_eq_isSome, hsame f hf (congrArg Key.scope heq)]
        rfl
      · exact hkey
    obtain ⟨f, hf, heq⟩ := hasKey_iff.mp hold
    have hfnamed : isNamedSubject f = true := by
      rw [isNamedSubject_iff] at hnamed ⊢
      rwa [show f.kind = e.kind from congrArg Key.kind heq,
        show f.name = e.name from congrArg Key.name heq]
    have hmask := h.masked f hf hfnamed
    rw [show f.scope = e.scope from congrArg Key.scope heq] at hmask
    rw [h.ordered.hasKey_insertAll, hmask, Bool.or_true]

/-- Removing entries from a well-formed list leaves a well-formed list. -/
theorem WellFormed.remove (h : acl.WellFormed) {entries : List Entry} {result : Acl}
    (hok : acl.remove entries = .ok result) : result.WellFormed := by
  unfold Acl.remove at hok
  rw [h.ordered.ofEntries_eq] at hok
  refine (h.ordered.eraseAll entries).wellFormed_of_complete hok
    (fun scope hgiven => by cases hgiven) fun e he hnamed hunchanged => ?_
  have hmask := h.masked e (List.mem_of_mem_filter he) hnamed
  -- The mask of a scope that did not change is not among the removed entries.
  have hkept : hasKey entries (maskKey e.scope) = false := by
    rw [Bool.eq_false_iff]
    intro hremoved
    obtain ⟨f, hf, heq⟩ := hasKey_iff.mp hremoved
    have hnot := List.any_eq_false.mp hunchanged f hf
    rw [heq, hmask] at hnot
    simp [show f.scope = e.scope from congrArg Key.scope heq] at hnot
  rw [hasKey_eraseAll, hkept, hmask]
  rfl

/-- Replacing a list gives a well-formed list. -/
theorem WellFormed.of_replace {entries : List Entry} {result : Acl}
    (hok : Acl.replace entries = .ok result) : result.WellFormed := by
  unfold Acl.replace at hok
  split at hok
  · cases hok
  · have hnil : Ordered [] := List.Pairwise.nil
    exact (ordered_ofEntries entries).wellFormed_of_complete hok
      (fun scope => hnil.exists_mask_of_givesMask) fun e _ _ hunchanged => by cases hunchanged

/-- Replacing a list by the entries of a well-formed one gives the well-formed list. No mask is
taken afresh: where the list uses a mask, it gives one. -/
theorem WellFormed.replace_eq (h : acl.WellFormed) : Acl.replace acl = .ok acl := by
  have hcompleted : acl.completed (fun _ => true) (givesMask acl) = acl := by
    refine (h.ordered.completed _ _).ext h.ordered fun key => ?_
    by_cases hkey : key = maskKey key.scope
    · rw [hkey, h.ordered.get?_completed_maskKey, if_neg]
      rintro ⟨hstale, huses⟩
      rw [h.filled_eq] at huses
      obtain ⟨mask, hmem, hmaskKey⟩ := hasKey_iff.mp (h.hasKey_mask_of_usesMask huses)
      have hgiven : givesMask acl key.scope = true := by
        refine List.any_eq_true.mpr ⟨mask, hmem, ?_⟩
        rw [Bool.and_eq_true, decide_eq_true_iff, decide_eq_true_iff]
        exact ⟨congrArg Key.scope hmaskKey, congrArg Key.kind hmaskKey⟩
      simp [isStale, hgiven] at hstale
    · rw [h.ordered.get?_completed_of_ne _ _ hkey, h.filled_eq]
  rw [Acl.replace, firstRepeated?_eq_none_iff.mpr h.ordered.nodup]
  simp only [h.ordered.ofEntries_eq]
  exact complete_eq_ok_iff.mpr ⟨hcompleted, h.error?_eq_none⟩

/-- Leaving out entries keeps a list well formed, as long as the base entries of the access scope
stay and each scope is either left out, or stays together with its mask and its base entries. -/
theorem WellFormed.filter (h : acl.WellFormed) (keep : Entry → Bool)
    (haccess : ∀ e ∈ acl, e.scope = .access → e.kind ∈ Kind.base → e.name = [] → keep e = true)
    (hdefault : ∀ e ∈ acl, e.scope = .default → keep e = false)
    (hmask : ∀ e ∈ acl, keep e = true → isNamedSubject e = true →
      ∀ mask ∈ acl, mask.key = maskKey e.scope → keep mask = true) :
    WellFormed (acl.filter keep) := by
  refine ⟨h.ordered.filter keep, fun e he => h.unnamed e (List.mem_of_mem_filter he),
    fun scope => ?_, fun kind hkind => ?_, fun hany => ?_, fun e he hnamed => ?_⟩
  · exact le_trans (List.Sublist.countP_le List.filter_sublist) (h.count_le scope)
  · obtain ⟨e, he, hkey⟩ := hasKey_iff.mp (h.access_base kind hkind)
    have hkeep := haccess e he (congrArg Key.scope hkey)
      (by rwa [show e.kind = kind from congrArg Key.kind hkey]) (congrArg Key.name hkey)
    exact hasKey_iff.mpr ⟨e, List.mem_filter.mpr ⟨he, hkeep⟩, hkey⟩
  · obtain ⟨e, he, hscope⟩ := hasDefault_iff.mp hany
    obtain ⟨hmem, hkeep⟩ := List.mem_filter.mp he
    rw [hdefault e hmem hscope] at hkeep
    cases hkeep
  · obtain ⟨hmem, hkeep⟩ := List.mem_filter.mp he
    obtain ⟨mask, hm, hkey⟩ := hasKey_iff.mp (h.masked e hmem hnamed)
    exact hasKey_iff.mpr ⟨mask, List.mem_filter.mpr ⟨hm, hmask e hmem hkeep hnamed mask hm hkey⟩,
      hkey⟩

/-- An entry of a base kind without a name in the access scope is a base entry. -/
theorem isBase_iff {e : Entry} :
    e.isBase = true ↔ e.scope = .access ∧ e.name = [] ∧ e.kind ≠ .mask := by
  simp [Entry.isBase, Entry.isUnnamed, and_assoc]

/-- Keeping the base entries of a well-formed list leaves a well-formed list. -/
theorem WellFormed.keepBase (h : acl.WellFormed) : acl.keepBase.WellFormed := by
  unfold Acl.keepBase
  rw [(h.ordered.filter Entry.isBase).sort_eq]
  refine h.filter _ (fun e _ hscope hkind hname => ?_) (fun e _ hscope => ?_)
    fun e _ hkeep hnamed => ?_
  · refine isBase_iff.mpr ⟨hscope, hname, fun hmask => ?_⟩
    rw [hmask] at hkind
    exact absurd hkind (by decide)
  · simp [Entry.isBase, hscope]
  · exact absurd (isBase_iff.mp hkeep).2.1 (isNamedSubject_iff.mp hnamed).2

/-- Dropping the default entries of a well-formed list leaves a well-formed list. -/
theorem WellFormed.dropDefault (h : acl.WellFormed) : acl.dropDefault.WellFormed := by
  unfold Acl.dropDefault
  rw [(h.ordered.filter _).sort_eq]
  refine h.filter _ (fun e _ hscope _ _ => by simp [hscope]) (fun e _ hscope => by simp [hscope])
    fun e _ hkeep _ mask _ hkey => ?_
  have hscope : e.scope = .access := by simpa using hkeep
  have hmask : mask.scope = e.scope := congrArg Key.scope hkey
  simp [hmask, hscope]

/-- Every change of a well-formed list that succeeds gives a well-formed list. -/
theorem WellFormed.apply (h : acl.WellFormed) {change : Change} {result : Acl}
    (hok : change.apply acl = .ok result) : result.WellFormed := by
  cases change with
  | keepBase =>
    cases hok
    exact h.keepBase
  | dropDefault =>
    cases hok
    exact h.dropDefault
  | merge entries => exact h.merge hok
  | remove entries => exact h.remove hok
  | replace entries => exact WellFormed.of_replace hok

/-- A change makes up no named entry: it is in the old list, or it was put in. -/
theorem Ordered.mem_of_mem_apply (h : acl.Ordered) {change : Change} {result : Acl}
    (hok : change.apply acl = .ok result) {e : Entry} (he : e ∈ result) (hname : e.name ≠ []) :
    e ∈ acl ∨ e ∈ change.entries := by
  cases change with
  | keepBase =>
    obtain rfl := Except.ok.inj hok
    rw [Acl.keepBase, (h.filter _).sort_eq] at he
    exact Or.inl (List.mem_of_mem_filter he)
  | dropDefault =>
    obtain rfl := Except.ok.inj hok
    rw [Acl.dropDefault, (h.filter _).sort_eq] at he
    exact Or.inl (List.mem_of_mem_filter he)
  | merge entries =>
    simp only [Change.apply, Acl.merge] at hok
    split at hok
    · cases hok
    · obtain ⟨rfl, -⟩ := complete_eq_ok_iff.mp hok
      rw [h.ofEntries_eq] at he
      exact mem_of_mem_insertAll ((h.insertAll entries).mem_of_mem_completed he hname)
  | remove entries =>
    obtain ⟨rfl, -⟩ := complete_eq_ok_iff.mp (show Acl.complete _ _ _ = _ from hok)
    rw [h.ofEntries_eq] at he
    have hkept := (h.eraseAll entries).mem_of_mem_completed he hname
    exact Or.inl (List.mem_of_mem_filter hkept)
  | replace entries =>
    simp only [Change.apply, Acl.replace] at hok
    split at hok
    · cases hok
    · obtain ⟨rfl, -⟩ := complete_eq_ok_iff.mp hok
      have hput := (ordered_ofEntries entries).mem_of_mem_completed he hname
      rcases mem_of_mem_insertAll hput with hnil | hput
      · exact absurd hnil List.not_mem_nil
      · exact Or.inr hput

end Acl

end PosixAcl
