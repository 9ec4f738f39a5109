import PosixAcl.Proofs.Acl.WellFormed

/-!
# Merging step by step

Merging recalculates masks from intermediate lists, and only in scopes that a step
changes. For entries with different keys and without masks this makes no
difference: merging them in several steps, in any order, does the same as merging
all of them at once.
-/

namespace PosixAcl.Acl

/-- Entries that do not get in each other's way when they are merged into an ordered list with a
complete default scope: none is a mask, all keys are different, and default entries are among them
only if the list has some already. -/
structure Additions (acl : Acl) (entries : List Entry) : Prop where
  /-- The keys of the list ascend strictly. -/
  ordered : acl.Ordered
  /-- The default scope of the list has its base entries, if it is in use. -/
  default_base : acl.hasDefault = true →
    ∀ kind ∈ Kind.base, acl.hasKey ⟨.default, kind, []⟩ = true
  /-- No entry is a mask. -/
  noMask : ∀ e ∈ entries, e.kind ≠ .mask
  /-- All keys are different. -/
  nodup : (entries.map Entry.key).Nodup
  /-- The default scope is in use if it gets an entry. -/
  hasDefault : ∀ e ∈ entries, e.scope = .default → acl.hasDefault = true

/-- Whether merging entries changes a scope: one of them is new in it or has another
permission. -/
def changedBy (acl : Acl) (entries : List Entry) (scope : Scope) : Bool :=
  entries.any fun e => e.scope = scope && acl.get? e.key ≠ some e.permission

/-- The list that merging entries gives, before it is checked. -/
def merged (acl : Acl) (entries : List Entry) : Acl :=
  (acl.insertAll entries).completed (acl.changedBy entries) (givesMask entries)

variable {acl other : Acl} {entries more : List Entry}

/-- Merging succeeds if all keys are different and the result has no error. -/
theorem merge_eq_ok_iff {existing : List Entry} {result : Acl} :
    merge existing entries = .ok result ↔
      (entries.map Entry.key).Nodup ∧ (ofEntries existing).merged entries = result ∧
        result.error? = none := by
  rw [← firstRepeated?_eq_none_iff]
  unfold merge
  cases hrepeated : firstRepeated? entries with
  | some e => simp
  | none =>
    simp only [true_and]
    exact complete_eq_ok_iff

/-- An ordered list is merged into as it stands. -/
theorem Ordered.merge_eq_ok_iff (h : acl.Ordered) {result : Acl} :
    acl.merge entries = .ok result ↔
      (entries.map Entry.key).Nodup ∧ acl.merged entries = result ∧ result.error? = none := by
  rw [Acl.merge_eq_ok_iff, h.ofEntries_eq]

/-! ## One step -/

/-- Entries without masks give no mask. -/
theorem Additions.givesMask_eq (h : Additions acl entries) (scope : Scope) :
    givesMask entries scope = false := by
  refine List.any_eq_false.mpr fun e he => ?_
  simp [h.noMask e he]

/-- Entries without masks leave the masks of a list as they are. -/
theorem Additions.get?_insertAll_maskKey (h : Additions acl entries) (scope : Scope) :
    (acl.insertAll entries).get? (maskKey scope) = acl.get? (maskKey scope) := by
  have hnone : get? entries (maskKey scope) = none :=
    get?_eq_none_iff.mpr fun e he hkey => h.noMask e he (congrArg Key.kind hkey)
  rw [h.ordered.get?_insertAll, hnone, Option.none_or]

/-- Putting the entries in does not bring the default scope into use. -/
theorem Additions.hasDefault_of_insertAll (h : Additions acl entries)
    (hdefault : (acl.insertAll entries).hasDefault = true) : acl.hasDefault = true := by
  obtain ⟨key, hscope, hkey⟩ := hasDefault_iff_hasKey.mp hdefault
  rw [h.ordered.hasKey_insertAll, Bool.or_eq_true] at hkey
  rcases hkey with hkey | hkey
  · obtain ⟨e, he, rfl⟩ := hasKey_iff.mp hkey
    exact h.hasDefault e he hscope
  · exact hasDefault_iff_hasKey.mpr ⟨key, hscope, hkey⟩

/-- A complete default scope needs no copies after a step. -/
theorem Additions.missingDefaults_eq_nil (h : Additions acl entries) :
    (acl.insertAll entries).missingDefaults = [] := by
  rw [List.eq_nil_iff_forall_not_mem]
  intro copy hcopy
  obtain ⟨hdefault, hkind, hkey, hhas, -⟩ := mem_missingDefaults_iff.mp hcopy
  have hold := h.hasDefault_of_insertAll hdefault
  rw [hkey, h.ordered.hasKey_insertAll, h.default_base hold copy.kind hkind,
    Bool.or_true] at hhas
  cases hhas

/-- The result of a step is in order. -/
theorem Ordered.merged (h : acl.Ordered) (entries : List Entry) : (acl.merged entries).Ordered :=
  (h.insertAll entries).completed _ _

/-- A step puts the entries in, apart from masks. -/
theorem Additions.get?_merged_of_ne (h : Additions acl entries) {key : Key}
    (hkey : key ≠ maskKey key.scope) :
    (acl.merged entries).get? key = (acl.insertAll entries).get? key := by
  rw [merged, (h.ordered.insertAll entries).get?_completed_of_ne _ _ hkey,
    filled_of_missingDefaults h.missingDefaults_eq_nil]

/-- Apart from masks, a step gives each key what the entries give to it, or else what it had. -/
theorem Additions.get?_merged (h : Additions acl entries) {key : Key} (hkind : key.kind ≠ .mask) :
    (acl.merged entries).get? key = (get? entries key).or (acl.get? key) := by
  rw [h.get?_merged_of_ne fun heq => hkind (congrArg Key.kind heq), h.ordered.get?_insertAll]

/-- A step recalculates the masks of the scopes that it changes. -/
theorem Additions.get?_merged_maskKey (h : Additions acl entries) (scope : Scope) :
    (acl.merged entries).get? (maskKey scope) =
      if acl.changedBy entries scope = true ∧ (acl.insertAll entries).usesMask scope = true then
        some ((acl.insertAll entries).groupClass scope)
      else acl.get? (maskKey scope) := by
  have hmissing := h.missingDefaults_eq_nil
  have hstale : (acl.insertAll entries).isStale (acl.changedBy entries) (givesMask entries) scope =
      acl.changedBy entries scope := by
    simp [isStale, hmissing, h.givesMask_eq]
  rw [merged, (h.ordered.insertAll entries).get?_completed_maskKey, hstale,
    filled_of_missingDefaults hmissing, h.get?_insertAll_maskKey]

/-- A step keeps the keys and adds those of the entries. -/
theorem Ordered.hasKey_merged (h : acl.Ordered) {key : Key}
    (hkey : (hasKey entries key || acl.hasKey key) = true) :
    (acl.merged entries).hasKey key = true := by
  rw [← h.hasKey_insertAll] at hkey
  exact (h.insertAll entries).hasKey_completed _ _ hkey

/-- A key after a step was put in or was there before, or it is the key of a mask that the scope
uses. -/
theorem Additions.hasKey_of_merged (h : Additions acl entries) {key : Key}
    (hkey : (acl.merged entries).hasKey key = true) :
    (acl.insertAll entries).hasKey key = true ∨
      key = maskKey key.scope ∧ acl.changedBy entries key.scope = true ∧
        (acl.insertAll entries).usesMask key.scope = true := by
  by_cases hmask : key = maskKey key.scope
  · by_cases hfresh : acl.changedBy entries key.scope = true ∧
        (acl.insertAll entries).usesMask key.scope = true
    · exact Or.inr ⟨hmask, hfresh⟩
    · rw [hmask, hasKey_eq_isSome, h.get?_merged_maskKey, if_neg hfresh,
        ← h.get?_insertAll_maskKey, ← hasKey_eq_isSome, ← hmask] at hkey
      exact Or.inl hkey
  · rw [hasKey_eq_isSome, h.get?_merged_of_ne hmask, ← hasKey_eq_isSome] at hkey
    exact Or.inl hkey

/-- A step does not change whether the default scope is in use. -/
theorem Additions.hasDefault_merged (h : Additions acl entries) :
    (acl.merged entries).hasDefault = acl.hasDefault := by
  rw [Bool.eq_iff_iff]
  constructor
  · intro hdefault
    obtain ⟨key, hscope, hkey⟩ := hasDefault_iff_hasKey.mp hdefault
    refine h.hasDefault_of_insertAll (hasDefault_iff_hasKey.mpr ?_)
    rcases h.hasKey_of_merged hkey with hkey | ⟨-, -, huses⟩
    · exact ⟨key, hscope, hkey⟩
    · rcases usesMask_iff.mp huses with ⟨e, he, hescope, -⟩ | hmask
      · exact ⟨e.key, hescope.trans hscope, hasKey_iff.mpr ⟨e, he, rfl⟩⟩
      · exact ⟨maskKey key.scope, hscope, hmask⟩
  · intro hdefault
    obtain ⟨key, hscope, hkey⟩ := hasDefault_iff_hasKey.mp hdefault
    refine hasDefault_iff_hasKey.mpr ⟨key, hscope, h.ordered.hasKey_merged ?_⟩
    rw [hkey, Bool.or_true]

/-! ## Two steps -/

/-- The first of two parts can be merged. -/
theorem Additions.left (h : Additions acl (entries ++ more)) : Additions acl entries := by
  have hnodup := h.nodup
  rw [List.map_append] at hnodup
  exact ⟨h.ordered, h.default_base, fun e he => h.noMask e (List.mem_append_left _ he),
    (List.nodup_append.mp hnodup).1, fun e he => h.hasDefault e (List.mem_append_left _ he)⟩

/-- The second of two parts gives nothing to the keys of the first one. -/
theorem Additions.get?_left_eq_none (h : Additions acl (entries ++ more)) {e : Entry}
    (he : e ∈ more) : get? entries e.key = none := by
  have hnodup := h.nodup
  rw [List.map_append] at hnodup
  refine get?_eq_none_iff.mpr fun f hf hkey => ?_
  exact (List.nodup_append.mp hnodup).2.2 _ (List.mem_map_of_mem hf) _
    (List.mem_map_of_mem he) hkey

/-- The second of two parts can be merged after the first one. -/
theorem Additions.right (h : Additions acl (entries ++ more)) :
    Additions (acl.merged entries) more := by
  have hnodup := h.nodup
  rw [List.map_append] at hnodup
  have hdefault := h.left.hasDefault_merged
  refine ⟨h.ordered.merged entries, fun hused kind hkind => ?_,
    fun e he => h.noMask e (List.mem_append_right _ he), (List.nodup_append.mp hnodup).2.1,
    fun e he hscope => ?_⟩
  · rw [hdefault] at hused
    refine h.ordered.hasKey_merged ?_
    rw [h.default_base hused kind hkind, Bool.or_true]
  · rw [hdefault]
    exact h.hasDefault e (List.mem_append_right _ he) hscope

/-- Lists that give the same to the keys of some entries are changed by them in the same scopes. -/
theorem changedBy_congr {scope : Scope}
    (hget : ∀ e ∈ entries, e.scope = scope → acl.get? e.key = other.get? e.key) :
    acl.changedBy entries scope = other.changedBy entries scope := by
  rw [Bool.eq_iff_iff]
  simp only [changedBy, List.any_eq_true, Bool.and_eq_true, decide_eq_true_eq]
  refine exists_congr fun e => and_congr_right fun he => and_congr_right fun hscope => ?_
  rw [hget e he hscope]

/-- Entries change no scope exactly if the list gives their permissions to their keys already. -/
theorem changedBy_eq_false_iff {scope : Scope} :
    acl.changedBy entries scope = false ↔
      ∀ e ∈ entries, e.scope = scope → acl.get? e.key = some e.permission := by
  simp [changedBy]

/-- Two parts change the scopes that one of them changes. -/
theorem changedBy_append (acl : Acl) (entries more : List Entry) (scope : Scope) :
    acl.changedBy (entries ++ more) scope =
      (acl.changedBy entries scope || acl.changedBy more scope) :=
  List.any_append

/-- Entries that do not change a scope leave what the list gives to its keys. -/
theorem Ordered.get?_insertAll_of_unchanged (h : acl.Ordered) {key : Key}
    (hunchanged : acl.changedBy entries key.scope = false) :
    (acl.insertAll entries).get? key = acl.get? key := by
  rw [h.get?_insertAll]
  cases hget : get? entries key with
  | none => rfl
  | some permission =>
    obtain ⟨e, he, rfl, rfl⟩ := exists_mem_of_get? hget
    have hold : acl.get? e.key = some e.permission := by
      by_contra hnew
      refine List.any_eq_false.mp hunchanged e he ?_
      rw [Bool.and_eq_true, decide_eq_true_iff, decide_eq_true_iff]
      exact ⟨rfl, hnew⟩
    rw [hold]
    rfl

/-- Putting a second part in after a step, or right after the first part, leads to the same entries,
masks apart. -/
theorem Additions.get?_insertAll_merged (h : Additions acl (entries ++ more)) {key : Key}
    (hkey : key ≠ maskKey key.scope) :
    ((acl.merged entries).insertAll more).get? key =
      (acl.insertAll (entries ++ more)).get? key := by
  rw [insertAll_append, h.right.ordered.get?_insertAll, h.left.get?_merged_of_ne hkey,
    (h.ordered.insertAll entries).get?_insertAll]

/-- A second part changes the same scopes after a step as before it. -/
theorem Additions.changedBy_merged (h : Additions acl (entries ++ more)) (scope : Scope) :
    (acl.merged entries).changedBy more scope = acl.changedBy more scope := by
  refine changedBy_congr fun e he _ => ?_
  have hmask : e.key ≠ maskKey e.key.scope :=
    fun heq => h.noMask e (List.mem_append_right _ he) (congrArg Key.kind heq)
  rw [h.left.get?_merged_of_ne hmask, h.ordered.get?_insertAll, h.get?_left_eq_none he,
    Option.none_or]

/-- A second part leaves the scopes that it does not change as the first part made them. -/
theorem Additions.get?_append_of_unchanged (h : Additions acl (entries ++ more)) {key : Key}
    (hunchanged : acl.changedBy more key.scope = false) :
    (acl.insertAll (entries ++ more)).get? key = (acl.insertAll entries).get? key := by
  have hfirst : (acl.insertAll entries).changedBy more key.scope = false := by
    rw [← hunchanged]
    refine changedBy_congr fun e he _ => ?_
    rw [h.ordered.get?_insertAll, h.get?_left_eq_none he, Option.none_or]
  rw [insertAll_append, (h.ordered.insertAll entries).get?_insertAll_of_unchanged hfirst]

/-- A second part leads to the same group classes after a step as right after the first part. -/
theorem Additions.groupClass_merged (h : Additions acl (entries ++ more)) (scope : Scope) :
    ((acl.merged entries).insertAll more).groupClass scope =
      (acl.insertAll (entries ++ more)).groupClass scope := by
  refine groupClass_congr (h.right.ordered.insertAll more) (h.ordered.insertAll _)
    fun key _ hkind => h.get?_insertAll_merged fun hmask => hkind (congrArg Key.kind hmask)

/-- The keys of the first part stay when the second part is put in. -/
theorem Additions.hasKey_append (h : Additions acl (entries ++ more)) {key : Key}
    (hkey : (acl.insertAll entries).hasKey key = true) :
    (acl.insertAll (entries ++ more)).hasKey key = true := by
  rw [insertAll_append, (h.ordered.insertAll entries).hasKey_insertAll, hkey, Bool.or_true]

/-- A second part leads to masks in the same scopes after a step as right after the first part: the
step makes a mask only where a named entry needs one that stays. -/
theorem Additions.usesMask_merged (h : Additions acl (entries ++ more)) (scope : Scope) :
    ((acl.merged entries).insertAll more).usesMask scope =
      (acl.insertAll (entries ++ more)).usesMask scope := by
  have hkeys : ∀ {key : Key}, key ≠ maskKey key.scope →
      ((acl.merged entries).insertAll more).hasKey key =
        (acl.insertAll (entries ++ more)).hasKey key := by
    intro key hkey
    rw [hasKey_eq_isSome, h.get?_insertAll_merged hkey, ← hasKey_eq_isSome]
  have hmask := h.right.get?_insertAll_maskKey scope
  rw [Bool.eq_iff_iff]
  constructor
  · intro huses
    by_cases hnew : (acl.insertAll (entries ++ more)).hasKey (maskKey scope) = true
    · exact usesMask_iff.mpr (Or.inr hnew)
    · by_cases hold : (acl.merged entries).hasKey (maskKey scope) = true
      · rcases h.left.hasKey_of_merged hold with hkey | ⟨-, -, hfirst⟩
        · exact absurd (h.hasKey_append hkey) hnew
        · exact usesMask_mono (fun key _ hkey => h.hasKey_append hkey) hfirst
      · refine usesMask_mono (fun key hscope hkey => ?_) huses
        by_cases heq : key = maskKey key.scope
        · rw [hscope] at heq
          rw [heq, hasKey_eq_isSome, hmask, ← hasKey_eq_isSome] at hkey
          exact absurd hkey hold
        · rwa [← hkeys heq]
  · refine usesMask_mono fun key hscope hkey => ?_
    by_cases heq : key = maskKey key.scope
    · rw [hscope] at heq
      rw [heq, hasKey_eq_isSome, h.get?_insertAll_maskKey, ← hasKey_eq_isSome] at hkey
      rw [heq, hasKey_eq_isSome, hmask, ← hasKey_eq_isSome]
      exact h.ordered.hasKey_merged (by rw [hkey, Bool.or_true])
    · rwa [hkeys heq]

/-- Merging two parts one after the other gives the same list as merging them at once. -/
theorem Additions.merged_merged (h : Additions acl (entries ++ more)) :
    (acl.merged entries).merged more = acl.merged (entries ++ more) := by
  refine (h.right.ordered.merged more).ext (h.ordered.merged _) fun key => ?_
  by_cases hkey : key = maskKey key.scope
  · generalize key.scope = scope at hkey
    rw [hkey, h.right.get?_merged_maskKey, h.get?_merged_maskKey, h.left.get?_merged_maskKey,
      h.changedBy_merged, h.usesMask_merged, h.groupClass_merged, changedBy_append]
    cases hchanged : acl.changedBy more scope with
    | true =>
      by_cases huses : (acl.insertAll (entries ++ more)).usesMask scope = true
      · simp [huses]
      · -- Where the whole uses no mask, the first part uses none either.
        have hfirst : ¬ (acl.insertAll entries).usesMask scope = true := fun hfirst =>
          huses (usesMask_mono (fun _ _ hin => h.hasKey_append hin) hfirst)
        simp [huses, hfirst]
    | false =>
      -- The second part leaves the scope as the first one made it.
      have hsame : ∀ key : Key, key.scope = scope →
          (acl.insertAll (entries ++ more)).get? key = (acl.insertAll entries).get? key :=
        fun key hscope => h.get?_append_of_unchanged (hscope ▸ hchanged)
      have huses : (acl.insertAll (entries ++ more)).usesMask scope =
          (acl.insertAll entries).usesMask scope :=
        usesMask_congr fun key hscope => by
          rw [hasKey_eq_isSome, hsame key hscope, ← hasKey_eq_isSome]
      have hclass : (acl.insertAll (entries ++ more)).groupClass scope =
          (acl.insertAll entries).groupClass scope :=
        groupClass_congr (h.ordered.insertAll _) (h.ordered.insertAll _)
          fun key hscope _ => hsame key hscope
      simp [huses, hclass]
  · rw [h.right.get?_merged_of_ne hkey, h.get?_merged_of_ne hkey, h.get?_insertAll_merged hkey]

/-! ## Steps that succeed -/

/-- A list in strict order is not larger in a scope than one with all its keys. -/
theorem Ordered.count_le_of_keys (h : acl.Ordered)
    (hkeys : ∀ key, acl.hasKey key = true → other.hasKey key = true) (scope : Scope) :
    acl.count scope ≤ other.count scope := by
  have hnodup : ((acl.filter (·.scope = scope)).map Entry.key).Nodup := (h.filter _).nodup
  have hsubset : (acl.filter (·.scope = scope)).map Entry.key ⊆
      (other.filter (·.scope = scope)).map Entry.key := by
    intro key hkey
    obtain ⟨e, he, rfl⟩ := List.mem_map.mp hkey
    obtain ⟨hmem, hscope⟩ := List.mem_filter.mp he
    obtain ⟨f, hf, hfe⟩ := hasKey_iff.mp (hkeys e.key (hasKey_iff.mpr ⟨e, hmem, rfl⟩))
    have hfscope : f.scope = e.scope := congrArg Key.scope hfe
    exact hfe ▸ List.mem_map_of_mem (List.mem_filter.mpr ⟨hf, by rwa [hfscope]⟩)
  have hlength := (List.subperm_of_subset hnodup hsubset).length_le
  rw [List.length_map, List.length_map] at hlength
  rwa [count, count, List.countP_eq_length_filter, List.countP_eq_length_filter]

/-- A list with its base entries has no error if all its keys are those of a list without an
error. -/
theorem Ordered.error?_eq_none_of_keys (h : acl.Ordered) (herror : other.error? = none)
    (hkeys : ∀ key, acl.hasKey key = true → other.hasKey key = true)
    (haccess : acl.hasBase .access = true)
    (hdefault : acl.hasDefault = true → acl.hasBase .default = true) : acl.error? = none := by
  refine error?_eq_none_iff.mpr ⟨fun e he => ?_, fun scope => ?_⟩
  · rw [Bool.eq_false_iff]
    intro hmisnamed
    obtain ⟨f, hf, hfe⟩ := hasKey_iff.mp (hkeys e.key (hasKey_iff.mpr ⟨e, he, rfl⟩))
    rw [isMisnamed_iff, ← show f.kind = e.kind from congrArg Key.kind hfe,
      ← show f.name = e.name from congrArg Key.name hfe, ← isMisnamed_iff,
      (error?_eq_none_iff.mp herror).1 f hf] at hmisnamed
    cases hmisnamed
  · have hcount : acl.count scope ≤ maxEntries :=
      le_trans (h.count_le_of_keys hkeys scope) ((scope_of_error?_eq_none herror).1 scope)
    rw [scopeError?_eq_none_iff]
    cases scope with
    | access => exact Or.inr ⟨hcount, haccess⟩
    | default =>
      cases hany : acl.hasDefault with
      | false => exact Or.inl ⟨rfl, count_default_eq_zero_iff.mpr hany⟩
      | true => exact Or.inr ⟨hcount, hdefault hany⟩

/-- If merging two parts at once succeeds, then so does merging the first part. -/
theorem WellFormed.error?_merged (h : acl.WellFormed) (hadd : Additions acl (entries ++ more))
    (herror : (acl.merged (entries ++ more)).error? = none) :
    (acl.merged entries).error? = none := by
  have hkept : ∀ key, acl.hasKey key = true → (acl.merged entries).hasKey key = true :=
    fun key hkey => h.ordered.hasKey_merged (by rw [hkey, Bool.or_true])
  rw [← hadd.merged_merged] at herror
  refine hadd.right.ordered.error?_eq_none_of_keys herror (fun key hkey => ?_) ?_ fun hany => ?_
  · exact hadd.right.ordered.hasKey_merged (by rw [hkey, Bool.or_true])
  · exact hasBase_iff.mpr fun kind hkind => hkept _ (h.access_base kind hkind)
  · rw [hadd.left.hasDefault_merged] at hany
    exact hasBase_iff.mpr fun kind hkind => hkept _ (h.default_base hany kind hkind)

/-- Merging two parts at once does the same as merging one after the other. -/
theorem WellFormed.merge_append_iff (h : acl.WellFormed) (hadd : Additions acl (entries ++ more))
    {result : Acl} :
    acl.merge (entries ++ more) = .ok result ↔
      ∃ middle, acl.merge entries = .ok middle ∧ middle.merge more = .ok result := by
  rw [h.ordered.merge_eq_ok_iff]
  constructor
  · rintro ⟨-, rfl, herror⟩
    refine ⟨acl.merged entries, h.ordered.merge_eq_ok_iff.mpr ⟨hadd.left.nodup, rfl,
      h.error?_merged hadd herror⟩, ?_⟩
    exact hadd.right.ordered.merge_eq_ok_iff.mpr ⟨hadd.right.nodup, hadd.merged_merged, herror⟩
  · rintro ⟨middle, hfirst, hsecond⟩
    obtain ⟨-, rfl, -⟩ := h.ordered.merge_eq_ok_iff.mp hfirst
    obtain ⟨-, rfl, herror⟩ := hadd.right.ordered.merge_eq_ok_iff.mp hsecond
    exact ⟨hadd.nodup, hadd.merged_merged.symm, herror⟩

/-- Merging entries that are there already into a list without an error changes nothing. -/
theorem Ordered.merged_eq (h : acl.Ordered) (herror : acl.error? = none)
    (hthere : ∀ e ∈ entries, acl.get? e.key = some e.permission) : acl.merged entries = acl := by
  have hmissing := missingDefaults_eq_nil_of_error? herror
  have hinsert : acl.insertAll entries = acl := by
    refine (h.insertAll entries).ext h fun key => ?_
    rw [h.get?_insertAll]
    cases hget : get? entries key with
    | none => rfl
    | some permission =>
      obtain ⟨e, he, rfl, rfl⟩ := exists_mem_of_get? hget
      rw [hthere e he]
      rfl
  have hchanged : ∀ scope, acl.changedBy entries scope = false := by
    intro scope
    refine List.any_eq_false.mpr fun e he => ?_
    simp [hthere e he]
  have hstale : ∀ scope,
      acl.isStale (acl.changedBy entries) (givesMask entries) scope = false := by
    intro scope
    simp [isStale, hchanged, hmissing]
  rw [Acl.merged, hinsert]
  refine (h.completed _ _).ext h fun key => ?_
  by_cases hkey : key = maskKey key.scope
  · rw [hkey, h.get?_completed_maskKey, if_neg (by simp [hstale])]
  · rw [h.get?_completed_of_ne _ _ hkey, filled_of_missingDefaults hmissing]

/-- Merging nothing into a well-formed list leaves it as it is. -/
theorem WellFormed.merge_nil (h : acl.WellFormed) : acl.merge [] = .ok acl :=
  h.ordered.merge_eq_ok_iff.mpr
    ⟨by simp, h.ordered.merged_eq h.error?_eq_none (by simp), h.error?_eq_none⟩

/-! ## Any number of steps -/

/-- Merging several lists of entries one after the other does the same as merging all of them at
once. -/
theorem WellFormed.foldlM_merge_iff (h : acl.WellFormed) {specs : List (List Entry)}
    (hadd : Additions acl specs.flatten) {result : Acl} :
    specs.foldlM Acl.merge acl = .ok result ↔ acl.merge specs.flatten = .ok result := by
  -- The remaining entries can be merged into each list on the way.
  induction specs generalizing acl with
  | nil =>
    rw [List.flatten_nil, h.merge_nil]
    rfl
  | cons spec rest ih =>
    rw [List.flatten_cons] at hadd ⊢
    rw [h.merge_append_iff hadd, List.foldlM_cons]
    cases hfirst : acl.merge spec with
    | error error => simp [bind, Except.bind]
    | ok middle =>
      have hmiddle : acl.merged spec = middle := (h.ordered.merge_eq_ok_iff.mp hfirst).2.1
      have hstep := ih (h.merge hfirst) (hmiddle ▸ hadd.right)
      simpa [bind, Except.bind] using hstep

/-- Rearranging entries with different keys does not change the list that merging them gives. -/
theorem Ordered.merged_perm (h : acl.Ordered) (hperm : entries.Perm more)
    (hnodup : (entries.map Entry.key).Nodup) : acl.merged entries = acl.merged more := by
  have hinsert : acl.insertAll entries = acl.insertAll more := by
    refine (h.insertAll entries).ext (h.insertAll more) fun key => ?_
    rw [h.get?_insertAll, h.get?_insertAll, get?_perm hperm hnodup]
  have hchanged : acl.changedBy entries = acl.changedBy more :=
    funext fun scope => hperm.any_eq
  have hgiven : givesMask entries = givesMask more := funext fun scope => hperm.any_eq
  rw [Acl.merged, Acl.merged, hinsert, hchanged, hgiven]

/-- Rearranging entries with different keys does not change what merging them does. -/
theorem Ordered.merge_perm (h : acl.Ordered) (hperm : entries.Perm more)
    (hnodup : (entries.map Entry.key).Nodup) {result : Acl} :
    acl.merge entries = .ok result ↔ acl.merge more = .ok result := by
  have hmore : (more.map Entry.key).Nodup := (hperm.map Entry.key).nodup_iff.mp hnodup
  rw [h.merge_eq_ok_iff, h.merge_eq_ok_iff, h.merged_perm hperm hnodup]
  simp [hnodup, hmore]

end PosixAcl.Acl
