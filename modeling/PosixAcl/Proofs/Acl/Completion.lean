import PosixAcl.Acl.Change
import PosixAcl.Proofs.Acl.Table

/-!
# What the completion of a list gives to keys

Merging, removing and replacing end with the same completion: missing default
entries are copied, and the masks of stale scopes are taken afresh. This file
says which permission each key has afterwards, and what a list without an error
looks like.
-/

namespace PosixAcl

namespace Permission

/-- A permission implies a union exactly if it implies both parts. -/
theorem implies_union (p q r : Permission) :
    p.implies (q.union r) = (p.implies q && p.implies r) := by
  rcases p with ⟨_ | _, _ | _, _ | _⟩ <;> rcases q with ⟨_ | _, _ | _, _ | _⟩ <;>
    rcases r with ⟨_ | _, _ | _, _ | _⟩ <;> rfl

/-- Every permission implies the empty one. -/
theorem implies_empty (p : Permission) : p.implies .empty = true := by
  rcases p with ⟨_ | _, _ | _, _ | _⟩ <;> rfl

/-- Permissions that are implied by the same ones are equal. -/
theorem eq_of_implies_iff {p q : Permission}
    (h : ∀ r : Permission, r.implies p = true ↔ r.implies q = true) : p = q := by
  have hqp := (h p).mp (by rcases p with ⟨_ | _, _ | _, _ | _⟩ <;> rfl)
  have hpq := (h q).mpr (by rcases q with ⟨_ | _, _ | _, _ | _⟩ <;> rfl)
  revert hqp hpq
  rcases p with ⟨_ | _, _ | _, _ | _⟩ <;> rcases q with ⟨_ | _, _ | _, _ | _⟩ <;> decide

/-- A permission implies the union of several ones exactly if it implies each of them. -/
theorem implies_foldl_union (p start : Permission) (entries : List Entry) :
    p.implies (entries.foldl (fun union e => union.union e.permission) start) = true ↔
      p.implies start = true ∧ ∀ e ∈ entries, p.implies e.permission = true := by
  induction entries generalizing start with
  | nil => simp
  | cons e rest ih =>
    rw [List.foldl_cons, ih, implies_union, Bool.and_eq_true, List.forall_mem_cons, and_assoc]

end Permission

namespace Acl

/-- The key of the mask of a scope. -/
def maskKey (scope : Scope) : Key := ⟨scope, .mask, []⟩

/-! ## Looking at one scope -/

/-- A permission implies the group class of a scope exactly if it implies what each entry grants
that the mask bounds. -/
theorem implies_groupClass_iff (p : Permission) (acl : Acl) (scope : Scope) :
    p.implies (acl.groupClass scope) = true ↔
      ∀ e ∈ acl, e.scope = scope → isMasked e = true → p.implies e.permission = true := by
  unfold groupClass
  rw [Permission.implies_foldl_union]
  simp [Permission.implies_empty]

/-- An entry that the mask bounds is not a mask. -/
theorem kind_ne_mask_of_isMasked {e : Entry} (h : isMasked e = true) : e.kind ≠ .mask := by
  intro hkind
  simp [isMasked, hkind] at h

/-- An entry needs a mask exactly if it is a named user or group. -/
theorem isNamedSubject_iff {e : Entry} :
    isNamedSubject e = true ↔ (e.kind = .user ∨ e.kind = .group) ∧ e.name ≠ [] := by
  simp [isNamedSubject, Entry.isUnnamed]

/-- An entry is misnamed exactly if it is a mask or an entry for the others, and has a name. -/
theorem isMisnamed_iff {e : Entry} :
    isMisnamed e = true ↔ (e.kind = .mask ∨ e.kind = .other) ∧ e.name ≠ [] := by
  simp [isMisnamed, Entry.isUnnamed, and_comm]

/-- The group class depends only on what the keys of the scope have, its mask apart. -/
theorem groupClass_congr {acl other : Acl} (h : acl.Ordered) (hother : other.Ordered)
    {scope : Scope}
    (hget : ∀ key : Key, key.scope = scope → key.kind ≠ .mask → acl.get? key = other.get? key) :
    acl.groupClass scope = other.groupClass scope := by
  refine Permission.eq_of_implies_iff fun p => ?_
  rw [implies_groupClass_iff, implies_groupClass_iff]
  have hmem : ∀ e : Entry, e.scope = scope → isMasked e = true → (e ∈ acl ↔ e ∈ other) := by
    intro e hscope hmasked
    rw [h.mem_iff, hother.mem_iff, hget e.key hscope (kind_ne_mask_of_isMasked hmasked)]
  constructor
  · intro hall e he hscope hmasked
    exact hall e ((hmem e hscope hmasked).mpr he) hscope hmasked
  · intro hall e he hscope hmasked
    exact hall e ((hmem e hscope hmasked).mp he) hscope hmasked

/-- A scope uses a mask exactly if it has an entry that needs one, or has a mask. -/
theorem usesMask_iff {acl : Acl} {scope : Scope} :
    acl.usesMask scope = true ↔
      (∃ e ∈ acl, e.scope = scope ∧ isNamedSubject e = true) ∨
        acl.hasKey (maskKey scope) = true := by
  simp [usesMask, maskKey]

/-- Whether an entry needs a mask is seen from its key, so a list with all keys that another one
has in a scope uses a mask there if the other one does. -/
theorem usesMask_mono {acl other : Acl} {scope : Scope}
    (hkeys : ∀ key : Key, key.scope = scope → acl.hasKey key = true → other.hasKey key = true)
    (huses : acl.usesMask scope = true) : other.usesMask scope = true := by
  rw [usesMask_iff] at huses ⊢
  rcases huses with ⟨e, he, hscope, hnamed⟩ | hmask
  · obtain ⟨f, hf, hfe⟩ := hasKey_iff.mp (hkeys e.key hscope (hasKey_iff.mpr ⟨e, he, rfl⟩))
    simp only [Entry.key, Key.mk.injEq] at hfe
    obtain ⟨hfscope, hfkind, hfname⟩ := hfe
    refine Or.inl ⟨f, hf, hfscope.trans hscope, ?_⟩
    rw [isNamedSubject_iff] at hnamed ⊢
    rwa [hfkind, hfname]
  · exact Or.inr (hkeys (maskKey scope) rfl hmask)

/-- Lists with the same keys in a scope use a mask there together. -/
theorem usesMask_congr {acl other : Acl} {scope : Scope}
    (hkeys : ∀ key : Key, key.scope = scope → acl.hasKey key = other.hasKey key) :
    acl.usesMask scope = other.usesMask scope := by
  rw [Bool.eq_iff_iff]
  constructor
  · exact usesMask_mono fun key hkey hhas => by rwa [← hkeys key hkey]
  · exact usesMask_mono fun key hkey hhas => by rwa [hkeys key hkey]

/-! ## Fresh masks -/

/-- Refreshing a mask keeps the order. -/
theorem Ordered.refreshMask {acl : Acl} (h : acl.Ordered) (scope : Scope) :
    (acl.refreshMask scope).Ordered := by
  unfold Acl.refreshMask
  split
  · exact h.insert _
  · exact h

/-- Refreshing a mask sets the mask of the scope, if the scope uses one, and nothing else. -/
theorem Ordered.get?_refreshMask {acl : Acl} (h : acl.Ordered) (scope : Scope) (key : Key) :
    (acl.refreshMask scope).get? key =
      if key = maskKey scope ∧ acl.usesMask scope = true then some (acl.groupClass scope)
      else acl.get? key := by
  unfold Acl.refreshMask
  by_cases huses : acl.usesMask scope = true
  · rw [if_pos huses, h.get?_insert]
    have hkey : (⟨scope, .mask, [], acl.groupClass scope⟩ : Entry).key = maskKey scope := rfl
    rw [hkey]
    by_cases hmask : key = maskKey scope
    · simp [hmask, huses]
    · rw [if_neg fun heq => hmask heq.symm, if_neg fun hand => hmask hand.1]
  · rw [if_neg huses, if_neg fun hand => huses hand.2]

/-- The list with fresh masks in some scopes. -/
def refreshWhere (acl : Acl) (stale : Scope → Bool) : Acl :=
  Scope.all.foldl (fun table scope => if stale scope then table.refreshMask scope else table) acl

/-- Refreshing masks keeps the order. -/
theorem Ordered.refreshWhere {acl : Acl} (h : acl.Ordered) (stale : Scope → Bool) :
    (acl.refreshWhere stale).Ordered := by
  have hstep : ∀ {table : Acl} (scope : Scope), table.Ordered →
      Ordered (if stale scope then table.refreshMask scope else table) := by
    intro table scope htable
    split
    · exact htable.refreshMask scope
    · exact htable
  exact hstep .default (hstep .access h)

/-- Where a scope is stale and uses a mask, its mask is the group class. Nothing else changes. -/
theorem Ordered.get?_refreshWhere {acl : Acl} (h : acl.Ordered) (stale : Scope → Bool)
    (key : Key) :
    (acl.refreshWhere stale).get? key =
      if key = maskKey key.scope ∧ stale key.scope = true ∧ acl.usesMask key.scope = true then
        some (acl.groupClass key.scope)
      else acl.get? key := by
  have hstep : ∀ {table : Acl} (scope : Scope), table.Ordered → ∀ key : Key,
      get? (if stale scope then table.refreshMask scope else table) key =
        if key = maskKey scope ∧ stale scope = true ∧ table.usesMask scope = true then
          some (table.groupClass scope)
        else table.get? key := by
    intro table scope htable key
    by_cases hstale : stale scope = true
    · rw [if_pos hstale, htable.get?_refreshMask]
      simp [hstale]
    · rw [if_neg hstale, if_neg fun hand => hstale hand.2.1]
  let middle : Acl := if stale .access then acl.refreshMask .access else acl
  have hmiddle : middle.Ordered := by
    unfold middle
    split
    · exact h.refreshMask _
    · exact h
  -- Refreshing the access mask first leaves the default scope as it is.
  have hsame : ∀ key : Key, key.scope = .default → middle.get? key = acl.get? key := by
    intro key hkey
    have hne : key ≠ maskKey .access := by
      rintro rfl
      cases hkey
    rw [hstep .access h, if_neg fun hand => hne hand.1]
  have huses : middle.usesMask .default = acl.usesMask .default :=
    usesMask_congr fun key hkey => by
      rw [hasKey_eq_isSome, hasKey_eq_isSome, hsame key hkey]
  have hclass : middle.groupClass .default = acl.groupClass .default :=
    groupClass_congr hmiddle h fun key hkey _ => hsame key hkey
  have hwhole : (acl.refreshWhere stale).get? key =
      if key = maskKey .default ∧ stale .default = true ∧ acl.usesMask .default = true then
        some (acl.groupClass .default)
      else middle.get? key := by
    rw [← huses, ← hclass]
    exact hstep .default hmiddle key
  rw [hwhole, hstep .access h]
  obtain ⟨scope, kind, name⟩ := key
  cases scope <;> simp [maskKey]

/-! ## Copied default entries -/

/-- What is copied is an unnamed default entry of a base kind that the list lacks, with the
permission of the access entry of its kind. -/
theorem mem_missingDefaults_iff {acl : Acl} {e : Entry} :
    e ∈ acl.missingDefaults ↔
      acl.hasDefault = true ∧ e.kind ∈ Kind.base ∧ e.key = ⟨.default, e.kind, []⟩ ∧
        acl.hasKey e.key = false ∧ acl.get? ⟨.access, e.kind, []⟩ = some e.permission := by
  by_cases hdefault : acl.hasDefault = true
  · rw [missingDefaults, if_pos hdefault, List.mem_filterMap]
    simp only [hdefault, true_and]
    constructor
    · rintro ⟨kind, hkind, hentry⟩
      by_cases hkey : acl.hasKey ⟨.default, kind, []⟩ = true
      · simp [hkey] at hentry
      · rw [if_neg hkey] at hentry
        obtain ⟨permission, hget, rfl⟩ := Option.map_eq_some_iff.mp hentry
        exact ⟨hkind, rfl, by simpa [Entry.key] using hkey, hget⟩
    · rintro ⟨hkind, hkey, hhas, hget⟩
      rw [hkey] at hhas
      refine ⟨e.kind, hkind, ?_⟩
      rw [if_neg (by simp [hhas]), hget]
      exact congrArg some (Entry.eq_of_key hkey.symm rfl)
  · simp [missingDefaults, hdefault]

/-- The list together with the default entries that it lacks. -/
def filled (acl : Acl) : Acl :=
  acl.insertAll acl.missingDefaults

/-- A list that lacks no default entry is already filled. -/
theorem filled_of_missingDefaults {acl : Acl} (h : acl.missingDefaults = []) :
    acl.filled = acl := by
  rw [filled, h]
  rfl

/-- Filling keeps the order. -/
theorem Ordered.filled {acl : Acl} (h : acl.Ordered) : acl.filled.Ordered :=
  h.insertAll _

/-- Filling leaves what the list gives to its own keys. -/
theorem Ordered.get?_filled_of_hasKey {acl : Acl} (h : acl.Ordered) {key : Key}
    (hkey : acl.hasKey key = true) : acl.filled.get? key = acl.get? key := by
  have hnone : get? acl.missingDefaults key = none := by
    rw [get?_eq_none_iff]
    intro e he heq
    obtain ⟨-, -, -, hhas, -⟩ := mem_missingDefaults_iff.mp he
    rw [heq, hkey] at hhas
    cases hhas
  rw [Acl.filled, h.get?_insertAll, hnone, Option.none_or]

/-- Filling adds unnamed default entries of base kinds only. -/
theorem Ordered.get?_filled_of_ne {acl : Acl} (h : acl.Ordered) {key : Key}
    (hkey : ∀ kind ∈ Kind.base, key ≠ ⟨.default, kind, []⟩) :
    acl.filled.get? key = acl.get? key := by
  have hnone : get? acl.missingDefaults key = none := by
    rw [get?_eq_none_iff]
    intro e he heq
    obtain ⟨-, hkind, hcopy, -⟩ := mem_missingDefaults_iff.mp he
    exact hkey e.kind hkind (heq.symm.trans hcopy)
  rw [Acl.filled, h.get?_insertAll, hnone, Option.none_or]

/-- A mask has no base kind, so filling leaves masks as they are. -/
theorem Ordered.get?_filled_maskKey {acl : Acl} (h : acl.Ordered) (scope : Scope) :
    acl.filled.get? (maskKey scope) = acl.get? (maskKey scope) := by
  refine h.get?_filled_of_ne fun kind hkind heq => ?_
  simp only [maskKey, Key.mk.injEq] at heq
  rw [← heq.2.1] at hkind
  exact absurd hkind (by decide)

/-! ## The completion as a whole -/

/-- Whether the completion takes the mask of a scope afresh: the scope changed, by the change
itself or by copied entries, and no mask was given for it. -/
def isStale (acl : Acl) (changed given : Scope → Bool) (scope : Scope) : Bool :=
  (changed scope || (scope = .default && !acl.missingDefaults.isEmpty)) && !given scope

/-- The completion fills the list and refreshes the masks of its stale scopes. -/
theorem completed_eq (acl : Acl) (changed given : Scope → Bool) :
    acl.completed changed given = acl.filled.refreshWhere (acl.isStale changed given) :=
  rfl

/-- The completion of an ordered list is in order. -/
theorem Ordered.completed {acl : Acl} (h : acl.Ordered) (changed given : Scope → Bool) :
    (acl.completed changed given).Ordered :=
  h.filled.refreshWhere _

/-- Apart from masks, the completion is the filled list. -/
theorem Ordered.get?_completed_of_ne {acl : Acl} (h : acl.Ordered) (changed given : Scope → Bool)
    {key : Key} (hkey : key ≠ maskKey key.scope) :
    (acl.completed changed given).get? key = acl.filled.get? key := by
  rw [completed_eq, h.filled.get?_refreshWhere, if_neg fun hand => hkey hand.1]

/-- The mask of a scope after the completion. -/
theorem Ordered.get?_completed_maskKey {acl : Acl} (h : acl.Ordered)
    (changed given : Scope → Bool) (scope : Scope) :
    (acl.completed changed given).get? (maskKey scope) =
      if acl.isStale changed given scope = true ∧ acl.filled.usesMask scope = true then
        some (acl.filled.groupClass scope)
      else acl.get? (maskKey scope) := by
  rw [completed_eq, h.filled.get?_refreshWhere, h.get?_filled_maskKey]
  simp [maskKey]

/-- The completion keeps every key. -/
theorem Ordered.hasKey_completed {acl : Acl} (h : acl.Ordered) (changed given : Scope → Bool)
    {key : Key} (hkey : acl.hasKey key = true) :
    (acl.completed changed given).hasKey key = true := by
  rw [hasKey_eq_isSome, completed_eq, h.filled.get?_refreshWhere]
  split
  · rfl
  · rw [h.get?_filled_of_hasKey hkey, ← hasKey_eq_isSome]
    exact hkey

/-! ## Lists without an error -/

/-- A scope is in order exactly if it is the empty default scope, or it is not too large and has
its base entries. -/
theorem scopeError?_eq_none_iff {acl : Acl} {scope : Scope} :
    acl.scopeError? scope = none ↔
      (scope = .default ∧ acl.count scope = 0) ∨
        (acl.count scope ≤ maxEntries ∧ acl.hasBase scope = true) := by
  unfold scopeError?
  by_cases hempty : scope = .default ∧ acl.count scope = 0
  · rw [if_pos hempty]
    exact iff_of_true rfl (Or.inl hempty)
  · rw [if_neg hempty]
    by_cases hcount : maxEntries < acl.count scope
    · rw [if_pos hcount]
      refine iff_of_false (by simp) ?_
      rintro (h | ⟨hle, -⟩)
      · exact hempty h
      · omega
    · rw [if_neg hcount]
      by_cases hbase : acl.hasBase scope = true
      · rw [if_pos hbase]
        exact iff_of_true rfl (Or.inr ⟨by omega, hbase⟩)
      · rw [if_neg hbase]
        refine iff_of_false (by simp) ?_
        rintro (h | ⟨-, h⟩)
        · exact hempty h
        · exact hbase h

/-- A list has no error exactly if no entry is misnamed and both scopes are in order. -/
theorem error?_eq_none_iff {acl : Acl} :
    acl.error? = none ↔
      (∀ e ∈ acl, isMisnamed e = false) ∧ ∀ scope, acl.scopeError? scope = none := by
  unfold error?
  cases hfind : acl.find? isMisnamed with
  | some e =>
    have hnamed := List.find?_some hfind
    have hmem := List.mem_of_find?_eq_some hfind
    refine iff_of_false (by simp) fun hboth => ?_
    rw [hboth.1 e hmem] at hnamed
    cases hnamed
  | none =>
    have hnone : ∀ e ∈ acl, isMisnamed e = false := by simpa using hfind
    constructor
    · intro hfirst
      have hscopes : ∀ scope ∈ Scope.all, acl.scopeError? scope = none := by
        simpa [List.findSome?_eq_none_iff] using hfirst
      exact ⟨hnone, fun scope => hscopes scope (by cases scope <;> decide)⟩
    · rintro ⟨-, hscopes⟩
      exact List.findSome?_eq_none_iff.mpr fun scope _ => hscopes scope

/-- A completion succeeds exactly if its result has no error. -/
theorem complete_eq_ok_iff {acl result : Acl} {changed given : Scope → Bool} :
    acl.complete changed given = .ok result ↔
      acl.completed changed given = result ∧ result.error? = none := by
  unfold complete
  cases herror : (acl.completed changed given).error? with
  | none =>
    simp only [herror, Except.ok.injEq]
    constructor
    · rintro rfl
      exact ⟨rfl, herror⟩
    · exact fun h => h.1
  | some error =>
    simp only [herror, reduceCtorEq, false_iff]
    rintro ⟨rfl, hnone⟩
    rw [herror] at hnone
    cases hnone

/-! ## Repeated keys -/

/-- No entry is repeated exactly if all keys are different, and different from those seen before. -/
private theorem firstRepeatedAfter_eq_none_iff {seen : List Key} {entries : List Entry} :
    firstRepeatedAfter seen entries = none ↔
      (entries.map Entry.key).Nodup ∧ ∀ e ∈ entries, e.key ∉ seen := by
  induction entries generalizing seen with
  | nil => simp [firstRepeatedAfter]
  | cons e rest ih =>
    rw [firstRepeatedAfter]
    by_cases hseen : e.key ∈ seen
    · rw [if_pos hseen]
      refine iff_of_false (by simp) fun hboth => ?_
      exact hboth.2 e List.mem_cons_self hseen
    · rw [if_neg hseen, ih, List.map_cons, List.nodup_cons]
      constructor
      · rintro ⟨hnodup, hnew⟩
        refine ⟨⟨fun hmem => ?_, hnodup⟩, fun f hf => ?_⟩
        · obtain ⟨f, hf, hkey⟩ := List.mem_map.mp hmem
          exact hnew f hf (hkey ▸ List.mem_cons_self)
        · rcases List.mem_cons.mp hf with rfl | hf
          · exact hseen
          · exact fun hold => hnew f hf (List.mem_cons_of_mem _ hold)
      · rintro ⟨⟨hfirst, hnodup⟩, hnew⟩
        refine ⟨hnodup, fun f hf hold => ?_⟩
        rcases List.mem_cons.mp hold with hkey | hold
        · exact hfirst (hkey ▸ List.mem_map_of_mem hf)
        · exact hnew f (List.mem_cons_of_mem _ hf) hold

/-- No entry of a list is repeated exactly if all keys are different. -/
theorem firstRepeated?_eq_none_iff {entries : List Entry} :
    firstRepeated? entries = none ↔ (entries.map Entry.key).Nodup := by
  simp [firstRepeated?, firstRepeatedAfter_eq_none_iff]

end Acl

end PosixAcl
