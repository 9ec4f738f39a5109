import PosixAcl.Proofs.Acl.Merging

/-!
# Candidates

Before a change is checked it has made a candidate: a table of entries in which
missing default entries are copied and the masks of some scopes are taken afresh.
Here candidates are described by what they give to each key, without the steps that
lead there. The description fits one list only, and it is kept when the table is
given by another list with the same permissions.
-/

namespace PosixAcl

namespace Permission

/-- The rights of a permission. -/
def rights : List (Permission → Bool) := [read, write, execute]

/-- A permission is the union of others if it has just the rights that are in one of them. -/
def IsUnion (p : Permission) (parts : Permission → Prop) : Prop :=
  ∀ right ∈ rights, right p = true ↔ ∃ q, parts q ∧ right q = true

/-- Permissions with the same rights are equal. -/
theorem eq_of_rights {p q : Permission} (h : ∀ right ∈ rights, right p = right q) : p = q := by
  obtain ⟨read, write, execute⟩ := p
  obtain ⟨read', write', execute'⟩ := q
  simpa [rights] using h

/-- There is only one union. -/
theorem IsUnion.unique {p q : Permission} {parts : Permission → Prop} (hp : p.IsUnion parts)
    (hq : q.IsUnion parts) : p = q :=
  eq_of_rights fun right hright => Bool.eq_iff_iff.mpr <|
    (hp right hright).trans (hq right hright).symm

/-- Each right of a union is a right of one of the two parts. -/
theorem right_union {right : Permission → Bool} (hright : right ∈ rights) (p q : Permission) :
    right (p.union q) = (right p || right q) := by
  simp only [rights, List.mem_cons, List.not_mem_nil, or_false] at hright
  rcases hright with rfl | rfl | rfl <;> rfl

/-- The empty permission has no right. -/
theorem right_empty {right : Permission → Bool} (hright : right ∈ rights) :
    right .empty = false := by
  simp only [rights, List.mem_cons, List.not_mem_nil, or_false] at hright
  rcases hright with rfl | rfl | rfl <;> rfl

/-- A union of several permissions has the rights that it starts with and those of each part. -/
theorem right_foldl_union {right : Permission → Bool} (hright : right ∈ rights)
    (start : Permission) (entries : List Entry) :
    right (entries.foldl (fun union e => union.union e.permission) start) = true ↔
      right start = true ∨ ∃ e ∈ entries, right e.permission = true := by
  induction entries generalizing start with
  | nil => simp
  | cons e rest ih =>
    rw [List.foldl_cons, ih, right_union hright, Bool.or_eq_true, or_assoc]
    simp only [List.exists_mem_cons_iff]

end Permission

namespace Acl

variable {acl other : Acl}

/-! ## What is bounded, named and copied -/

/-- The permissions in a scope that its mask bounds: those of all groups and of named users. -/
def Bounded (acl : Acl) (scope : Scope) (p : Permission) : Prop :=
  ∃ e ∈ acl, e.scope = scope ∧ (e.kind = .group ∨ e.kind = .user ∧ e.name ≠ []) ∧
    e.permission = p

/-- A scope has a named user or a named group. -/
def NamesSubject (acl : Acl) (scope : Scope) : Prop :=
  ∃ e ∈ acl, e.scope = scope ∧ (e.kind = .user ∨ e.kind = .group) ∧ e.name ≠ []

/-- The permission that a key would be given by copying: where there is any default entry, an
unnamed default entry of a base kind would take over that of its access counterpart. -/
def copied? (acl : Acl) (key : Key) : Option Permission :=
  if acl.hasDefault = true ∧ key.scope = .default ∧ key.kind ∈ Kind.base ∧ key.name = [] then
    acl.get? ⟨.access, key.kind, []⟩
  else none

/-- A missing entry of a scope is copied. -/
def CopiesInto (acl : Acl) (scope : Scope) : Prop :=
  ∃ key : Key, key.scope = scope ∧ acl.hasKey key = false ∧ acl.copied? key ≠ none

/-- The group class is the union of what the mask bounds. -/
theorem isUnion_groupClass (acl : Acl) (scope : Scope) :
    (acl.groupClass scope).IsUnion (acl.Bounded scope) := by
  intro right hright
  rw [groupClass, Permission.right_foldl_union hright, Permission.right_empty hright]
  simp only [Bool.false_eq_true, false_or, List.mem_filter, Bool.and_eq_true, decide_eq_true_eq]
  have hmasked : ∀ e : Entry,
      isMasked e = true ↔ e.kind = .group ∨ e.kind = .user ∧ e.name ≠ [] := by
    simp [isMasked, Entry.isUnnamed]
  simp only [hmasked]
  constructor
  · rintro ⟨e, ⟨he, hscope, hkind⟩, hin⟩
    exact ⟨_, ⟨e, he, hscope, hkind, rfl⟩, hin⟩
  · rintro ⟨_, ⟨e, he, hscope, hkind, rfl⟩, hin⟩
    exact ⟨e, ⟨he, hscope, hkind⟩, hin⟩

/-- Whether a scope names a subject is seen from the keys. -/
theorem namesSubject_iff_hasKey {scope : Scope} :
    acl.NamesSubject scope ↔
      ∃ key : Key, key.scope = scope ∧ (key.kind = .user ∨ key.kind = .group) ∧ key.name ≠ [] ∧
        acl.hasKey key = true := by
  constructor
  · rintro ⟨e, he, hscope, hkind, hname⟩
    exact ⟨e.key, hscope, hkind, hname, hasKey_iff.mpr ⟨e, he, rfl⟩⟩
  · rintro ⟨key, hscope, hkind, hname, hkey⟩
    obtain ⟨e, he, rfl⟩ := hasKey_iff.mp hkey
    exact ⟨e, he, hscope, hkind, hname⟩

/-- Lists that have the same keys with a name name the same subjects. -/
theorem namesSubject_congr {scope : Scope}
    (hkeys : ∀ key : Key, key.name ≠ [] → acl.hasKey key = other.hasKey key) :
    acl.NamesSubject scope ↔ other.NamesSubject scope := by
  rw [namesSubject_iff_hasKey, namesSubject_iff_hasKey]
  refine exists_congr fun key => and_congr_right fun _ => and_congr_right fun _ =>
    and_congr_right fun hname => ?_
  rw [hkeys key hname]

/-- A scope uses a mask exactly if it names a subject or has a mask. -/
theorem usesMask_iff_namesSubject {scope : Scope} :
    acl.usesMask scope = true ↔ acl.NamesSubject scope ∨ acl.hasKey (maskKey scope) = true := by
  rw [usesMask_iff]
  simp only [isNamedSubject_iff]
  rfl

/-- The default scope gets copies exactly if default entries are missing. No other scope does. -/
theorem copiesInto_iff {scope : Scope} :
    acl.CopiesInto scope ↔ scope = .default ∧ acl.missingDefaults ≠ [] := by
  constructor
  · rintro ⟨⟨_, kind, name⟩, rfl, hkey, hcopied⟩
    unfold copied? at hcopied
    split at hcopied
    · rename_i hcopy
      obtain ⟨hdefault, rfl, hkind, rfl⟩ := hcopy
      obtain ⟨permission, hget⟩ := Option.ne_none_iff_exists'.mp hcopied
      refine ⟨rfl, List.ne_nil_of_mem (a := ⟨.default, kind, [], permission⟩) ?_⟩
      exact mem_missingDefaults_iff.mpr ⟨hdefault, hkind, rfl, hkey, hget⟩
    · exact absurd rfl hcopied
  · rintro ⟨rfl, hmissing⟩
    obtain ⟨e, he⟩ := List.exists_mem_of_ne_nil _ hmissing
    obtain ⟨hdefault, hkind, hkey, hnot, hget⟩ := mem_missingDefaults_iff.mp he
    refine ⟨⟨.default, e.kind, []⟩, rfl, hkey ▸ hnot, ?_⟩
    rw [copied?, if_pos ⟨hdefault, rfl, hkind, rfl⟩, hget]
    exact Option.some_ne_none _

/-- Filling a list gives a key what the list gives to it, or else a copy. -/
theorem Ordered.get?_filled (h : acl.Ordered) (key : Key) :
    acl.filled.get? key = (acl.get? key).or (acl.copied? key) := by
  have hcopies : ∀ e ∈ acl.missingDefaults, acl.copied? e.key = some e.permission := by
    intro e he
    obtain ⟨hdefault, hkind, hkey, -, hget⟩ := mem_missingDefaults_iff.mp he
    rw [hkey, copied?, if_pos ⟨hdefault, rfl, hkind, rfl⟩, hget]
  cases hold : acl.get? key with
  | some permission =>
    have hkey : acl.hasKey key = true := by rw [hasKey_eq_isSome, hold, Option.isSome_some]
    rw [h.get?_filled_of_hasKey hkey, hold, Option.some_or]
  | none =>
    rw [Acl.filled, h.get?_insertAll, hold, Option.or_none, Option.none_or]
    cases hput : get? acl.missingDefaults key with
    | some permission =>
      obtain ⟨e, he, rfl, rfl⟩ := exists_mem_of_get? hput
      exact (hcopies e he).symm
    | none =>
      symm
      by_contra hcopied
      -- A key that would be copied and is not there is among the missing ones.
      have hhas : acl.hasKey key = false := by rw [hasKey_eq_isSome, hold, Option.isSome_none]
      have hcopy := hcopied
      unfold copied? at hcopy
      split at hcopy
      · rename_i hbase
        obtain ⟨scope, kind, name⟩ := key
        obtain ⟨hdefault, rfl, hkind, rfl⟩ := hbase
        obtain ⟨permission, hget⟩ := Option.ne_none_iff_exists'.mp hcopy
        have hmem : (⟨.default, kind, [], permission⟩ : Entry) ∈ acl.missingDefaults :=
          mem_missingDefaults_iff.mpr ⟨hdefault, hkind, rfl, hhas, hget⟩
        exact get?_eq_none_iff.mp hput _ hmem rfl
      · exact hcopy rfl

/-- Filling a list names no further subject. -/
theorem Ordered.namesSubject_filled (h : acl.Ordered) {scope : Scope} :
    acl.filled.NamesSubject scope ↔ acl.NamesSubject scope :=
  namesSubject_congr fun _ hname =>
    hasKey_congr (h.get?_filled_of_ne fun _ _ heq => hname (congrArg Key.name heq))

/-! ## Candidates of a table -/

/-- The list that a change makes of a table, before it is checked. The change touched some scopes,
and for some of them it gave a mask. -/
structure Candidate (table : Acl) (touched given : Scope → Prop) (result : Acl) : Prop where
  /-- The keys ascend strictly. -/
  ordered : result.Ordered
  /-- Apart from masks the table is taken over, and missing default entries are copied. -/
  get?_eq : ∀ key : Key, key ≠ maskKey key.scope →
    result.get? key = (table.get? key).or (table.copied? key)
  /-- A mask that was given stays, and so does that of a scope without any change. -/
  mask_kept : ∀ scope, given scope ∨ ¬ touched scope ∧ ¬ table.CopiesInto scope →
    result.get? (maskKey scope) = table.get? (maskKey scope)
  /-- Any other scope has a mask afterwards if it names a subject, or had a mask. -/
  mask_iff : ∀ scope, ¬ given scope → touched scope ∨ table.CopiesInto scope →
    (result.hasKey (maskKey scope) = true ↔
      table.NamesSubject scope ∨ table.hasKey (maskKey scope) = true)
  /-- This mask is the union of what it bounds. -/
  mask_isUnion : ∀ scope, ¬ given scope → touched scope ∨ table.CopiesInto scope →
    ∀ p, result.get? (maskKey scope) = some p → p.IsUnion (result.Bounded scope)

/-- A candidate keeps the mask of a scope, or the scope has a mask afterwards just if it names a
subject or had a mask. -/
theorem Candidate.mask_cases {table result : Acl} {touched given : Scope → Prop}
    (h : Candidate table touched given result) (scope : Scope) :
    result.get? (maskKey scope) = table.get? (maskKey scope) ∨
      (result.hasKey (maskKey scope) = true ↔
        table.NamesSubject scope ∨ table.hasKey (maskKey scope) = true) := by
  by_cases hgiven : given scope
  · exact Or.inl (h.mask_kept scope (Or.inl hgiven))
  by_cases hfresh : touched scope ∨ table.CopiesInto scope
  · exact Or.inr (h.mask_iff scope hgiven hfresh)
  · exact Or.inl (h.mask_kept scope (Or.inr (not_or.mp hfresh)))

/-- A candidate takes the keys with a name over, since none of them is copied. -/
theorem Candidate.get?_of_name {table result : Acl} {touched given : Scope → Prop}
    (h : Candidate table touched given result) {key : Key} (hname : key.name ≠ []) :
    result.get? key = table.get? key := by
  have hcopied : table.copied? key = none := if_neg fun hcopy => hname hcopy.2.2.2
  rw [h.get?_eq key fun heq => hname (congrArg Key.name heq), hcopied, Option.or_none]

/-- A candidate names the subjects that the table names. -/
theorem Candidate.namesSubject_iff {table result : Acl} {touched given : Scope → Prop}
    (h : Candidate table touched given result) {scope : Scope} :
    result.NamesSubject scope ↔ table.NamesSubject scope :=
  namesSubject_congr fun _ hname => hasKey_congr (h.get?_of_name hname)

/-- The completion of a list is a candidate of it. -/
theorem Ordered.candidate_completed (h : acl.Ordered) (changed given : Scope → Bool) :
    Candidate acl (changed · = true) (given · = true) (acl.completed changed given) := by
  have hstale : ∀ scope, acl.isStale changed given scope = true ↔
      ¬ given scope = true ∧ (changed scope = true ∨ acl.CopiesInto scope) := by
    intro scope
    rw [copiesInto_iff]
    simp [isStale, and_comm]
  have hget := h.get?_completed_maskKey changed given
  have hfilled : ∀ scope, acl.filled.hasKey (maskKey scope) = acl.hasKey (maskKey scope) :=
    fun scope => hasKey_congr (h.get?_filled_maskKey scope)
  refine ⟨h.completed changed given, fun key hkey => ?_, fun scope hkept => ?_,
    fun scope hnot hfresh => ?_, fun scope hnot hfresh p hp => ?_⟩
  · rw [h.get?_completed_of_ne changed given hkey, h.get?_filled]
  · rw [hget, if_neg]
    rintro ⟨hfresh, -⟩
    obtain ⟨hnot, htouched⟩ := (hstale scope).mp hfresh
    tauto
  · have huses : acl.filled.usesMask scope = true ↔
        acl.NamesSubject scope ∨ acl.hasKey (maskKey scope) = true := by
      rw [usesMask_iff_namesSubject, h.namesSubject_filled, hfilled]
    rw [hasKey_eq_isSome, hget, ← huses]
    by_cases hmask : acl.filled.usesMask scope = true
    · rw [if_pos ⟨(hstale scope).mpr ⟨hnot, hfresh⟩, hmask⟩]
      exact iff_of_true rfl hmask
    · rw [if_neg fun hboth => hmask hboth.2, ← hasKey_eq_isSome]
      refine iff_of_false (fun hkey => ?_) hmask
      exact hmask (huses.mpr (Or.inr hkey))
  · -- The group class does not depend on the masks, so it is that of the result.
    have hsame : acl.filled.groupClass scope =
        (acl.completed changed given).groupClass scope :=
      groupClass_congr h.filled (h.completed changed given) fun key _ hkind =>
        (h.get?_completed_of_ne changed given
          fun hmask => hkind (congrArg Key.kind hmask)).symm
    rw [hget] at hp
    split at hp
    · rw [← Option.some.inj hp, hsame]
      exact isUnion_groupClass _ scope
    · -- Without a fresh mask the scope uses none, so there is none to be kept either.
      rename_i hnone
      have hunused : ¬ acl.filled.usesMask scope = true :=
        fun hmask => hnone ⟨(hstale scope).mpr ⟨hnot, hfresh⟩, hmask⟩
      rw [usesMask_iff_namesSubject, hfilled, hasKey_eq_isSome, hp] at hunused
      exact absurd (Or.inr rfl) hunused

/-- What a mask bounds depends only on what the other keys of the scope have. -/
theorem Ordered.bounded_congr (h : acl.Ordered) (hother : other.Ordered) {scope : Scope}
    (hget : ∀ key : Key, key ≠ maskKey key.scope → acl.get? key = other.get? key) :
    acl.Bounded scope = other.Bounded scope := by
  have hmem : ∀ e : Entry, e.kind = .group ∨ e.kind = .user ∧ e.name ≠ [] →
      (e ∈ acl ↔ e ∈ other) := by
    intro e hkind
    have hmask : e.key ≠ maskKey e.key.scope := by
      intro heq
      have hmask : e.kind = .mask := congrArg Key.kind heq
      simp [hmask] at hkind
    rw [h.mem_iff, hother.mem_iff, hget e.key hmask]
  funext p
  refine propext (exists_congr fun e => ?_)
  constructor
  · rintro ⟨he, hscope, hkind, hp⟩
    exact ⟨(hmem e hkind).mp he, hscope, hkind, hp⟩
  · rintro ⟨he, hscope, hkind, hp⟩
    exact ⟨(hmem e hkind).mpr he, hscope, hkind, hp⟩

/-- There is only one candidate. -/
theorem Candidate.unique {table result second : Acl} {touched given : Scope → Prop}
    (h : Candidate table touched given result) (hsecond : Candidate table touched given second) :
    result = second := by
  have hsame : ∀ key : Key, key ≠ maskKey key.scope → result.get? key = second.get? key :=
    fun key hkey => (h.get?_eq key hkey).trans (hsecond.get?_eq key hkey).symm
  refine h.ordered.ext hsecond.ordered fun key => ?_
  by_cases hkey : key = maskKey key.scope
  · generalize key.scope = scope at hkey
    subst hkey
    by_cases hkept : given scope ∨ ¬ touched scope ∧ ¬ table.CopiesInto scope
    · rw [h.mask_kept scope hkept, hsecond.mask_kept scope hkept]
    · obtain ⟨hnot, hfresh⟩ : ¬ given scope ∧ (touched scope ∨ table.CopiesInto scope) := by
        tauto
      have hboth : result.hasKey (maskKey scope) = second.hasKey (maskKey scope) :=
        Bool.eq_iff_iff.mpr <|
          (h.mask_iff scope hnot hfresh).trans (hsecond.mask_iff scope hnot hfresh).symm
      rw [hasKey_eq_isSome, hasKey_eq_isSome] at hboth
      have hunion := h.mask_isUnion scope hnot hfresh
      have hunion' := hsecond.mask_isUnion scope hnot hfresh
      rw [h.ordered.bounded_congr hsecond.ordered hsame] at hunion
      cases hp : result.get? (maskKey scope) with
      | none =>
        rw [hp, Option.isSome_none, eq_comm, Option.isSome_eq_false_iff,
          Option.isNone_iff_eq_none] at hboth
        exact hboth.symm
      | some p =>
        rw [hp, Option.isSome_some, eq_comm, Option.isSome_iff_exists] at hboth
        obtain ⟨q, hq⟩ := hboth
        rw [hq, (hunion p hp).unique (hunion' q hq)]
  · exact hsame key hkey

/-- Lists that both have default entries or both have none, and have the same access base entries,
have the same copies. -/
theorem copied?_congr (hdefault : acl.hasDefault = other.hasDefault)
    (hbase : ∀ kind ∈ Kind.base, acl.get? ⟨.access, kind, []⟩ = other.get? ⟨.access, kind, []⟩)
    (key : Key) : acl.copied? key = other.copied? key := by
  rw [copied?, copied?, hdefault]
  split
  · rename_i hcopy
    exact hbase key.kind hcopy.2.2.1
  · rfl

/-- A candidate of a table is one of every list that gives the same permissions. What was touched
and given may be said in other words. -/
theorem Candidate.congr {table result : Acl} {touched given touched' given' : Scope → Prop}
    (h : Candidate table touched given result) (hget : ∀ key, table.get? key = other.get? key)
    (htouched : ∀ scope, touched scope ↔ touched' scope)
    (hgiven : ∀ scope, given scope ↔ given' scope) : Candidate other touched' given' result := by
  have hkeys : ∀ key, table.hasKey key = other.hasKey key := fun key => hasKey_congr (hget key)
  have hdefault : table.hasDefault = other.hasDefault := by
    rw [Bool.eq_iff_iff, hasDefault_iff_hasKey, hasDefault_iff_hasKey]
    simp only [hkeys]
  have hcopied := copied?_congr hdefault fun kind _ => hget ⟨.access, kind, []⟩
  have hcopies : ∀ scope, table.CopiesInto scope ↔ other.CopiesInto scope := by
    intro scope
    simp only [CopiesInto, hkeys, hcopied]
  have hnames : ∀ scope, table.NamesSubject scope ↔ other.NamesSubject scope := by
    intro scope
    simp only [namesSubject_iff_hasKey, hkeys]
  refine ⟨h.ordered, fun key hkey => ?_, fun scope hkept => ?_, fun scope hnot hfresh => ?_,
    fun scope hnot hfresh => ?_⟩
  · rw [h.get?_eq key hkey, hget, hcopied]
  · rw [← hgiven, ← htouched, ← hcopies] at hkept
    rw [h.mask_kept scope hkept, hget]
  · rw [← hgiven] at hnot
    rw [← htouched, ← hcopies] at hfresh
    rw [h.mask_iff scope hnot hfresh, hnames, hkeys]
  · rw [← hgiven] at hnot
    rw [← htouched, ← hcopies] at hfresh
    exact h.mask_isUnion scope hnot hfresh

/-! ## The candidates of the changes -/

variable {existing entries : List Entry}

/-- The candidate of merging is the existing list overridden by the entries. A scope is touched if
an entry is new in it or has another permission. -/
theorem candidate_merged (existing entries : List Entry) :
    Candidate (existing ++ entries)
      (fun scope => ∃ e ∈ entries, e.scope = scope ∧ get? existing e.key ≠ some e.permission)
      (fun scope => ∃ e ∈ entries, e.scope = scope ∧ e.kind = .mask)
      ((ofEntries existing).merged entries) := by
  have htable := ordered_ofEntries existing
  refine ((htable.insertAll entries).candidate_completed _ _).congr (fun key => ?_)
    (fun scope => ?_) fun scope => ?_
  · rw [htable.get?_insertAll, get?_ofEntries, get?_append]
  · simp only [changedBy, List.any_eq_true, Bool.and_eq_true, decide_eq_true_eq, get?_ofEntries]
  · simp only [givesMask, List.any_eq_true, Bool.and_eq_true, decide_eq_true_eq]

/-- Entries without a mask for a scope leave its mask. -/
theorem get?_append_maskKey {scope : Scope}
    (hnone : ∀ e ∈ entries, e.scope = scope → e.kind ≠ .mask) :
    get? (existing ++ entries) (maskKey scope) = get? existing (maskKey scope) := by
  have hlacks : get? entries (maskKey scope) = none :=
    get?_eq_none_iff.mpr fun e he hkey =>
      hnone e he (congrArg Key.scope hkey) (congrArg Key.kind hkey)
  rw [get?_append, hlacks, Option.none_or]

/-- Adding entries recalculates the mask of a scope that they change. The scope has one afterwards
if it names a subject or had a mask, and it is the union of what it bounds. -/
theorem Additions.mask_merged (h : Additions acl entries) {scope : Scope}
    (hchanged : acl.changedBy entries scope = true) :
    ((acl.merged entries).hasKey (maskKey scope) = true ↔
      (acl.merged entries).NamesSubject scope ∨ acl.hasKey (maskKey scope) = true) ∧
    ∀ p, (acl.merged entries).get? (maskKey scope) = some p →
      p.IsUnion ((acl.merged entries).Bounded scope) := by
  have hcandidate := candidate_merged acl entries
  rw [h.ordered.ofEntries_eq] at hcandidate
  have hgiven : ¬ ∃ e ∈ entries, e.scope = scope ∧ e.kind = .mask := by
    rintro ⟨e, he, -, hmask⟩
    exact h.noMask e he hmask
  have htouched : ∃ e ∈ entries, e.scope = scope ∧ acl.get? e.key ≠ some e.permission := by
    simpa [changedBy] using hchanged
  refine ⟨?_, hcandidate.mask_isUnion scope hgiven (Or.inl htouched)⟩
  rw [hcandidate.mask_iff scope hgiven (Or.inl htouched), hcandidate.namesSubject_iff,
    hasKey_congr (get?_append_maskKey fun e he _ => h.noMask e he)]

/-- Whether removing entries changes a scope: one of their keys occurs in it. -/
def loses (acl : Acl) (entries : List Entry) (scope : Scope) : Bool :=
  entries.any fun e => e.scope = scope && acl.hasKey e.key

/-- The list that removing entries gives, before it is checked. -/
def removed (acl : Acl) (entries : List Entry) : Acl :=
  (acl.eraseAll entries).completed (acl.loses entries) fun _ => false

/-- A scope loses an entry exactly if one of its keys occurs in both lists. -/
theorem loses_iff {scope : Scope} :
    acl.loses entries scope = true ↔
      ∃ key : Key, key.scope = scope ∧ hasKey entries key = true ∧ acl.hasKey key = true := by
  simp only [loses, List.any_eq_true, Bool.and_eq_true, decide_eq_true_eq]
  constructor
  · rintro ⟨e, he, hscope, hkey⟩
    exact ⟨e.key, hscope, hasKey_iff.mpr ⟨e, he, rfl⟩, hkey⟩
  · rintro ⟨key, hscope, hin, hkey⟩
    obtain ⟨e, he, rfl⟩ := hasKey_iff.mp hin
    exact ⟨e, he, hscope, hkey⟩

/-- The candidate of removing is what is left of the existing list. A scope is touched if it loses
an entry. -/
theorem candidate_removed (existing entries : List Entry) :
    Candidate (eraseAll existing entries)
      (fun scope => ∃ key : Key, key.scope = scope ∧ hasKey entries key = true ∧
        hasKey existing key = true)
      (fun _ => False) ((ofEntries existing).removed entries) := by
  have htable := ordered_ofEntries existing
  have hkeys : ∀ key, (ofEntries existing).hasKey key = hasKey existing key :=
    fun key => hasKey_congr (get?_ofEntries existing key)
  refine ((htable.eraseAll entries).candidate_completed _ _).congr (fun key => ?_)
    (fun scope => ?_) fun scope => ?_
  · rw [get?_eraseAll, get?_eraseAll, get?_ofEntries]
  · rw [loses_iff]
    simp only [hkeys]
  · exact iff_of_false Bool.false_ne_true id

/-- Removing succeeds with the candidate of what is left, if that has no error. -/
theorem remove_eq_ok_iff {result : Acl} :
    remove existing entries = .ok result ↔
      Candidate (eraseAll existing entries) (loses existing entries · = true) (fun _ => False)
        result ∧ result.error? = none := by
  have hcandidate : Candidate (eraseAll existing entries) (loses existing entries · = true)
      (fun _ => False) ((ofEntries existing).removed entries) :=
    (candidate_removed existing entries).congr (fun _ => rfl) (fun _ => loses_iff.symm)
      fun _ => Iff.rfl
  have hok : remove existing entries = .ok result ↔
      (ofEntries existing).removed entries = result ∧ result.error? = none :=
    complete_eq_ok_iff
  rw [hok]
  refine and_congr_left fun _ => ⟨?_, fun hother => hcandidate.unique hother⟩
  rintro rfl
  exact hcandidate

/-- The list that replacing by some entries gives, before it is checked. -/
def replaced (entries : List Entry) : Acl :=
  (ofEntries entries).completed (fun _ => true) (givesMask entries)

/-- The candidate of replacing is made of the entries alone. Every scope is touched. -/
theorem candidate_replaced (entries : List Entry) :
    Candidate entries (fun _ => True)
      (fun scope => ∃ e ∈ entries, e.scope = scope ∧ e.kind = .mask) (replaced entries) := by
  refine ((ordered_ofEntries entries).candidate_completed _ _).congr (get?_ofEntries entries)
    (fun scope => iff_of_true rfl trivial) fun scope => ?_
  simp only [givesMask, List.any_eq_true, Bool.and_eq_true, decide_eq_true_eq]

end Acl

end PosixAcl
