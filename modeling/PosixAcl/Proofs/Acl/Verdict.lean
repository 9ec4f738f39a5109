import PosixAcl.Proofs.Acl.Candidate

/-!
# Verdicts

Merging, removing and replacing are refused if the entries repeat a key. Otherwise
they make a candidate, and a verdict on it: it is refused for its first misnamed
entry, or for the size or the lack of base entries of a scope, or it is accepted as
it stands. The default scope is never found incomplete, since a complete access
scope has filled it.
-/

namespace PosixAcl.Acl

variable {acl table : Acl} {existing entries : List Entry} {touched given : Scope → Prop}

/-- A mask or an entry for the others that has a name. -/
def Misnamed (e : Entry) : Prop :=
  (e.kind = .mask ∨ e.kind = .other) ∧ e.name ≠ []

/-- The verdict on a candidate. Of several misnamed entries the least one is named, and the access
scope is looked at before the default scope. -/
inductive Verdict (acl : Acl) : Except AclError Acl → Prop where
  | misnamed {e : Entry} (hmem : e ∈ acl) (hmisnamed : Misnamed e)
      (hleast : ∀ f ∈ acl, Misnamed f → e.order ≤ f.order) :
      Verdict acl (.error (.namedEntryNotAllowed e))
  | accessTooLarge (hnames : ∀ e ∈ acl, ¬ Misnamed e) (haccess : maxEntries < acl.count .access) :
      Verdict acl (.error (.tooManyEntries .access (acl.count .access)))
  | accessIncomplete (hnames : ∀ e ∈ acl, ¬ Misnamed e) (haccess : acl.count .access ≤ maxEntries)
      {kind : Kind} (hkind : kind ∈ Kind.base) (hlacks : acl.hasKey ⟨.access, kind, []⟩ = false) :
      Verdict acl (.error (.missingBaseEntries .access))
  | defaultTooLarge (hnames : ∀ e ∈ acl, ¬ Misnamed e) (haccess : acl.count .access ≤ maxEntries)
      (hbase : ∀ kind ∈ Kind.base, acl.hasKey ⟨.access, kind, []⟩ = true)
      (hdefault : maxEntries < acl.count .default) :
      Verdict acl (.error (.tooManyEntries .default (acl.count .default)))
  | accepted (hnames : ∀ e ∈ acl, ¬ Misnamed e) (haccess : acl.count .access ≤ maxEntries)
      (hbase : ∀ kind ∈ Kind.base, acl.hasKey ⟨.access, kind, []⟩ = true)
      (hdefault : acl.count .default ≤ maxEntries) :
      Verdict acl (.ok acl)

/-- A list if nothing is wrong with it, and otherwise the error. -/
def checked (acl : Acl) : Except AclError Acl :=
  match acl.error? with
  | some error => .error error
  | none => .ok acl

/-! ## The checks of one list -/

/-- In an ordered list the first misnamed entry is the least one. -/
theorem Ordered.find?_isMisnamed (h : acl.Ordered) {e : Entry} (hmem : e ∈ acl)
    (hmisnamed : Misnamed e) (hleast : ∀ f ∈ acl, Misnamed f → e.order ≤ f.order) :
    acl.find? isMisnamed = some e := by
  obtain ⟨before, after, rfl⟩ := List.append_of_mem hmem
  refine List.find?_eq_some_iff_append.mpr ⟨isMisnamed_iff.mpr hmisnamed, before, after, rfl, ?_⟩
  intro f hf
  rw [Bool.not_eq_true', Bool.eq_false_iff]
  intro hother
  have hlt := Entry.order_lt_of_key ((List.pairwise_append.mp h).2.2 f hf e List.mem_cons_self)
  exact not_lt_of_ge (hleast f (List.mem_append_left _ hf) (isMisnamed_iff.mp hother)) hlt

/-- An ordered list with a misnamed entry has a least one. -/
theorem Ordered.exists_least_misnamed (h : acl.Ordered) (hany : ∃ e ∈ acl, Misnamed e) :
    ∃ e ∈ acl, Misnamed e ∧ ∀ f ∈ acl, Misnamed f → e.order ≤ f.order := by
  obtain ⟨found, hfound, hmisnamed⟩ := hany
  have hsome : (acl.find? isMisnamed).isSome = true :=
    List.find?_isSome.mpr ⟨found, hfound, isMisnamed_iff.mpr hmisnamed⟩
  obtain ⟨e, he⟩ := Option.isSome_iff_exists.mp hsome
  obtain ⟨hnamed, before, after, rfl, hbefore⟩ := List.find?_eq_some_iff_append.mp he
  refine ⟨e, List.mem_append_right _ List.mem_cons_self, isMisnamed_iff.mp hnamed,
    fun f hf hother => ?_⟩
  rcases List.mem_append.mp hf with hf | hf
  · have hnot := hbefore f hf
    rw [isMisnamed_iff.mpr hother] at hnot
    cases hnot
  · rcases List.mem_cons.mp hf with rfl | hf
    · exact le_refl _
    · have hafter := (List.pairwise_cons.mp (List.pairwise_append.mp h).2.1).1 f hf
      exact le_of_lt (Entry.order_lt_of_key hafter)

/-- Without a misnamed entry the scopes are checked one after the other. -/
theorem error?_of_names (hnames : ∀ e ∈ acl, ¬ Misnamed e) :
    acl.error? = (acl.scopeError? .access).or (acl.scopeError? .default) := by
  have hnone : acl.find? isMisnamed = none := by
    refine List.find?_eq_none.mpr fun e he hmisnamed => ?_
    exact hnames e he (isMisnamed_iff.mp hmisnamed)
  rw [error?, hnone]
  cases haccess : acl.scopeError? .access with
  | some error => simp [Scope.all, haccess]
  | none => cases hdefault : acl.scopeError? .default <;> simp [Scope.all, haccess, hdefault]

/-- A scope that is too large is refused with its size. -/
theorem scopeError?_of_lt {scope : Scope} (hcount : maxEntries < acl.count scope) :
    acl.scopeError? scope = some (.tooManyEntries scope (acl.count scope)) := by
  rw [scopeError?, if_neg (by omega), if_pos hcount]

/-- A complete scope that is not too large is in order. -/
theorem scopeError?_of_base {scope : Scope} (hcount : acl.count scope ≤ maxEntries)
    (hbase : ∀ kind ∈ Kind.base, acl.hasKey ⟨scope, kind, []⟩ = true) :
    acl.scopeError? scope = none :=
  scopeError?_eq_none_iff.mpr (Or.inr ⟨hcount, hasBase_iff.mpr hbase⟩)

/-- The verdict on an ordered list is what the checks say, if the default scope is empty or complete
wherever the access scope is complete. -/
theorem Verdict.checked_eq {result : Except AclError Acl} (hverdict : Verdict acl result)
    (h : acl.Ordered)
    (hfilled : (∀ kind ∈ Kind.base, acl.hasKey ⟨.access, kind, []⟩ = true) →
      acl.hasDefault = true → ∀ kind ∈ Kind.base, acl.hasKey ⟨.default, kind, []⟩ = true) :
    acl.checked = result := by
  cases hverdict with
  | misnamed hmem hmisnamed hleast =>
    rw [checked, error?, h.find?_isMisnamed hmem hmisnamed hleast]
  | accessTooLarge hnames haccess =>
    rw [checked, error?_of_names hnames, scopeError?_of_lt haccess]
    rfl
  | accessIncomplete hnames haccess hkind hlacks =>
    have hbase : ¬ acl.hasBase .access = true := by
      intro hbase
      rw [hasBase_iff.mp hbase _ hkind] at hlacks
      cases hlacks
    have herror : acl.scopeError? .access = some (.missingBaseEntries .access) := by
      rw [scopeError?, if_neg (by simp), if_neg (by omega), if_neg hbase]
    rw [checked, error?_of_names hnames, herror]
    rfl
  | defaultTooLarge hnames haccess hbase hdefault =>
    rw [checked, error?_of_names hnames, scopeError?_of_base haccess hbase,
      scopeError?_of_lt hdefault]
    rfl
  | accepted hnames haccess hbase hdefault =>
    have hnone : acl.scopeError? .default = none := by
      rw [scopeError?_eq_none_iff]
      cases hany : acl.hasDefault with
      | false => exact Or.inl ⟨rfl, count_default_eq_zero_iff.mpr hany⟩
      | true => exact Or.inr ⟨hdefault, hasBase_iff.mpr (hfilled hbase hany)⟩
    rw [checked, error?_of_names hnames, scopeError?_of_base haccess hbase, hnone]
    rfl

/-- There is a verdict on every ordered list. -/
theorem Ordered.exists_verdict (h : acl.Ordered) : ∃ result, Verdict acl result := by
  by_cases hany : ∃ e ∈ acl, Misnamed e
  · obtain ⟨e, he, hmisnamed, hleast⟩ := h.exists_least_misnamed hany
    exact ⟨_, .misnamed he hmisnamed hleast⟩
  have hnames : ∀ e ∈ acl, ¬ Misnamed e := fun e he hmisnamed => hany ⟨e, he, hmisnamed⟩
  by_cases haccess : maxEntries < acl.count .access
  · exact ⟨_, .accessTooLarge hnames haccess⟩
  by_cases hbase : ∀ kind ∈ Kind.base, acl.hasKey ⟨.access, kind, []⟩ = true
  · by_cases hdefault : maxEntries < acl.count .default
    · exact ⟨_, .defaultTooLarge hnames (by omega) hbase hdefault⟩
    · exact ⟨_, .accepted hnames (by omega) hbase (by omega)⟩
  · push Not at hbase
    obtain ⟨kind, hkind, hlacks⟩ := hbase
    exact ⟨_, .accessIncomplete hnames (by omega) hkind (Bool.eq_false_iff.mpr hlacks)⟩

/-! ## The checks of candidates -/

/-- A candidate has default entries only if its table has some. -/
theorem Candidate.hasDefault_table (h : Candidate table touched given acl)
    (hdefault : acl.hasDefault = true) : table.hasDefault = true := by
  obtain ⟨key, hscope, hkey⟩ := hasDefault_iff_hasKey.mp hdefault
  have hold : ∀ {key : Key}, key.scope = .default → table.hasKey key = true →
      table.hasDefault = true :=
    fun hscope hkey => hasDefault_iff_hasKey.mpr ⟨_, hscope, hkey⟩
  by_cases hmask : key = maskKey key.scope
  · rw [hscope] at hmask
    subst hmask
    rcases h.mask_cases .default with hkept | hmask
    · rw [hasKey_congr hkept] at hkey
      exact hold hscope hkey
    · rcases hmask.mp hkey with hnames | hkey
      · obtain ⟨other, hother, -, -, hin⟩ := namesSubject_iff_hasKey.mp hnames
        exact hold hother hin
      · exact hold hscope hkey
  · rw [hasKey_eq_isSome, h.get?_eq key hmask] at hkey
    cases hget : table.get? key with
    | some permission =>
      refine hold hscope ?_
      rw [hasKey_eq_isSome, hget, Option.isSome_some]
    | none =>
      rw [hget, Option.none_or, copied?] at hkey
      split at hkey
      · rename_i hcopy
        exact hcopy.1
      · cases hkey

/-- The key of a base entry is not that of a mask. -/
theorem ne_maskKey_of_base {kind : Kind} (hkind : kind ∈ Kind.base) (scope other : Scope) :
    (⟨scope, kind, []⟩ : Key) ≠ maskKey other := by
  intro heq
  rw [show kind = .mask from congrArg Key.kind heq] at hkind
  exact absurd hkind (by decide)

/-- A candidate has the access base entries of its table. -/
theorem Candidate.get?_access_base (h : Candidate table touched given acl) {kind : Kind}
    (hkind : kind ∈ Kind.base) :
    acl.get? ⟨.access, kind, []⟩ = table.get? ⟨.access, kind, []⟩ := by
  rw [h.get?_eq _ (ne_maskKey_of_base hkind _ _), copied?, if_neg (by simp), Option.or_none]

/-- If the access scope of a candidate is complete, then so is its default scope, unless it is
empty. -/
theorem Candidate.default_base (h : Candidate table touched given acl)
    (hbase : ∀ kind ∈ Kind.base, acl.hasKey ⟨.access, kind, []⟩ = true)
    (hdefault : acl.hasDefault = true) :
    ∀ kind ∈ Kind.base, acl.hasKey ⟨.default, kind, []⟩ = true := by
  intro kind hkind
  have hcounterpart := hbase kind hkind
  rw [hasKey_eq_isSome, h.get?_access_base hkind] at hcounterpart
  rw [hasKey_eq_isSome, h.get?_eq _ (ne_maskKey_of_base hkind _ _), copied?,
    if_pos ⟨h.hasDefault_table hdefault, rfl, hkind, rfl⟩, Option.isSome_or, hcounterpart,
    Bool.or_true]

/-- The checks of a candidate come to the verdict on it. -/
theorem Candidate.checked_eq_iff (h : Candidate table touched given acl)
    {result : Except AclError Acl} : acl.checked = result ↔ Verdict acl result := by
  have heq : ∀ {result : Except AclError Acl}, Verdict acl result → acl.checked = result :=
    fun hverdict => hverdict.checked_eq h.ordered h.default_base
  refine ⟨fun hchecked => ?_, heq⟩
  obtain ⟨found, hfound⟩ := h.ordered.exists_verdict
  rwa [← hchecked, heq hfound]

/-! ## Repeated keys -/

/-- The first entry of a list that has the key of an earlier one. -/
def FirstRepeated (entries : List Entry) (e : Entry) : Prop :=
  ∃ before after, entries = before ++ e :: after ∧ (before.map Entry.key).Nodup ∧
    e.key ∈ before.map Entry.key

/-- The search for a repeated key finds the first entry whose key was seen before. -/
private theorem firstRepeatedAfter_eq_some_iff {seen : List Key} {e : Entry} :
    firstRepeatedAfter seen entries = some e ↔
      ∃ before after, entries = before ++ e :: after ∧ (before.map Entry.key).Nodup ∧
        (∀ f ∈ before, f.key ∉ seen) ∧ (e.key ∈ seen ∨ e.key ∈ before.map Entry.key) := by
  induction entries generalizing seen with
  | nil => simp [firstRepeatedAfter]
  | cons first rest ih =>
    rw [firstRepeatedAfter]
    by_cases hseen : first.key ∈ seen
    · rw [if_pos hseen]
      constructor
      · intro heq
        obtain rfl := Option.some.inj heq
        exact ⟨[], rest, rfl, List.nodup_nil, by simp, Or.inl hseen⟩
      · rintro ⟨before, after, heq, -, hnew, -⟩
        cases before with
        | nil => rw [(List.cons.inj heq).1]
        | cons f before =>
          rw [(List.cons.inj heq).1] at hseen
          exact absurd hseen (hnew f List.mem_cons_self)
    · rw [if_neg hseen, ih]
      constructor
      · rintro ⟨before, after, rfl, hnodup, hnew, hkey⟩
        refine ⟨first :: before, after, rfl, ?_, ?_, ?_⟩
        · refine List.nodup_cons.mpr ⟨fun hmem => ?_, hnodup⟩
          obtain ⟨f, hf, hfkey⟩ := List.mem_map.mp hmem
          exact hnew f hf (hfkey ▸ List.mem_cons_self)
        · intro f hf
          rcases List.mem_cons.mp hf with rfl | hf
          · exact hseen
          · exact fun hold => hnew f hf (List.mem_cons_of_mem _ hold)
        · rw [List.mem_cons] at hkey
          rw [List.map_cons, List.mem_cons]
          tauto
      · rintro ⟨before, after, heq, hnodup, hnew, hkey⟩
        cases before with
        | nil =>
          rw [(List.cons.inj heq).1] at hseen
          simp only [List.map_nil, List.not_mem_nil, or_false] at hkey
          exact absurd hkey hseen
        | cons f before =>
          obtain ⟨rfl, rfl⟩ := List.cons.inj heq
          obtain ⟨hfirst, hnodup⟩ := List.nodup_cons.mp hnodup
          refine ⟨before, after, rfl, hnodup, fun other hother hold => ?_, ?_⟩
          · rcases List.mem_cons.mp hold with hsame | hold
            · exact hfirst (hsame ▸ List.mem_map_of_mem hother)
            · exact hnew other (List.mem_cons_of_mem _ hother) hold
          · rw [List.map_cons, List.mem_cons] at hkey
            rw [List.mem_cons]
            tauto

/-- The entry that is found is the first one that repeats a key. -/
theorem firstRepeated?_eq_some_iff {e : Entry} :
    firstRepeated? entries = some e ↔ FirstRepeated entries e := by
  simp [firstRepeated?, firstRepeatedAfter_eq_some_iff, FirstRepeated]

/-- A list has a first entry that repeats a key exactly if its keys are not all different. -/
theorem exists_firstRepeated_iff :
    (∃ e, FirstRepeated entries e) ↔ ¬ (entries.map Entry.key).Nodup := by
  simp only [← firstRepeated?_eq_some_iff, ← firstRepeated?_eq_none_iff]
  exact Option.ne_none_iff_exists'.symm

/-- The first entry that repeats a key is in the list. -/
theorem FirstRepeated.mem {e : Entry} (h : FirstRepeated entries e) : e ∈ entries := by
  obtain ⟨before, after, rfl, -⟩ := h
  exact List.mem_append_right _ List.mem_cons_self

/-! ## The three changes -/

/-- A table, with what was touched and given, settles an outcome: there is just one candidate, and
the outcome is the verdict on it. -/
def Settles (table : Acl) (touched given : Scope → Prop) (outcome : Except AclError Acl) : Prop :=
  ∃ candidate, Candidate table touched given candidate ∧
    (∀ other, Candidate table touched given other → other = candidate) ∧
    ∀ result, outcome = result ↔ Verdict candidate result

/-- The checks of a candidate are settled by its table. -/
theorem Candidate.settles (h : Candidate table touched given acl) :
    Settles table touched given acl.checked :=
  ⟨acl, h, fun _ hother => hother.unique h, fun _ => h.checked_eq_iff⟩

/-- No verdict finds the default scope incomplete. -/
theorem Settles.ne_default_incomplete {outcome : Except AclError Acl}
    (h : Settles table touched given outcome) :
    outcome ≠ .error (.missingBaseEntries .default) := by
  obtain ⟨candidate, -, -, hverdict⟩ := h
  intro heq
  cases (hverdict _).mp heq

/-- No verdict finds a repeated key. -/
theorem Settles.ne_duplicate {outcome : Except AclError Acl}
    (h : Settles table touched given outcome) (e : Entry) :
    outcome ≠ .error (.duplicateEntry e) := by
  obtain ⟨candidate, -, -, hverdict⟩ := h
  intro heq
  cases (hverdict _).mp heq

/-- A change that looks for repeated keys before it checks a candidate is refused with an entry
exactly if that is the first one to repeat a key. -/
private theorem refused_iff_firstRepeated {outcome : Except AclError Acl}
    (h : Settles table touched given acl.checked)
    (houtcome : outcome = match firstRepeated? entries with
      | some e => .error (.duplicateEntry e)
      | none => acl.checked) (e : Entry) :
    outcome = .error (.duplicateEntry e) ↔ FirstRepeated entries e := by
  rw [← firstRepeated?_eq_some_iff]
  cases hfirst : firstRepeated? entries with
  | some found =>
    rw [houtcome, hfirst]
    simp
  | none =>
    rw [houtcome, hfirst]
    exact iff_of_false (h.ne_duplicate e) (by simp)

/-- Merging looks for repeated keys, and then checks its candidate. -/
theorem merge_eq (existing entries : List Entry) :
    merge existing entries = match firstRepeated? entries with
      | some e => .error (.duplicateEntry e)
      | none => ((ofEntries existing).merged entries).checked :=
  rfl

/-- Replacing looks for repeated keys, and then checks its candidate. -/
theorem replace_eq (entries : List Entry) :
    replace entries = match firstRepeated? entries with
      | some e => .error (.duplicateEntry e)
      | none => (replaced entries).checked :=
  rfl

/-- Merging is refused for the first entry that repeats a key. -/
theorem merge_eq_duplicate_iff {e : Entry} :
    merge existing entries = .error (.duplicateEntry e) ↔ FirstRepeated entries e :=
  refused_iff_firstRepeated (candidate_merged existing entries).settles
    (merge_eq existing entries) e

/-- Replacing is refused for the first entry that repeats a key. -/
theorem replace_eq_duplicate_iff {e : Entry} :
    replace entries = .error (.duplicateEntry e) ↔ FirstRepeated entries e :=
  refused_iff_firstRepeated (candidate_replaced entries).settles (replace_eq entries) e

/-- Merging entries with different keys is settled by the existing list overridden by them. -/
theorem settles_merge (existing : List Entry) (hnodup : (entries.map Entry.key).Nodup) :
    Settles (existing ++ entries)
      (fun scope => ∃ e ∈ entries, e.scope = scope ∧ get? existing e.key ≠ some e.permission)
      (fun scope => ∃ e ∈ entries, e.scope = scope ∧ e.kind = .mask)
      (merge existing entries) := by
  rw [merge_eq, firstRepeated?_eq_none_iff.mpr hnodup]
  exact (candidate_merged existing entries).settles

/-- Replacing by entries with different keys is settled by these entries. -/
theorem settles_replace (hnodup : (entries.map Entry.key).Nodup) :
    Settles entries (fun _ => True)
      (fun scope => ∃ e ∈ entries, e.scope = scope ∧ e.kind = .mask) (replace entries) := by
  rw [replace_eq, firstRepeated?_eq_none_iff.mpr hnodup]
  exact (candidate_replaced entries).settles

/-- Removing entries is settled by what is left. -/
theorem settles_remove (existing entries : List Entry) :
    Settles (eraseAll existing entries)
      (fun scope => ∃ key : Key, key.scope = scope ∧ hasKey entries key = true ∧
        hasKey existing key = true)
      (fun _ => False) (remove existing entries) :=
  (candidate_removed existing entries).settles

/-- No change finds that base entries lack in the default scope. -/
theorem apply_ne_default_incomplete (change : Change) (existing : Acl) :
    change.apply existing ≠ .error (.missingBaseEntries .default) := by
  cases change with
  | keepBase => simp [Change.apply]
  | dropDefault => simp [Change.apply]
  | merge entries =>
    by_cases hnodup : (entries.map Entry.key).Nodup
    · exact (settles_merge existing hnodup).ne_default_incomplete
    · obtain ⟨e, he⟩ := exists_firstRepeated_iff.mpr hnodup
      rw [Change.apply, merge_eq_duplicate_iff.mpr he]
      simp
  | remove entries => exact (settles_remove existing entries).ne_default_incomplete
  | replace entries =>
    by_cases hnodup : (entries.map Entry.key).Nodup
    · exact (settles_replace hnodup).ne_default_incomplete
    · obtain ⟨e, he⟩ := exists_firstRepeated_iff.mpr hnodup
      rw [Change.apply, replace_eq_duplicate_iff.mpr he]
      simp

/-- When merging, removing and replacing fail, whatever the lists are. Merging and replacing are
refused with a repeated key exactly if the entries repeat one, and the first entry that does so is
named. Otherwise there is one candidate, and the outcome is the verdict on it. Removing always
comes to the verdict on its candidate. No change ever finds that base entries lack in the default
scope. -/
theorem changes_verdict (existing entries : List Entry) :
    maxEntries = 32 ∧
    ((∃ e, FirstRepeated entries e) ↔ ¬ (entries.map Entry.key).Nodup) ∧
    (∀ e, merge existing entries = .error (.duplicateEntry e) ↔ FirstRepeated entries e) ∧
    (∀ e, replace entries = .error (.duplicateEntry e) ↔ FirstRepeated entries e) ∧
    ((entries.map Entry.key).Nodup →
      Settles (existing ++ entries)
        (fun scope => ∃ e ∈ entries, e.scope = scope ∧ get? existing e.key ≠ some e.permission)
        (fun scope => ∃ e ∈ entries, e.scope = scope ∧ e.kind = .mask)
        (merge existing entries) ∧
      Settles entries (fun _ => True)
        (fun scope => ∃ e ∈ entries, e.scope = scope ∧ e.kind = .mask) (replace entries)) ∧
    Settles (existing.filter fun e => !hasKey entries e.key)
      (fun scope => ∃ key : Key, key.scope = scope ∧ hasKey entries key = true ∧
        hasKey existing key = true)
      (fun _ => False) (remove existing entries) ∧
    ∀ change : Change, change.apply existing ≠ .error (.missingBaseEntries .default) :=
  ⟨rfl, exists_firstRepeated_iff, fun _ => merge_eq_duplicate_iff,
    fun _ => replace_eq_duplicate_iff,
    fun hnodup => ⟨settles_merge existing hnodup, settles_replace hnodup⟩,
    settles_remove existing entries, fun change => apply_ne_default_incomplete change existing⟩

/-- Twenty-nine named users and the three base entries fill the access scope. The mask that they
need is one entry too many. -/
theorem changes_verdict_fresh_mask :
    let entries : List Entry :=
      (List.range 29).map (fun n => ⟨.access, .user, List.replicate (n + 1) 'u', .empty⟩) ++
        Kind.base.map fun kind => ⟨.access, kind, [], .empty⟩
    (entries.map Entry.key).Nodup ∧ entries.length = 32 ∧
      replace entries = .error (.tooManyEntries .access 33) ∧
      ∃ candidate,
        Candidate entries (fun _ => True)
          (fun scope => ∃ e ∈ entries, e.scope = scope ∧ e.kind = .mask) candidate ∧
        Verdict candidate (.error (.tooManyEntries .access 33)) := by
  intro entries
  have hnodup : (entries.map Entry.key).Nodup := by decide +kernel
  have houtcome : replace entries = .error (.tooManyEntries .access 33) := by decide +kernel
  obtain ⟨-, -, -, -, hsettles, -⟩ := changes_verdict [] entries
  obtain ⟨candidate, hcandidate, -, hverdict⟩ := (hsettles hnodup).2
  exact ⟨hnodup, rfl, houtcome, candidate, hcandidate, (hverdict _).mp houtcome⟩

end PosixAcl.Acl
