import PosixAcl.Proofs.Acl.Verdict

/-!
# Rearranging entries

The order in which entries are given does not matter, and neither does the order in
which a list is stored, as long as no key is repeated. A removal looks at the keys of
its entries only, so there they may even be repeated. Where entries repeat a key, the
order decides no more than which of them is named in the refusal.
-/

namespace PosixAcl

/-- The numbers that order entries determine them. -/
theorem Entry.order_injective : Function.Injective Entry.order := by
  intro e f h
  obtain ⟨hkey, hdigit⟩ := List.append_inj' h rfl
  have hpermission := congrArg Permission.ofOctal (List.singleton_inj.mp hdigit)
  rw [Permission.ofOctal_toOctal, Permission.ofOctal_toOctal] at hpermission
  exact Entry.eq_of_key (Key.order_injective hkey) hpermission

namespace Acl

variable {existing acl other : Acl} {entries more : List Entry}

/-! ## Lists -/

/-- Sorting forgets in which order entries were stored, repeated keys included. -/
theorem sort_perm (hperm : acl.Perm other) : acl.sort = other.sort := by
  have : Std.Total fun e f : Entry => e.order ≤ f.order := ⟨fun e f => le_total _ _⟩
  have : IsTrans Entry fun e f => e.order ≤ f.order := ⟨fun _ _ _ => le_trans⟩
  have : Std.Antisymm fun e f : Entry => e.order ≤ f.order :=
    ⟨fun e f hef hfe => Entry.order_injective (le_antisymm hef hfe)⟩
  rw [sort_eq_insertionSort, sort_eq_insertionSort]
  refine List.Perm.eq_of_pairwise' (List.pairwise_insertionSort _ acl)
    (List.pairwise_insertionSort _ other) ?_
  exact (List.perm_insertionSort _ acl).trans (hperm.trans (List.perm_insertionSort _ other).symm)

/-- Lists of the same entries with different keys have the same table. -/
theorem ofEntries_perm (hperm : entries.Perm more) (hnodup : (entries.map Entry.key).Nodup) :
    ofEntries entries = ofEntries more := by
  refine (ordered_ofEntries entries).ext (ordered_ofEntries more) fun key => ?_
  rw [get?_ofEntries, get?_ofEntries, get?_perm hperm hnodup]

/-- A change of a list whose keys are different does not depend on the order of the list. -/
theorem apply_perm (hperm : existing.Perm other) (hnodup : (existing.map Entry.key).Nodup)
    (change : Change) : change.apply other = change.apply existing := by
  have htable : ofEntries other = ofEntries existing := (ofEntries_perm hperm hnodup).symm
  cases change with
  | keepBase => exact congrArg Except.ok (sort_perm (hperm.filter _).symm)
  | dropDefault => exact congrArg Except.ok (sort_perm (hperm.filter _).symm)
  | merge entries => rw [Change.apply, Change.apply, merge_eq, merge_eq, htable]
  | remove entries => rw [Change.apply, Change.apply, remove, remove, htable]
  | replace entries => rfl

/-! ## Entries -/

/-- Replacing by entries with different keys does not depend on their order. -/
theorem replaced_perm (hperm : entries.Perm more) (hnodup : (entries.map Entry.key).Nodup) :
    replaced entries = replaced more := by
  have hgiven : givesMask entries = givesMask more := funext fun scope => hperm.any_eq
  rw [replaced, replaced, ofEntries_perm hperm hnodup, hgiven]

/-- A removal looks at the keys of its entries only. -/
theorem remove_congr (hkeys : ∀ key, hasKey entries key = hasKey more key) (existing : Acl) :
    remove existing entries = remove existing more := by
  have hleft : (ofEntries existing).eraseAll entries = (ofEntries existing).eraseAll more :=
    List.filter_congr fun e _ => congrArg Bool.not (hkeys e.key)
  have hloses : (ofEntries existing).loses entries = (ofEntries existing).loses more := by
    funext scope
    rw [Bool.eq_iff_iff, loses_iff, loses_iff]
    simp only [hkeys]
  have hremove : ∀ spec, remove existing spec = complete ((ofEntries existing).eraseAll spec)
      ((ofEntries existing).loses spec) fun _ => false := fun _ => rfl
  rw [hremove, hremove, hleft, hloses]

/-- The order of entries and of the stored list does not matter. Merging and replacing do the same
with entries in any order, if these have different keys. If they repeat a key, they are refused in
any order, and the entry that is named is one of them. Removing does the same with all entries that
have the same keys. And no change depends on the order of a list whose keys are different. -/
theorem changes_rearranged (existing entries : List Entry) :
    (∀ other : List Entry, entries.Perm other →
      ((entries.map Entry.key).Nodup →
        merge existing other = merge existing entries ∧ replace other = replace entries) ∧
      (¬ (entries.map Entry.key).Nodup →
        ∃ e ∈ entries, ∃ f ∈ entries,
          merge existing entries = .error (.duplicateEntry e) ∧
          replace entries = .error (.duplicateEntry e) ∧
          merge existing other = .error (.duplicateEntry f) ∧
          replace other = .error (.duplicateEntry f))) ∧
    (∀ other : List Entry,
      (∀ key, key ∈ entries.map Entry.key ↔ key ∈ other.map Entry.key) →
      remove existing other = remove existing entries) ∧
    ((existing.map Entry.key).Nodup → ∀ other : List Entry, existing.Perm other →
      ∀ change : Change, change.apply other = change.apply existing) := by
  refine ⟨fun other hperm => ⟨fun hnodup => ?_, fun hrepeats => ?_⟩, fun other hkeys => ?_,
    fun hnodup other hperm => apply_perm hperm hnodup⟩
  · have hother : (other.map Entry.key).Nodup := (hperm.map Entry.key).nodup_iff.mp hnodup
    have hmerged := (ordered_ofEntries existing).merged_perm hperm hnodup
    constructor
    · rw [merge_eq, merge_eq, firstRepeated?_eq_none_iff.mpr hnodup,
        firstRepeated?_eq_none_iff.mpr hother, hmerged]
    · rw [replace_eq, replace_eq, firstRepeated?_eq_none_iff.mpr hnodup,
        firstRepeated?_eq_none_iff.mpr hother, replaced_perm hperm hnodup]
  · have hother : ¬ (other.map Entry.key).Nodup :=
      fun h => hrepeats ((hperm.map Entry.key).nodup_iff.mpr h)
    obtain ⟨e, he⟩ := exists_firstRepeated_iff.mpr hrepeats
    obtain ⟨f, hf⟩ := exists_firstRepeated_iff.mpr hother
    refine ⟨e, he.mem, f, hperm.mem_iff.mpr hf.mem, merge_eq_duplicate_iff.mpr he,
      replace_eq_duplicate_iff.mpr he, merge_eq_duplicate_iff.mpr hf,
      replace_eq_duplicate_iff.mpr hf⟩
  · refine (remove_congr (fun key => ?_) existing).symm
    have hmem : ∀ spec : List Entry, hasKey spec key = true ↔ key ∈ spec.map Entry.key :=
      fun spec => hasKey_iff.trans List.mem_map.symm
    rw [Bool.eq_iff_iff, hmem, hmem, hkeys]

/-- A merge with a mask, given in two orders, into a list that is not in order itself. The removal
names a key once more and with another permission. And of two entries with the same key the later
one is named. -/
theorem changes_rearranged_reversed :
    let existing : List Entry :=
      [⟨.access, .other, [], .empty⟩, ⟨.access, .group, [], ⟨true, false, false⟩⟩,
        ⟨.access, .user, [], ⟨true, true, false⟩⟩]
    let mask : Entry := ⟨.access, .mask, [], .empty⟩
    let named : Entry := ⟨.access, .user, ['a'], ⟨true, true, true⟩⟩
    let repeated : Entry := { named with permission := .empty }
    let result : Acl :=
      [⟨.access, .user, [], ⟨true, true, false⟩⟩, named,
        ⟨.access, .group, [], ⟨true, false, false⟩⟩, mask, ⟨.access, .other, [], .empty⟩]
    (existing.map Entry.key).Nodup ∧ ([mask, named].map Entry.key).Nodup ∧
      ¬ ([named, repeated].map Entry.key).Nodup ∧
      merge existing [named, mask] = .ok result ∧
      merge existing [mask, named] = .ok result ∧
      merge existing.reverse [mask, named] = .ok result ∧
      merge existing [named, repeated] = .error (.duplicateEntry repeated) ∧
      merge existing [repeated, named] = .error (.duplicateEntry named) ∧
      (∃ e ∈ [named, repeated], replace [repeated, named] = .error (.duplicateEntry e)) ∧
      remove result [repeated, mask, named] = remove result [mask, named] := by
  intro existing mask named repeated result
  have hexisting : (existing.map Entry.key).Nodup := by decide +kernel
  have hnodup : ([mask, named].map Entry.key).Nodup := by decide +kernel
  have hrepeats : ¬ ([named, repeated].map Entry.key).Nodup := by decide +kernel
  have hmerge : merge existing [mask, named] = .ok result := by decide +kernel
  obtain ⟨hspec, -, hstored⟩ := changes_rearranged existing [mask, named]
  have hswapped := (hspec [named, mask] (List.Perm.swap _ _ _)).1 hnodup
  have hreversed := hstored hexisting _ (List.reverse_perm existing).symm (.merge [mask, named])
  obtain ⟨-, -, e, he, -, -, -, hreplace⟩ :=
    ((changes_rearranged existing [named, repeated]).1 [repeated, named]
      (List.Perm.swap _ _ _)).2 hrepeats
  have hfirst : merge existing [named, repeated] = .error (.duplicateEntry repeated) := by
    decide +kernel
  have hsecond : merge existing [repeated, named] = .error (.duplicateEntry named) := by
    decide +kernel
  refine ⟨hexisting, hnodup, hrepeats, hswapped.1.trans hmerge, hmerge, hreversed.trans hmerge,
    hfirst, hsecond, ⟨e, he, hreplace⟩, ?_⟩
  refine (changes_rearranged result [mask, named]).2.1 _ fun key => ?_
  have hkeys : [repeated, mask, named].map Entry.key =
      named.key :: [mask, named].map Entry.key := rfl
  rw [hkeys, List.mem_cons, or_iff_right_of_imp]
  rintro rfl
  exact List.mem_map_of_mem (List.mem_cons_of_mem _ (List.mem_singleton_self named))

end Acl

end PosixAcl
