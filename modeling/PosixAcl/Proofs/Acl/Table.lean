import Mathlib.Data.List.Lex
import Mathlib.Data.List.Sort
import PosixAcl.Acl.Table

/-!
# Lists of entries as tables

A list whose keys ascend strictly is determined by the permissions that it gives
to keys. This file proves what the operations on such lists do to these
permissions, so that later arguments speak about keys and not about positions.
-/

namespace PosixAcl

/-- The numbers that order keys determine them. -/
theorem Key.order_injective : Function.Injective Key.order := by
  rintro ⟨scope, kind, name⟩ ⟨scope', kind', name'⟩ h
  obtain ⟨hscope, hkind, hname⟩ : scope.rank = scope'.rank ∧ kind.rank = kind'.rank ∧
      name.map (·.toNat + 1) = name'.map (·.toNat + 1) := by
    simpa [Key.order] using h
  have hinjective : Function.Injective fun c : Char => c.toNat + 1 :=
    fun _ _ hc => Char.toNat_inj.mp (Nat.succ.inj hc)
  have hscope' : scope = scope' := by
    revert hscope
    cases scope <;> cases scope' <;> decide
  have hkind' : kind = kind' := by
    revert hkind
    cases kind <;> cases kind' <;> decide
  rw [hscope', hkind', List.map_injective_iff.mpr hinjective hname]

/-- An entry is its key together with its permission. -/
theorem Entry.eq_of_key {e f : Entry} (hkey : e.key = f.key)
    (hpermission : e.permission = f.permission) : e = f := by
  obtain ⟨scope, kind, name, permission⟩ := e
  obtain ⟨scope', kind', name', permission'⟩ := f
  simp only [Entry.key, Key.mk.injEq] at hkey
  obtain ⟨rfl, rfl, rfl⟩ := hkey
  exact congrArg _ hpermission

/-- The zero at the end of a name decides before anything that follows it. -/
private theorem nameOrder_append_lt {name other : Text}
    (h : name.map (·.toNat + 1) ++ [0] < other.map (·.toNat + 1) ++ [0]) (rest more : List Nat) :
    name.map (·.toNat + 1) ++ 0 :: rest < other.map (·.toNat + 1) ++ 0 :: more := by
  induction name generalizing other with
  | nil =>
    cases other with
    | nil => exact absurd h (lt_irrefl _)
    | cons d other => exact List.cons_lt_cons_iff.mpr (Or.inl (Nat.succ_pos _))
  | cons c name ih =>
    cases other with
    | nil => simp [List.cons_lt_cons_iff] at h
    | cons d other =>
      rcases List.cons_lt_cons_iff.mp h with hcd | ⟨hcd, htail⟩
      · exact List.cons_lt_cons_iff.mpr (Or.inl hcd)
      · exact List.cons_lt_cons_iff.mpr (Or.inr ⟨hcd, ih htail⟩)

/-- Entries with ascending keys ascend, whatever their permissions are. -/
theorem Entry.order_lt_of_key {e f : Entry} (h : e.key.order < f.key.order) :
    e.order < f.order := by
  simp only [Entry.order, Key.order, List.cons_append, List.append_assoc,
    List.nil_append] at h ⊢
  rcases List.cons_lt_cons_iff.mp h with hscope | ⟨hscope, h⟩
  · exact List.cons_lt_cons_iff.mpr (Or.inl hscope)
  · refine List.cons_lt_cons_iff.mpr (Or.inr ⟨hscope, ?_⟩)
    rcases List.cons_lt_cons_iff.mp h with hkind | ⟨hkind, h⟩
    · exact List.cons_lt_cons_iff.mpr (Or.inl hkind)
    · exact List.cons_lt_cons_iff.mpr (Or.inr ⟨hkind, nameOrder_append_lt h _ _⟩)

namespace Acl

/-! ## Reading a table -/

@[simp] theorem get?_nil (key : Key) : get? [] key = none := rfl

/-- Of two lists, the second one is asked first. -/
theorem get?_append (acl more : Acl) (key : Key) :
    get? (acl ++ more) key = (more.get? key).or (acl.get? key) := by
  simp [get?, List.reverse_append, List.find?_append, Option.map_or]

/-- The first entry counts only if no later one has its key. -/
theorem get?_cons (e : Entry) (acl : Acl) (key : Key) :
    get? (e :: acl) key =
      (acl.get? key).or (if e.key = key then some e.permission else none) := by
  rw [← List.singleton_append, get?_append]
  by_cases h : e.key = key <;> simp [get?, h]

/-- A list gives nothing to a key that no entry has. -/
theorem get?_eq_none_iff {acl : Acl} {key : Key} :
    acl.get? key = none ↔ ∀ e ∈ acl, e.key ≠ key := by
  simp [get?]

/-- What a list gives to a key comes from an entry with that key. -/
theorem exists_mem_of_get? {acl : Acl} {key : Key} {permission : Permission}
    (h : acl.get? key = some permission) :
    ∃ e ∈ acl, e.key = key ∧ e.permission = permission := by
  obtain ⟨e, he, hpermission⟩ := Option.map_eq_some_iff.mp h
  have hkey : e.key = key := by simpa using List.find?_some he
  exact ⟨e, by simpa using List.mem_of_find?_eq_some he, hkey, hpermission⟩

/-- A list has a key exactly if it gives a permission to it. -/
theorem hasKey_eq_isSome (acl : Acl) (key : Key) : acl.hasKey key = (acl.get? key).isSome := by
  cases h : acl.get? key with
  | none => simpa [hasKey] using get?_eq_none_iff.mp h
  | some permission =>
    obtain ⟨e, he, hkey, -⟩ := exists_mem_of_get? h
    simpa [hasKey] using ⟨e, he, hkey⟩

/-- A list lacks a key exactly if it gives nothing to it. -/
theorem hasKey_eq_false_iff {acl : Acl} {key : Key} :
    acl.hasKey key = false ↔ acl.get? key = none := by
  rw [hasKey_eq_isSome, Option.isSome_eq_false_iff, Option.isNone_iff_eq_none]

/-- Whether a list has a key depends only on the permission that it gives to the key. -/
theorem hasKey_congr {acl other : Acl} {key : Key} (h : acl.get? key = other.get? key) :
    acl.hasKey key = other.hasKey key := by
  rw [hasKey_eq_isSome, h, ← hasKey_eq_isSome]

/-- A list has a key exactly if one of its entries has it. -/
theorem hasKey_iff {acl : Acl} {key : Key} : acl.hasKey key = true ↔ ∃ e ∈ acl, e.key = key := by
  simp [hasKey]

/-- Where all keys are different, an entry gives its permission to its key. -/
theorem get?_of_mem {acl : Acl} (hnodup : (acl.map Entry.key).Nodup) {e : Entry} (he : e ∈ acl) :
    acl.get? e.key = some e.permission := by
  induction acl with
  | nil => exact absurd he (by simp)
  | cons f rest ih =>
    obtain ⟨hfirst, hrest⟩ : f.key ∉ rest.map Entry.key ∧ (rest.map Entry.key).Nodup :=
      List.nodup_cons.mp hnodup
    rw [get?_cons]
    rcases List.mem_cons.mp he with rfl | he
    · have hnone : Acl.get? rest e.key = none := by
        rw [get?_eq_none_iff]
        intro g hg hkey
        exact hfirst (hkey ▸ List.mem_map_of_mem hg)
      rw [hnone]
      simp
    · rw [ih hrest he]
      rfl

/-- Rearranging a list with different keys leaves what it gives to keys. -/
theorem get?_perm {acl other : Acl} (h : acl.Perm other) (hnodup : (acl.map Entry.key).Nodup)
    (key : Key) : acl.get? key = other.get? key := by
  cases hget : other.get? key with
  | none =>
    rw [get?_eq_none_iff] at hget ⊢
    exact fun e he => hget e (h.mem_iff.mp he)
  | some permission =>
    obtain ⟨e, he, rfl, rfl⟩ := exists_mem_of_get? hget
    exact get?_of_mem hnodup (h.mem_iff.mpr he)

/-! ## Strict order -/

/-- The keys of a list ascend strictly, so that no key occurs twice. -/
def Ordered (acl : Acl) : Prop :=
  acl.Pairwise fun e f => e.key.order < f.key.order

instance (acl : Acl) : Decidable acl.Ordered :=
  inferInstanceAs (Decidable (acl.Pairwise _))

/-- Taking entries out keeps the order. -/
theorem Ordered.filter {acl : Acl} (h : acl.Ordered) (keep : Entry → Bool) :
    Ordered (acl.filter keep) :=
  List.Pairwise.filter keep h

/-- The keys of an ordered list are different. -/
theorem Ordered.nodup {acl : Acl} (h : acl.Ordered) : (acl.map Entry.key).Nodup := by
  refine List.pairwise_map.mpr (List.Pairwise.imp (fun {e f} hlt heq => ?_) h)
  rw [heq] at hlt
  exact lt_irrefl _ hlt

/-- In an ordered list an entry gives its permission to its key. -/
theorem Ordered.get?_of_mem {acl : Acl} (h : acl.Ordered) {e : Entry} (he : e ∈ acl) :
    acl.get? e.key = some e.permission :=
  Acl.get?_of_mem h.nodup he

/-- The entries of an ordered list are what it gives to keys. -/
theorem Ordered.mem_iff {acl : Acl} (h : acl.Ordered) {e : Entry} :
    e ∈ acl ↔ acl.get? e.key = some e.permission := by
  constructor
  · exact h.get?_of_mem
  · intro hget
    obtain ⟨f, hf, hkey, hpermission⟩ := exists_mem_of_get? hget
    rwa [Entry.eq_of_key hkey hpermission] at hf

/-- Ordered lists that give the same permission to each key are equal. -/
theorem Ordered.ext {acl other : Acl} (h : acl.Ordered) (hother : other.Ordered)
    (hget : ∀ key, acl.get? key = other.get? key) : acl = other := by
  have : Std.Irrefl fun e f : Entry => e.key.order < f.key.order := ⟨fun e => lt_irrefl _⟩
  have : Std.Antisymm fun e f : Entry => e.key.order < f.key.order :=
    ⟨fun e f hef hfe => absurd (lt_trans hef hfe) (lt_irrefl _)⟩
  refine List.Pairwise.eq_of_mem_iff h hother fun e => ?_
  rw [h.mem_iff, hother.mem_iff, hget]

/-! ## Sorting -/

/-- Sorting is insertion sort by the order of entries. -/
theorem sort_eq_insertionSort (acl : Acl) :
    acl.sort = acl.insertionSort fun e f => e.order ≤ f.order := by
  have hinsert : ∀ (e : Entry) (acl : Acl),
      acl.insertSorted e = acl.orderedInsert (fun e f => e.order ≤ f.order) e := by
    intro e acl
    induction acl with
    | nil => rfl
    | cons f rest ih =>
      rw [insertSorted, List.orderedInsert_cons, ih]
      by_cases hlt : f.order < e.order
      · rw [if_pos hlt, if_neg (not_le_of_gt hlt)]
      · rw [if_neg hlt, if_pos (not_lt.mp hlt)]
  induction acl with
  | nil => rfl
  | cons e rest ih => rw [List.insertionSort_cons, ← ih, ← hinsert, sort, sort, List.foldr_cons]

/-- Sorting neither adds nor drops entries. -/
theorem mem_sort_iff {acl : Acl} {e : Entry} : e ∈ acl.sort ↔ e ∈ acl := by
  rw [sort_eq_insertionSort, List.mem_insertionSort]

/-- Sorting a list that ascends changes nothing. -/
theorem sort_eq_of_pairwise {acl : Acl} (h : acl.Pairwise fun e f => e.order ≤ f.order) :
    acl.sort = acl := by
  rw [sort_eq_insertionSort, List.Pairwise.insertionSort_eq h]

/-- Sorting a list twice does no more than sorting it once. -/
theorem sort_sort (acl : Acl) : acl.sort.sort = acl.sort := by
  have : Std.Total fun e f : Entry => e.order ≤ f.order := ⟨fun e f => le_total _ _⟩
  have : IsTrans Entry fun e f => e.order ≤ f.order := ⟨fun _ _ _ => le_trans⟩
  refine sort_eq_of_pairwise ?_
  rw [sort_eq_insertionSort]
  exact List.pairwise_insertionSort _ acl

/-- Sorting an ordered list changes nothing. -/
theorem Ordered.sort_eq {acl : Acl} (h : acl.Ordered) : acl.sort = acl :=
  sort_eq_of_pairwise (h.imp fun hlt => le_of_lt (Entry.order_lt_of_key hlt))

/-! ## Putting entries in -/

/-- The entries after an insertion, the new one and all others with another key. -/
theorem mem_of_mem_insert {acl : Acl} {e f : Entry} (hf : f ∈ acl.insert e) :
    f = e ∨ f ∈ acl := by
  induction acl with
  | nil => simpa [insert] using hf
  | cons g rest ih =>
    unfold insert at hf
    split at hf
    · rcases List.mem_cons.mp hf with hf | hf
      · exact Or.inl hf
      · exact Or.inr (List.mem_cons_of_mem _ hf)
    · split at hf
      · rcases List.mem_cons.mp hf with rfl | hf
        · exact Or.inr List.mem_cons_self
        · rcases ih hf with hf | hf
          · exact Or.inl hf
          · exact Or.inr (List.mem_cons_of_mem _ hf)
      · exact List.mem_cons.mp hf

/-- Inserting keeps the order. -/
theorem Ordered.insert {acl : Acl} (h : acl.Ordered) (e : Entry) : (acl.insert e).Ordered := by
  induction acl with
  | nil => exact List.pairwise_singleton _ _
  | cons f rest ih =>
    obtain ⟨hfirst, hrest⟩ := List.pairwise_cons.mp h
    unfold Acl.insert
    split
    · rename_i hkey
      refine List.pairwise_cons.mpr ⟨fun g hg => ?_, hrest⟩
      rw [← hkey]
      exact hfirst g hg
    · rename_i hkey
      split
      · rename_i hlt
        refine List.pairwise_cons.mpr ⟨fun g hg => ?_, ih hrest⟩
        rcases mem_of_mem_insert hg with rfl | hg
        · exact hlt
        · exact hfirst g hg
      · rename_i hnlt
        have hne : f.key.order ≠ e.key.order := fun heq => hkey (Key.order_injective heq)
        have hlt : e.key.order < f.key.order := by
          rcases lt_trichotomy f.key.order e.key.order with hfe | hfe | hfe
          · exact absurd hfe hnlt
          · exact absurd hfe hne
          · exact hfe
        refine List.pairwise_cons.mpr ⟨fun g hg => ?_, h⟩
        rcases List.mem_cons.mp hg with rfl | hg
        · exact hlt
        · exact lt_trans hlt (hfirst g hg)

/-- An inserted entry is in the list. -/
theorem mem_insert_self (acl : Acl) (e : Entry) : e ∈ acl.insert e := by
  induction acl with
  | nil => exact List.mem_singleton_self e
  | cons f rest ih =>
    unfold insert
    split
    · exact List.mem_cons_self
    · split
      · exact List.mem_cons_of_mem _ ih
      · exact List.mem_cons_self

/-- Inserting an entry leaves what a list gives to other keys. -/
theorem get?_insert_of_ne (acl : Acl) {e : Entry} {key : Key} (hne : e.key ≠ key) :
    (acl.insert e).get? key = acl.get? key := by
  induction acl with
  | nil => simp [Acl.insert, get?_cons, hne]
  | cons f rest ih =>
    unfold Acl.insert
    split
    · rename_i hkey
      have hf : f.key ≠ key := by rwa [hkey]
      rw [get?_cons, get?_cons, if_neg hne, if_neg hf]
    · split
      · rw [get?_cons, ih, get?_cons]
      · rw [get?_cons, if_neg hne, Option.or_none]

/-- Inserting an entry changes what an ordered list gives to its key only. -/
theorem Ordered.get?_insert {acl : Acl} (h : acl.Ordered) (e : Entry) (key : Key) :
    (acl.insert e).get? key = if e.key = key then some e.permission else acl.get? key := by
  by_cases hkey : e.key = key
  · rw [if_pos hkey, ← hkey]
    exact (h.insert e).get?_of_mem (mem_insert_self acl e)
  · rw [if_neg hkey]
    exact get?_insert_of_ne acl hkey

/-- Two lists of entries are inserted one after the other. -/
theorem insertAll_append (acl : Acl) (entries more : List Entry) :
    acl.insertAll (entries ++ more) = (acl.insertAll entries).insertAll more :=
  List.foldl_append

/-- Inserting several entries keeps the order. -/
theorem Ordered.insertAll {acl : Acl} (h : acl.Ordered) (entries : List Entry) :
    (acl.insertAll entries).Ordered := by
  induction entries generalizing acl with
  | nil => exact h
  | cons e rest ih => exact ih (h.insert e)

/-- What is in a list after an insertion was there before or was inserted. -/
theorem mem_of_mem_insertAll {acl : Acl} {entries : List Entry} {e : Entry}
    (he : e ∈ acl.insertAll entries) : e ∈ acl ∨ e ∈ entries := by
  induction entries generalizing acl with
  | nil => exact Or.inl he
  | cons f rest ih =>
    rcases ih (show e ∈ insertAll (acl.insert f) rest from he) with he | he
    · rcases mem_of_mem_insert he with rfl | he
      · exact Or.inr List.mem_cons_self
      · exact Or.inl he
    · exact Or.inr (List.mem_cons_of_mem _ he)

/-- Inserted entries go before those of the list, and later ones before earlier ones. -/
theorem Ordered.get?_insertAll {acl : Acl} (h : acl.Ordered) (entries : List Entry) (key : Key) :
    (acl.insertAll entries).get? key = (get? entries key).or (acl.get? key) := by
  induction entries generalizing acl with
  | nil => rfl
  | cons e rest ih =>
    have hstep := ih (h.insert e)
    rw [h.get?_insert] at hstep
    rw [get?_cons]
    refine hstep.trans ?_
    by_cases he : e.key = key <;> simp [he]

/-- Inserting adds the keys of the inserted entries. -/
theorem Ordered.hasKey_insertAll {acl : Acl} (h : acl.Ordered) (entries : List Entry)
    (key : Key) : (acl.insertAll entries).hasKey key = (hasKey entries key || acl.hasKey key) := by
  rw [hasKey_eq_isSome, h.get?_insertAll, Option.isSome_or, hasKey_eq_isSome, hasKey_eq_isSome]

/-- The table of a list is in order. -/
theorem ordered_ofEntries (entries : List Entry) : (ofEntries entries).Ordered :=
  Ordered.insertAll List.Pairwise.nil entries

/-- The table of a list gives the same permissions as the list. -/
theorem get?_ofEntries (entries : List Entry) (key : Key) :
    (ofEntries entries).get? key = get? entries key := by
  have hnil : Ordered [] := List.Pairwise.nil
  simpa [ofEntries] using hnil.get?_insertAll entries key

/-- An ordered list is its own table. -/
theorem Ordered.ofEntries_eq {acl : Acl} (h : acl.Ordered) : ofEntries acl = acl :=
  (ordered_ofEntries acl).ext h (get?_ofEntries acl)

/-! ## Taking entries out -/

/-- Filtering by keys takes away the permissions of the keys that are dropped. -/
theorem get?_filter (acl : Acl) (keep : Key → Bool) (key : Key) :
    get? (acl.filter fun e => keep e.key) key = if keep key then acl.get? key else none := by
  induction acl with
  | nil => simp
  | cons e rest ih =>
    by_cases he : keep e.key
    · rw [List.filter_cons_of_pos (by simpa using he), get?_cons, get?_cons, ih]
      by_cases hkey : e.key = key
      · simp [← hkey, he]
      · by_cases hkeep : keep key <;> simp [hkey, hkeep]
    · rw [List.filter_cons_of_neg (by simpa using he), get?_cons, ih]
      by_cases hkey : e.key = key
      · simp [← hkey, he]
      · simp [hkey]

/-- Lists that have the same entries under some keys give the same permissions to these keys. -/
theorem get?_eq_of_filter_eq {acl other : Acl} (keep : Key → Bool)
    (h : acl.filter (fun e => keep e.key) = other.filter fun e => keep e.key) {key : Key}
    (hkeep : keep key = true) : acl.get? key = other.get? key := by
  have hget : get? (acl.filter fun e => keep e.key) key =
      get? (other.filter fun e => keep e.key) key := congrArg (get? · key) h
  rwa [get?_filter, get?_filter, if_pos hkeep, if_pos hkeep] at hget

/-- Erasing keeps the order. -/
theorem Ordered.eraseAll {acl : Acl} (h : acl.Ordered) (entries : List Entry) :
    (acl.eraseAll entries).Ordered :=
  h.filter _

/-- Erasing takes away the permissions of the keys that occur in the other list. -/
theorem get?_eraseAll (acl : Acl) (entries : List Entry) (key : Key) :
    (acl.eraseAll entries).get? key = if hasKey entries key then none else acl.get? key := by
  have h := get?_filter acl (fun other => !hasKey entries other) key
  have heq : acl.eraseAll entries = acl.filter fun e => !hasKey entries e.key := rfl
  rw [heq, h]
  by_cases hkey : hasKey entries key <;> simp [hkey]

/-- Erasing takes away the keys that occur in the other list. -/
theorem hasKey_eraseAll (acl : Acl) (entries : List Entry) (key : Key) :
    (acl.eraseAll entries).hasKey key = (!hasKey entries key && acl.hasKey key) := by
  rw [hasKey_eq_isSome, get?_eraseAll, hasKey_eq_isSome acl]
  by_cases hkey : hasKey entries key <;> simp [hkey]

end Acl

end PosixAcl
