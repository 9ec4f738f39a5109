import Mathlib.Data.List.Induction
import Mathlib.Data.List.Lex
import Mathlib.Data.List.Sort
import PosixAcl.Store.Tree

/-!
# Trees of files in strict order

A tree whose names ascend strictly holds each file once. Looking up, adding and
replacing files are described by membership. In such a tree the files below a
directory are the directory itself, followed by what is below each of its
children in turn. This is the order of a depth-first walk.
-/

namespace PosixAcl

/-- The numbers that order names determine them. -/
theorem Name.order_injective : Function.Injective Name.order := by
  intro name other h
  have htoNat : Function.Injective fun b : UInt8 => b.toNat := fun _ _ hb => UInt8.toNat_inj.mp hb
  unfold Name.order at h
  split at h <;> split at h
  · rename_i hname hother
    rw [hname, hother]
  · simp at h
  · simp at h
  · exact List.map_injective_iff.mpr htoNat (by simpa using h)

/-- The numbers that order lists of names determine them. -/
theorem namesOrder_injective : Function.Injective namesOrder :=
  List.map_injective_iff.mpr Name.order_injective

/-- A name comes before another one: `..` comes first, and other names are in the order of their
bytes. -/
def Name.Before (name other : Name) : Prop :=
  other ≠ dotDot ∧ (name = dotDot ∨ name < other)

/-- Two lists are in the lexicographic order of their images under an injective function. -/
theorem lex_map_iff {α β : Type} {f : α → β} (hf : Function.Injective f) {before : β → β → Prop}
    {xs ys : List α} :
    List.Lex before (xs.map f) (ys.map f) ↔ List.Lex (fun x y => before (f x) (f y)) xs ys := by
  induction xs generalizing ys with
  | nil => cases ys <;> simp
  | cons x xs ih =>
    cases ys with
    | nil => simp
    | cons y ys =>
      rw [List.map_cons, List.map_cons, List.cons_lex_cons_iff, List.cons_lex_cons_iff, ih,
        hf.eq_iff]

/-- The numbers that order names put them in their order. -/
theorem Name.order_lt_iff {name other : Name} :
    Name.order name < Name.order other ↔ Name.Before name other := by
  have htoNat : Function.Injective fun b : UInt8 => b.toNat := fun _ _ hb => UInt8.toNat_inj.mp hb
  have hbytes : name.map (·.toNat) < other.map (·.toNat) ↔ name < other := lex_map_iff htoNat
  unfold Name.order Name.Before
  by_cases hname : name = dotDot <;> by_cases hother : other = dotDot
  · simp [hname, hother]
  · rw [if_pos hname, if_neg hother, List.cons_lt_cons_iff]
    simp [hname, hother]
  · rw [if_neg hname, if_pos hother, List.cons_lt_cons_iff]
    simp [hother]
  · rw [if_neg hname, if_neg hother, List.cons_lt_cons_iff, hbytes]
    simp [hname, hother]

/-- The numbers that order lists of names put them in lexicographic order. -/
theorem namesOrder_lt_iff {names others : List Name} :
    namesOrder names < namesOrder others ↔ List.Lex Name.Before names others := by
  have hbefore : Name.Before = fun name other => Name.order name < Name.order other :=
    funext fun _ => funext fun _ => propext Name.order_lt_iff.symm
  rw [hbefore]
  exact lex_map_iff Name.order_injective

/-- A list of names comes before its extensions. -/
theorem namesOrder_lt_append (names : List Name) {rest : List Name} (hrest : rest ≠ []) :
    namesOrder names < namesOrder (names ++ rest) := by
  cases rest with
  | nil => exact absurd rfl hrest
  | cons name rest =>
    have h : namesOrder names ++ [] < namesOrder names ++ namesOrder (name :: rest) :=
      List.append_left_lt (List.nil_lt_cons _ _)
    simpa [namesOrder] using h

/-- A list of names that comes before another one does not extend it. -/
theorem not_prefix_of_namesOrder_lt {names others : List Name}
    (h : namesOrder names < namesOrder others) : ¬ others <+: names := by
  rintro ⟨rest, rfl⟩
  by_cases hempty : rest = []
  · rw [hempty, List.append_nil] at h
    exact lt_irrefl _ h
  · exact lt_asymm h (namesOrder_lt_append others hempty)

/-- What is below one sibling comes before what is below a later one. -/
theorem namesOrder_siblings_lt {names rest more : List Name} {name other : Name}
    (h : namesOrder (names ++ [name]) < namesOrder (names ++ [other])) :
    namesOrder (names ++ [name] ++ rest) < namesOrder (names ++ [other] ++ more) := by
  have hlt : Name.order name < Name.order other := by
    rcases lt_trichotomy (Name.order name) (Name.order other) with hlt | heq | hgt
    · exact hlt
    · rw [Name.order_injective heq] at h
      exact absurd h (lt_irrefl _)
    · have hback : namesOrder names ++ [Name.order other] < namesOrder names ++ [Name.order name] :=
        List.append_left_lt (List.cons_lt_cons_iff.mpr (Or.inl hgt))
      have hforth : namesOrder names ++ [Name.order name] <
          namesOrder names ++ [Name.order other] := by simpa [namesOrder] using h
      exact absurd (lt_trans hback hforth) (lt_irrefl _)
  have hwhole : namesOrder names ++ (Name.order name :: namesOrder rest) <
      namesOrder names ++ (Name.order other :: namesOrder more) :=
    List.append_left_lt (List.cons_lt_cons_iff.mpr (Or.inl hlt))
  simpa [namesOrder] using hwhole

namespace Tree

variable {α : Type}

/-- The names of a tree ascend strictly. -/
def Ordered (tree : Tree α) : Prop :=
  tree.Pairwise fun entry other => namesOrder entry.1 < namesOrder other.1

/-! ## Looking up -/

/-- A file that is found is in the tree under its names. -/
theorem mem_of_get? {tree : Tree α} {names : List Name} {file : α}
    (h : tree.get? names = some file) : (names, file) ∈ tree := by
  obtain ⟨entry, hentry, rfl⟩ := Option.map_eq_some_iff.mp h
  have hnames : entry.1 = names := by simpa using List.find?_some hentry
  rw [← hnames]
  exact List.mem_of_find?_eq_some hentry

/-- A file is found in the first place where its names are. -/
theorem get?_cons (entry : List Name × α) (rest : Tree α) (names : List Name) :
    get? (entry :: rest) names = if entry.1 = names then some entry.2 else rest.get? names := by
  by_cases hnames : entry.1 = names <;> simp [get?, hnames]

/-- Nothing is found under names that the tree does not have. -/
theorem get?_eq_none_iff {tree : Tree α} {names : List Name} :
    tree.get? names = none ↔ ∀ entry ∈ tree, entry.1 ≠ names := by
  simp [get?]

/-- In an ordered tree the files that are found are those that are in it. -/
theorem Ordered.get?_eq_some_iff {tree : Tree α} (h : Tree.Ordered tree) {names : List Name}
    {file : α} : tree.get? names = some file ↔ (names, file) ∈ tree := by
  refine ⟨mem_of_get?, fun hmem => ?_⟩
  induction tree with
  | nil => exact absurd hmem (by simp)
  | cons entry rest ih =>
    obtain ⟨hfirst, hrest⟩ := List.pairwise_cons.mp h
    rcases List.mem_cons.mp hmem with heq | hmem
    · simp [get?, ← heq]
    · have hne : entry.1 ≠ names := by
        rintro rfl
        exact absurd (hfirst _ hmem) (lt_irrefl _)
      have htail := ih hrest hmem
      unfold get? at htail ⊢
      rwa [List.find?_cons_of_neg (by simpa using hne)]

/-- In an ordered tree names lead to one file only. -/
theorem Ordered.eq_of_mem {tree : Tree α} (h : Tree.Ordered tree) {names : List Name}
    {file other : α} (hfile : (names, file) ∈ tree) (hother : (names, other) ∈ tree) :
    file = other := by
  rw [← h.get?_eq_some_iff] at hfile hother
  rw [hfile] at hother
  exact Option.some.inj hother

/-- No names occur twice in an ordered tree. -/
theorem Ordered.nodup {tree : Tree α} (h : Tree.Ordered tree) : (List.map (·.1) tree).Nodup := by
  refine List.pairwise_map.mpr (List.Pairwise.imp (fun {entry other} hlt heq => ?_) h)
  rw [heq] at hlt
  exact lt_irrefl _ hlt

/-- Trees in strict order with the same files are equal. -/
theorem Ordered.ext {tree other : Tree α} (h : Tree.Ordered tree) (hother : Tree.Ordered other)
    (hmem : ∀ entry, entry ∈ tree ↔ entry ∈ other) : tree = other := by
  have : Std.Irrefl fun entry other : List Name × α => namesOrder entry.1 < namesOrder other.1 :=
    ⟨fun _ => lt_irrefl _⟩
  have : Std.Antisymm fun entry other : List Name × α => namesOrder entry.1 < namesOrder other.1 :=
    ⟨fun _ _ hlt hgt => absurd (lt_trans hlt hgt) (lt_irrefl _)⟩
  exact List.Pairwise.eq_of_mem_iff h hother hmem

/-! ## Adding and replacing -/

/-- Adding a file adds it and keeps the others. -/
theorem mem_insert_iff {tree : Tree α} {names : List Name} {file : α}
    {entry : List Name × α} :
    entry ∈ tree.insert names file ↔ entry = (names, file) ∨ entry ∈ tree := by
  induction tree with
  | nil => simp [insert]
  | cons first rest ih =>
    unfold insert
    split
    · rw [List.mem_cons, ih, List.mem_cons]
      exact or_left_comm
    · exact List.mem_cons

/-- Adding a file adds just one. -/
theorem perm_insert (tree : Tree α) (names : List Name) (file : α) :
    (tree.insert names file).Perm ((names, file) :: tree) := by
  induction tree with
  | nil => exact List.Perm.refl _
  | cons first rest ih =>
    unfold insert
    split
    · exact (ih.cons first).trans (List.Perm.swap _ _ _)
    · exact List.Perm.refl _

/-- A file that is added under new names shows there, and nowhere else. -/
theorem get?_insert {tree : Tree α} {names : List Name} (hnew : tree.get? names = none) (file : α)
    (other : List Name) :
    (tree.insert names file).get? other = if other = names then some file else tree.get? other := by
  induction tree with
  | nil =>
    rw [insert, get?_cons]
    simp only [eq_comm]
  | cons first rest ih =>
    have hnone := get?_eq_none_iff.mp hnew
    have hfirst : first.1 ≠ names := hnone first List.mem_cons_self
    have hrest : Tree.get? rest names = none :=
      get?_eq_none_iff.mpr fun entry hentry => hnone entry (List.mem_cons_of_mem _ hentry)
    unfold insert
    split
    · rw [get?_cons, get?_cons, ih hrest]
      by_cases hother : other = names
      · simp [hother, hfirst]
      · simp [hother]
    · rw [get?_cons]
      simp only [eq_comm]

/-- Adding a file under new names keeps the order. -/
theorem Ordered.insert {tree : Tree α} (h : Tree.Ordered tree) {names : List Name}
    (hnew : tree.get? names = none) (file : α) : Tree.Ordered (tree.insert names file) := by
  induction tree with
  | nil => exact List.pairwise_singleton _ _
  | cons first rest ih =>
    obtain ⟨hfirst, hrest⟩ := List.pairwise_cons.mp h
    have hnone := get?_eq_none_iff.mp hnew
    unfold Tree.insert
    split
    · rename_i hlt
      have hnewRest : Tree.get? rest names = none :=
        get?_eq_none_iff.mpr fun entry hentry => hnone entry (List.mem_cons_of_mem _ hentry)
      refine List.pairwise_cons.mpr ⟨fun entry hentry => ?_, ih hrest hnewRest⟩
      rcases mem_insert_iff.mp hentry with rfl | hentry
      · exact hlt
      · exact hfirst entry hentry
    · rename_i hnlt
      have hne : namesOrder first.1 ≠ namesOrder names :=
        fun heq => hnone first List.mem_cons_self (namesOrder_injective heq)
      have hlt : namesOrder names < namesOrder first.1 :=
        lt_of_le_of_ne (not_lt.mp hnlt) (Ne.symm hne)
      refine List.pairwise_cons.mpr ⟨fun entry hentry => ?_, h⟩
      rcases List.mem_cons.mp hentry with rfl | hentry
      · exact hlt
      · exact lt_trans hlt (hfirst entry hentry)

/-- A tree stays in order if files are replaced under their names. -/
theorem Ordered.map {β : Type} {tree : Tree α} (h : Tree.Ordered tree)
    {replace : List Name × α → List Name × β} (hnames : ∀ entry, (replace entry).1 = entry.1) :
    Tree.Ordered (List.map replace tree) := by
  refine List.pairwise_map.mpr (List.Pairwise.imp (fun {entry other} hlt => ?_) h)
  rwa [hnames, hnames]

/-- Replacing a file keeps the order. -/
theorem Ordered.set {tree : Tree α} (h : Tree.Ordered tree) (names : List Name) (file : α) :
    Tree.Ordered (tree.set names file) := by
  refine h.map fun entry => ?_
  split
  · rename_i heq
    exact heq.symm
  · rfl

/-- After a replacement a file is the new one under the given names, or an old one elsewhere. -/
theorem mem_set_iff {tree : Tree α} {names : List Name} {file : α} {entry : List Name × α} :
    entry ∈ tree.set names file ↔
      (entry = (names, file) ∧ ∃ old, (names, old) ∈ tree) ∨ (entry ∈ tree ∧ entry.1 ≠ names) := by
  simp only [set, List.mem_map]
  constructor
  · rintro ⟨old, hold, rfl⟩
    by_cases hnames : old.1 = names
    · rw [if_pos hnames, ← hnames]
      exact Or.inl ⟨rfl, old.2, hold⟩
    · rw [if_neg hnames]
      exact Or.inr ⟨hold, hnames⟩
  · rintro (⟨rfl, old, hold⟩ | ⟨hmem, hnames⟩)
    · exact ⟨(names, old), hold, if_pos rfl⟩
    · exact ⟨entry, hmem, if_neg hnames⟩

/-- Replacing a file by itself changes nothing. -/
theorem Ordered.set_self {tree : Tree α} (h : Tree.Ordered tree) {names : List Name} {file : α}
    (hget : tree.get? names = some file) : tree.set names file = tree := by
  refine (h.set names file).ext h fun entry => ?_
  have hmem := mem_of_get? hget
  rw [mem_set_iff]
  constructor
  · rintro (⟨rfl, -⟩ | ⟨hentry, -⟩)
    · exact hmem
    · exact hentry
  · intro hentry
    by_cases hnames : entry.1 = names
    · have hthere : (names, entry.2) ∈ tree := by rwa [← hnames]
      exact Or.inl ⟨Prod.ext hnames (h.eq_of_mem hthere hmem), file, hmem⟩
    · exact Or.inr ⟨hentry, hnames⟩

/-- Of two replacements under the same names the second one counts. -/
theorem set_set (tree : Tree α) (names : List Name) (file other : α) :
    (tree.set names file).set names other = tree.set names other := by
  rw [set, set, set, List.map_map]
  refine List.map_congr_left fun entry _ => ?_
  by_cases hnames : entry.1 = names <;> simp [hnames]

/-- A replacement shows under its names, if there was a file, and nowhere else. -/
theorem get?_set (tree : Tree α) (names other : List Name) (file : α) :
    (tree.set names file).get? other =
      if other = names then (tree.get? names).map fun _ => file else tree.get? other := by
  induction tree with
  | nil => simp [set, get?]
  | cons entry rest ih =>
    have hset : set (entry :: rest) names file =
        (if entry.1 = names then (names, file) else entry) :: set rest names file := rfl
    rw [hset, get?_cons, get?_cons, get?_cons, ih]
    by_cases hother : other = names
    · subst hother
      by_cases hfirst : entry.1 = other <;> simp [hfirst]
    · by_cases hfirst : entry.1 = names
      · simp [hfirst, hother, Ne.symm hother]
      · simp [hfirst, hother]

/-- A file is found as it was put. -/
theorem Ordered.get?_set_self {tree : Tree α} (h : Tree.Ordered tree) {names : List Name}
    {old : α} (hget : tree.get? names = some old) (file : α) :
    (tree.set names file).get? names = some file :=
  (h.set names file).get?_eq_some_iff.mpr
    (mem_set_iff.mpr (Or.inl ⟨rfl, old, mem_of_get? hget⟩))

/-- A replacement under other names does not matter to a file. -/
theorem Ordered.get?_set_of_ne {tree : Tree α} (h : Tree.Ordered tree) {names other : List Name}
    (hne : other ≠ names) (file : α) : (tree.set names file).get? other = tree.get? other := by
  refine Option.ext fun found => ?_
  rw [(h.set names file).get?_eq_some_iff, h.get?_eq_some_iff, mem_set_iff]
  constructor
  · rintro (⟨heq, -⟩ | ⟨hmem, -⟩)
    · exact absurd (congrArg Prod.fst heq) hne
    · exact hmem
  · exact fun hmem => Or.inr ⟨hmem, hne⟩

/-! ## Below a directory -/

/-- The files under the given names and under their extensions. -/
def below (tree : Tree α) (names : List Name) : Tree α :=
  tree.filter fun entry => names.isPrefixOf entry.1

theorem mem_below_iff {tree : Tree α} {names : List Name} {entry : List Name × α} :
    entry ∈ tree.below names ↔ entry ∈ tree ∧ names <+: entry.1 := by
  simp [below]

/-- The children of a directory are the files one name further. -/
theorem mem_childrenOf_iff {tree : Tree α} {names : List Name} {entry : List Name × α} :
    entry ∈ tree.childrenOf names ↔ entry ∈ tree ∧ ∃ name, entry.1 = names ++ [name] := by
  simp only [childrenOf, List.mem_filter]
  refine and_congr_right fun _ => ?_
  constructor
  · intro h
    obtain ⟨hne, hlast⟩ : entry.1 ≠ [] ∧ entry.1.dropLast = names := by simpa using h
    refine ⟨entry.1.getLast hne, ?_⟩
    rw [← hlast, List.dropLast_append_getLast]
  · rintro ⟨name, hname⟩
    simp [hname]

/-- Every file but the one without names is in a directory that the tree also holds. -/
def Closed (tree : Tree α) (directory : α → Bool) : Prop :=
  ∀ entry ∈ tree, entry.1 ≠ [] →
    ∃ parent, (entry.1.dropLast, parent) ∈ tree ∧ directory parent = true

/-- A closed tree holds everything that leads to one of its files, and directories only on the
way there. -/
theorem Closed.exists_mem_of_append {tree : Tree α} {directory : α → Bool}
    (h : Tree.Closed tree directory) {names rest : List Name} {file : α}
    (hmem : (names ++ rest, file) ∈ tree) :
    ∃ above, (names, above) ∈ tree ∧ (rest ≠ [] → directory above = true) := by
  induction rest using List.reverseRecOn generalizing file with
  | nil => exact ⟨file, by simpa using hmem, fun hne => absurd rfl hne⟩
  | append_singleton rest name ih =>
    obtain ⟨parent, hparent, hdirectory⟩ := h _ hmem (by simp)
    rw [← List.append_assoc, List.dropLast_concat] at hparent
    obtain ⟨above, habove, hrest⟩ := ih hparent
    by_cases hempty : rest = []
    · subst hempty
      exact ⟨parent, by simpa using hparent, fun _ => hdirectory⟩
    · exact ⟨above, habove, fun _ => hrest hempty⟩

/-- Only directories have children. -/
theorem Closed.childrenOf_eq_nil {tree : Tree α} {directory : α → Bool}
    (h : Tree.Closed tree directory) (hordered : Tree.Ordered tree) {names : List Name} {file : α}
    (hmem : (names, file) ∈ tree) (hfile : directory file = false) :
    tree.childrenOf names = [] := by
  rw [List.eq_nil_iff_forall_not_mem]
  intro child hchild
  obtain ⟨hmemChild, name, hname⟩ := mem_childrenOf_iff.mp hchild
  obtain ⟨parent, hparent, hdirectory⟩ := h child hmemChild (by simp [hname])
  rw [hname, List.dropLast_concat] at hparent
  rw [hordered.eq_of_mem hparent hmem, hfile] at hdirectory
  cases hdirectory

/-- Below a file of an ordered and closed tree is the file itself, and then what is below each of
its children. -/
theorem Ordered.below_eq {tree : Tree α} {directory : α → Bool} (h : Tree.Ordered tree)
    (hclosed : Tree.Closed tree directory) {names : List Name} {file : α}
    (hmem : (names, file) ∈ tree) :
    tree.below names =
      (names, file) :: (tree.childrenOf names).flatMap fun child => tree.below child.1 := by
  refine Tree.Ordered.ext (List.Pairwise.filter _ h) ?_ fun entry => ?_
  · -- The children ascend, and so do the blocks below them.
    refine List.pairwise_cons.mpr ⟨fun entry hentry => ?_, List.pairwise_flatMap.mpr ⟨?_, ?_⟩⟩
    · obtain ⟨child, hchild, hbelow⟩ := List.mem_flatMap.mp hentry
      obtain ⟨-, name, hname⟩ := mem_childrenOf_iff.mp hchild
      obtain ⟨rest, hrest⟩ := (mem_below_iff.mp hbelow).2
      rw [← hrest, hname, List.append_assoc]
      exact namesOrder_lt_append names (by simp)
    · exact fun child _ => List.Pairwise.filter _ h
    · have hchildren : List.Pairwise (fun entry other : List Name × α =>
          namesOrder entry.1 < namesOrder other.1) (tree.childrenOf names) :=
        List.Pairwise.filter _ h
      refine List.Pairwise.imp_of_mem (fun {child other} hchild hother hlt => ?_) hchildren
      intro entry hentry entry' hentry'
      obtain ⟨-, name, hname⟩ := mem_childrenOf_iff.mp hchild
      obtain ⟨-, name', hname'⟩ := mem_childrenOf_iff.mp hother
      obtain ⟨rest, hrest⟩ := (mem_below_iff.mp hentry).2
      obtain ⟨rest', hrest'⟩ := (mem_below_iff.mp hentry').2
      rw [hname, hname'] at hlt
      rw [← hrest, ← hrest', hname, hname']
      exact namesOrder_siblings_lt hlt
  · rw [mem_below_iff, List.mem_cons, List.mem_flatMap]
    constructor
    · rintro ⟨hentry, rest, hrest⟩
      cases rest with
      | nil =>
        left
        have hnames : entry.1 = names := by simpa using hrest.symm
        have hfile : (names, entry.2) ∈ tree := by rwa [← hnames]
        exact Prod.ext hnames (h.eq_of_mem hfile hmem)
      | cons name rest =>
        right
        have hlong : (names ++ [name] ++ rest, entry.2) ∈ tree := by
          have heq : names ++ [name] ++ rest = entry.1 := by simpa using hrest
          rwa [heq]
        obtain ⟨child, hchild, -⟩ := hclosed.exists_mem_of_append hlong
        refine ⟨(names ++ [name], child), mem_childrenOf_iff.mpr ⟨hchild, name, rfl⟩, ?_⟩
        exact mem_below_iff.mpr ⟨hentry, rest, by simpa using hrest⟩
    · rintro (rfl | ⟨child, hchild, hentry⟩)
      · exact ⟨hmem, List.prefix_rfl⟩
      · obtain ⟨-, name, hname⟩ := mem_childrenOf_iff.mp hchild
        obtain ⟨htree, hprefix⟩ := mem_below_iff.mp hentry
        refine ⟨htree, List.IsPrefix.trans ?_ hprefix⟩
        rw [hname]
        exact List.prefix_append _ _

end Tree

end PosixAcl
