import PosixAcl.Proofs.Host.Files
import PosixAcl.Proofs.Tool.Visits
import PosixAcl.Proofs.Walk.Trees

/-!
# Walks through a host's files

A walk goes down physical nesting only. From a path on, it meets the files that
stand below the file to which the path leads, in the order of their names. Links
among them are met like other files, wherever they lead. Only a directory whose path
has become too long cannot be listed.
-/

namespace PosixAcl

namespace Path

variable {p : Path} {name : Name}

/-- The path of a file below a directory is not empty. -/
theorem descendant_ne_nil (hp : p.bytes ≠ []) {names : List Name}
    (hnames : ∀ name ∈ names, name.IsFileName) : (p.descendant names).bytes ≠ [] := by
  induction names using List.reverseRecOn with
  | nil => exact hp
  | append_singleton rest name ih =>
    have hrest := ih fun other hother => hnames other (List.mem_append_left _ hother)
    rw [descendant_concat]
    exact List.ne_nil_of_length_pos
      (Nat.zero_lt_of_lt (length_lt_child hrest (hnames name (by simp))))

/-- The path of a file below a directory has no zero byte. -/
theorem zero_not_mem_descendant (hp : p.bytes ≠ []) (hzero : 0 ∉ p.bytes) {names : List Name}
    (hnames : ∀ name ∈ names, name.IsFileName) : 0 ∉ (p.descendant names).bytes := by
  induction names using List.reverseRecOn with
  | nil => exact hzero
  | append_singleton rest name ih =>
    have hothers : ∀ other ∈ rest, other.IsFileName :=
      fun other hother => hnames other (List.mem_append_left _ hother)
    rw [descendant_concat]
    exact zero_not_mem_child (descendant_ne_nil hp hothers) (ih hothers) (hnames name (by simp))

/-- Paths get longer on the way down. -/
theorem length_descendant_lt (hp : p.bytes ≠ []) {names : List Name}
    (hnames : ∀ other ∈ names ++ [name], other.IsFileName) :
    (p.descendant names).bytes.length < (p.descendant (names ++ [name])).bytes.length := by
  have hothers : ∀ other ∈ names, other.IsFileName :=
    fun other hother => hnames other (List.mem_append_left _ hother)
  rw [descendant_concat]
  exact length_lt_child (descendant_ne_nil hp hothers) (hnames name (by simp))

end Path

namespace Host

variable {host : Host} {path : Path} {names rest : List Name} {start inode : Inode}

/-! ## Files below a path -/

/-- A file below the one to which a path leads is located by the path that goes on with its names,
as long as it is not too long. -/
theorem locate_descendant (h : host.WellFormed)
    (hstart : host.locate false path = .ok (names, start))
    (hmem : (names ++ rest, inode) ∈ host.inodes)
    (hlength : (path.descendant rest).bytes.length < pathLimit) :
    host.locate false (path.descendant rest) = .ok (names ++ rest, inode) := by
  obtain ⟨-, hempty, -, -, hfound⟩ := locate_eq_ok_iff.mp hstart
  have hbytes : path.bytes ≠ [] := by simpa using hempty
  induction rest using List.reverseRecOn generalizing inode with
  | nil =>
    rw [List.append_nil] at hmem ⊢
    rw [← h.ordered.get?_eq_some_iff, hfound] at hmem
    rw [← Option.some.inj hmem]
    exact hstart
  | append_singleton rest name ih =>
    have hnames : ∀ other ∈ rest ++ [name], other.IsFileName :=
      fun other hother => h.names _ hmem other (List.mem_append_right _ hother)
    obtain ⟨parent, hparent, hdirectory⟩ := h.closed _ hmem (by simp)
    rw [← List.append_assoc, List.dropLast_concat] at hparent
    have hshorter := Nat.lt_trans (Path.length_descendant_lt hbytes hnames) hlength
    rw [← List.append_assoc] at hmem ⊢
    rw [Path.descendant_concat] at hlength ⊢
    exact locate_child (ih hparent hshorter) (by simpa [isDirectory] using hdirectory)
      (hnames name (by simp)) (h.ordered.get?_eq_some_iff.mpr hmem) hlength

/-- What a walk knows about a file below the one to which a path leads. -/
def statusBelow (path : Path) (names : List Name) (entry : List Name × Inode) : FileStatus :=
  ⟨path.descendant (entry.1.drop names.length), isDirectory entry.2⟩

theorem statusBelow_append (path : Path) (names rest : List Name) (inode : Inode) :
    statusBelow path names (names ++ rest, inode) = ⟨path.descendant rest, isDirectory inode⟩ := by
  rw [statusBelow, List.drop_left]

/-- A directory whose path is not too long is listed with the files in it. -/
theorem children_descendant (h : host.WellFormed)
    (hstart : host.locate false path = .ok (names, start))
    (hmem : (names ++ rest, inode) ∈ host.inodes) (hdirectory : isDirectory inode = true)
    (hlength : (path.descendant rest).bytes.length < pathLimit) :
    host.children (path.descendant rest) =
      .ok ((host.inodes.childrenOf (names ++ rest)).map (statusBelow path names)) := by
  have hkind : inode.kind = .directory := by simpa [isDirectory] using hdirectory
  have hlocate : host.locate true (path.descendant rest) = .ok (names ++ rest, inode) :=
    locate_follow (locate_descendant h hstart hmem hlength) (by simp [hkind]) true
  rw [children, hlocate]
  simp only [hdirectory, if_true]
  refine congrArg Except.ok (List.map_congr_left fun child hchild => ?_)
  obtain ⟨-, name, hname⟩ := Tree.mem_childrenOf_iff.mp hchild
  obtain ⟨childNames, childInode⟩ := child
  obtain rfl : childNames = names ++ rest ++ [name] := hname
  rw [List.append_assoc, statusBelow_append, Path.descendant_concat, ← List.append_assoc,
    List.getLast?_concat]
  rfl

/-- A directory whose path is too long cannot be listed. -/
theorem children_of_long (h : host.WellFormed)
    (hstart : host.locate false path = .ok (names, start))
    (hmem : (names ++ rest, inode) ∈ host.inodes)
    (hlength : pathLimit ≤ (path.descendant rest).bytes.length) :
    host.children (path.descendant rest) =
      .error ⟨path.descendant rest, .system .nameTooLong⟩ := by
  obtain ⟨hzero, hempty, -, -, -⟩ := locate_eq_ok_iff.mp hstart
  have hbytes : path.bytes ≠ [] := by simpa using hempty
  have hnames : ∀ name ∈ rest, name.IsFileName :=
    fun name hname => h.names _ hmem name (List.mem_append_right _ hname)
  have hzero' : 0 ∉ (path.descendant rest).bytes :=
    Path.zero_not_mem_descendant hbytes (by simpa using hzero) hnames
  have hempty' : (path.descendant rest).bytes.isEmpty = false := by
    simpa using Path.descendant_ne_nil hbytes hnames
  have hlocate : host.locate true (path.descendant rest) = .error .nameTooLong := by
    simp [locate, hzero', hempty', hlength]
  rw [children, hlocate]
  rfl

/-! ## Files that are met -/

/-- Whether a walk from a path gets as far as a file: unless it is where the walk begins, the path
of the directory that holds it is not too long. -/
def reaches (path : Path) (names : List Name) (entry : List Name × Inode) : Bool :=
  !names.isPrefixOf entry.1 || entry.1.drop names.length = [] ||
    (path.descendant (entry.1.drop names.length).dropLast).bytes.length < pathLimit

theorem reaches_append {path : Path} {names rest : List Name} {inode : Inode} :
    reaches path names (names ++ rest, inode) = true ↔
      (rest ≠ [] → (path.descendant rest.dropLast).bytes.length < pathLimit) := by
  have hprefix : names.isPrefixOf (names ++ rest) = true := by simp
  simp only [reaches, hprefix, List.drop_left, Bool.not_true, Bool.false_or, Bool.or_eq_true,
    decide_eq_true_eq]
  by_cases hrest : rest = [] <;> simp [hrest]

/-- The files of a host without those that a walk from a path does not reach. -/
def reached (host : Host) (path : Path) (names : List Name) : Tree Inode :=
  host.inodes.filter (reaches path names)

theorem mem_reached_iff {entry : List Name × Inode} :
    entry ∈ host.reached path names ↔
      entry ∈ host.inodes ∧ reaches path names entry = true :=
  List.mem_filter

/-- What a walk reaches is in order. -/
theorem ordered_reached (h : host.WellFormed) (path : Path) (names : List Name) :
    Tree.Ordered (host.reached path names) :=
  List.Pairwise.filter _ h.ordered

/-- What a walk reaches is in directories that it reaches. -/
theorem closed_reached (h : host.WellFormed)
    (hstart : host.locate false path = .ok (names, start)) :
    Tree.Closed (host.reached path names) isDirectory := by
  intro entry hentry hne
  obtain ⟨hmem, hreaches⟩ := mem_reached_iff.mp hentry
  obtain ⟨parent, hparent, hdirectory⟩ := h.closed entry hmem hne
  refine ⟨parent, mem_reached_iff.mpr ⟨hparent, ?_⟩, hdirectory⟩
  by_cases hbelow : names <+: entry.1.dropLast
  · -- The path of the directory is shorter than that of the file, and so are those above it.
    obtain ⟨rest, hrest⟩ := hbelow
    obtain ⟨found, inode⟩ := entry
    obtain ⟨above, name, rfl⟩ := List.eq_nil_or_concat' found |>.resolve_left hne
    rw [List.dropLast_concat] at hrest hparent ⊢
    subst hrest
    rw [List.append_assoc, reaches_append] at hreaches
    have hshort := hreaches (by simp)
    rw [List.dropLast_concat] at hshort
    rw [reaches_append]
    intro hnonempty
    obtain ⟨before, last, rfl⟩ := List.eq_nil_or_concat' rest |>.resolve_left hnonempty
    have hnames : ∀ other ∈ before ++ [last], other.IsFileName :=
      fun other hother => h.names _ hparent other (List.mem_append_right _ hother)
    obtain ⟨-, hempty, -, -, -⟩ := locate_eq_ok_iff.mp hstart
    rw [List.dropLast_concat]
    exact Nat.lt_trans (Path.length_descendant_lt (by simpa using hempty) hnames) hshort
  · have hother : names.isPrefixOf entry.1.dropLast = false :=
      Bool.eq_false_iff.mpr fun hprefix => hbelow (List.isPrefixOf_iff_prefix.mp hprefix)
    simp [reaches, hother]

/-- The listings of a host are those of the files that a walk reaches. -/
theorem lists_reached (h : host.WellFormed)
    (hstart : host.locate false path = .ok (names, start)) :
    Walk.Lists host.children (host.reached path names) isDirectory (statusBelow path names)
      names where
  directory_statusAt _ := rfl
  children entry hentry hdirectory := by
    obtain ⟨hreached, rest, hrest⟩ := Tree.mem_below_iff.mp hentry
    obtain ⟨found, inode⟩ := entry
    obtain rfl : names ++ rest = found := hrest
    have hmem := (mem_reached_iff.mp hreached).1
    rw [statusBelow_append]
    have hchild : ∀ child ∈ host.inodes.childrenOf (names ++ rest),
        reaches path names child = true ↔ (path.descendant rest).bytes.length < pathLimit := by
      intro child hchild
      obtain ⟨-, name, hname⟩ := Tree.mem_childrenOf_iff.mp hchild
      obtain ⟨childNames, childInode⟩ := child
      obtain rfl : childNames = names ++ rest ++ [name] := hname
      rw [List.append_assoc, reaches_append, List.dropLast_concat]
      exact ⟨fun hshort => hshort (by simp), fun hshort _ => hshort⟩
    have hchildren : Tree.childrenOf (host.reached path names) (names ++ rest) =
        (host.inodes.childrenOf (names ++ rest)).filter (reaches path names) := by
      simp only [reached, Tree.childrenOf, List.filter_filter, Bool.and_comm]
    by_cases hlength : (path.descendant rest).bytes.length < pathLimit
    · refine Or.inl ?_
      rw [children_descendant h hstart hmem hdirectory hlength, hchildren,
        List.filter_eq_self.mpr fun child hin => (hchild child hin).mpr hlength]
    · refine Or.inr ⟨?_, _, children_of_long h hstart hmem (Nat.le_of_not_lt hlength)⟩
      rw [hchildren, List.filter_eq_nil_iff]
      exact fun child hin hreaches => hlength ((hchild child hin).mp hreaches)

/-- The files that a walk from a path meets. -/
def visited (host : Host) (path : Path) (names : List Name) : Tree Inode :=
  (host.reached path names).below names

/-- A walk meets a file below its start unless the path of its directory is too long. -/
theorem mem_visited_iff {entry : List Name × Inode} :
    entry ∈ host.visited path names ↔ entry ∈ host.inodes ∧ ∃ rest, entry.1 = names ++ rest ∧
      (rest ≠ [] → (path.descendant rest.dropLast).bytes.length < pathLimit) := by
  obtain ⟨found, inode⟩ := entry
  rw [visited, Tree.mem_below_iff, mem_reached_iff, and_assoc]
  refine and_congr_right fun _ => ?_
  constructor
  · rintro ⟨hreaches, rest, rfl⟩
    exact ⟨rest, rfl, reaches_append.mp hreaches⟩
  · rintro ⟨rest, hrest, hlength⟩
    obtain rfl : found = names ++ rest := hrest
    exact ⟨reaches_append.mpr hlength, List.prefix_append _ _⟩

/-- The start of a walk is met. -/
theorem start_mem_visited (h : host.WellFormed)
    (hstart : host.locate false path = .ok (names, start)) :
    (names, start) ∈ host.visited path names := by
  obtain ⟨-, -, -, -, hfound⟩ := locate_eq_ok_iff.mp hstart
  exact mem_visited_iff.mpr ⟨h.ordered.get?_eq_some_iff.mp hfound, [], (List.append_nil _).symm,
    fun hne => absurd rfl hne⟩

/-- From a file on, a walk meets the files below it, in the order of the host. -/
theorem preOrder_visited (h : host.WellFormed)
    (hstart : host.locate false path = .ok (names, start)) :
    Walk.PreOrder host.children [⟨path, isDirectory start⟩]
      ((host.visited path names).map (statusBelow path names)) := by
  have hroot : (names, start) ∈ (host.reached path names).below names := start_mem_visited h hstart
  have hstatus : statusBelow path names (names, start) = ⟨path, isDirectory start⟩ := by
    have hself := statusBelow_append path names [] start
    rwa [List.append_nil] at hself
  rw [← hstatus]
  exact (lists_reached h hstart).preOrder_of_mem (ordered_reached h path names)
    (closed_reached h hstart) hroot

/-- The files that a walk meets are files of the host. -/
theorem length_visited_le (host : Host) (path : Path) (names : List Name) :
    (host.visited path names).length ≤ host.inodes.length :=
  (List.length_filter_le _ _).trans (List.length_filter_le _ _)

/-- From a file on, the listings of a host unfold into the files that a walk meets. -/
theorem unfolds (h : host.WellFormed) (hstart : host.locate false path = .ok (names, start)) :
    backend.Unfolds ⟨path, isDirectory start⟩
      ((host.visited path names).map (statusBelow path names)) host := by
  refine ⟨host.children, steady h, preOrder_visited h hstart, ?_⟩
  have hfewer := host.length_visited_le path names
  have hbound : backend.walkBound host = 2 * host.inodes.length := rfl
  rw [List.length_map, hbound]
  omega

/-! ## Orders of names -/

/-- Lists of file names that are in the order of a tree are in the lexicographic order of the bytes
of the names. -/
theorem lex_of_namesOrder_lt {names others : List Name}
    (hnames : ∀ name ∈ names, name.IsFileName) (h : namesOrder names < namesOrder others) :
    List.Lex (· < ·) names others := by
  have hlex := namesOrder_lt_iff.mp h
  clear h
  induction hlex with
  | nil => exact .nil
  | cons _ ih => exact .cons (ih fun name hname => hnames name (List.mem_cons_of_mem _ hname))
  | rel hbefore =>
    exact .rel (hbefore.2.resolve_left (hnames _ List.mem_cons_self).ne_dotDot)

/-- The files that a walk meets are in the lexicographic order of their names. -/
theorem pairwise_visited (h : host.WellFormed) (path : Path) (names : List Name) :
    (host.visited path names).Pairwise fun entry other => List.Lex (· < ·) entry.1 other.1 := by
  have hordered : Tree.Ordered (host.visited path names) :=
    List.Pairwise.filter _ (ordered_reached h path names)
  refine List.Pairwise.imp_of_mem (fun {entry other} hentry _ hlt => ?_) hordered
  exact lex_of_namesOrder_lt (h.names entry (mem_visited_iff.mp hentry).1) hlt

/-! ## Whole walks -/

/-- Listing directories does not change a host. -/
theorem afterCalls_listCalls (host : Host) (files : List FileStatus) :
    backend.afterCalls (files.flatMap Walk.listCalls) host = host := by
  induction files with
  | nil => rfl
  | cons file rest ih =>
    have hfirst : backend.afterCalls (Walk.listCalls file) host = host := by
      unfold Walk.listCalls
      split <;> rfl
    rw [List.flatMap_cons, Backend.afterCalls_append, hfirst, ih]

/-- What a walk yields for a file that it meets: the file, and the failure to list it if it is a
directory with a path that is too long. -/
def itemsBelow (path : Path) (names : List Name) (entry : List Name × Inode) : List WalkItem :=
  let file := statusBelow path names entry
  .ok file :: if file.directory ∧ pathLimit ≤ file.path.bytes.length then
    [.error (.listing ⟨file.path, .system .nameTooLong⟩)] else []

/-- A walk yields just this for the files that it meets. -/
theorem itemsOf_visited (h : host.WellFormed)
    (hstart : host.locate false path = .ok (names, start)) {entry : List Name × Inode}
    (hmem : entry ∈ host.visited path names) :
    Walk.itemsOf host.children (statusBelow path names entry) = itemsBelow path names entry := by
  obtain ⟨hinode, rest, hrest, -⟩ := mem_visited_iff.mp hmem
  obtain ⟨found, inode⟩ := entry
  obtain rfl : found = names ++ rest := hrest
  simp only [Walk.itemsOf, itemsBelow, statusBelow_append]
  cases hdirectory : isDirectory inode with
  | false => simp
  | true =>
    by_cases hlength : pathLimit ≤ (path.descendant rest).bytes.length
    · simp [children_of_long h hstart hinode hlength, hlength]
    · simp [children_descendant h hstart hinode hdirectory (Nat.lt_of_not_le hlength), hlength]

/-- A walk that is not cut off yields the files that it meets and then is over. -/
theorem collect_visited (h : host.WellFormed)
    (hstart : host.locate false path = .ok (names, start)) {steps : Nat}
    (hsteps : 2 * host.inodes.length ≤ steps) :
    Walk.collect backend steps [.ok ⟨path, isDirectory start⟩] host =
      ((host.visited path names).flatMap (itemsBelow path names), host) := by
  have hitems : ((host.visited path names).map (statusBelow path names)).flatMap
      (Walk.itemsOf host.children) =
        (host.visited path names).flatMap (itemsBelow path names) := by
    rw [List.flatMap_map]
    exact List.flatMap_congr fun entry hentry => itemsOf_visited h hstart hentry
  have hlength := Walk.length_items_le host.children
    ((host.visited path names).map (statusBelow path names))
  have hfewer := host.length_visited_le path names
  rw [List.length_map] at hlength
  have hcollect := Walk.collect_eq (preOrder_visited h hstart) (steady h).listsAs
    (hlength.trans ((Nat.mul_le_mul_left 2 hfewer).trans hsteps))
  rwa [hitems, afterCalls_listCalls] at hcollect

/-- A walk from a path yields what it meets below the file to which the path leads. -/
theorem items_visited (h : host.WellFormed)
    (hstart : host.locate false path = .ok (names, start)) :
    Walk.items backend path host =
      (.ok ((host.visited path names).flatMap (itemsBelow path names)), host) := by
  have hroot : backend.perform (.fileStatus path) host =
      (.ok ⟨path, isDirectory start⟩, host) := by
    simp only [backend, fileStatus, hstart]
    rfl
  have hbound : 2 * host.inodes.length ≤ backend.walkBound host := Nat.le_refl _
  simp only [Walk.items, Walk.start, hroot, collect_visited h hstart hbound]

/-- Nothing is below a link. -/
theorem eq_of_below_link (h : host.WellFormed) (hmem : (names, inode) ∈ host.inodes) {target : Path}
    (hlink : inode.kind = .link target) {below : Inode}
    (hbelow : (names ++ rest, below) ∈ host.inodes) : rest = [] ∧ below = inode := by
  obtain ⟨above, habove, hdirectory⟩ := h.closed.exists_mem_of_append hbelow
  obtain rfl := h.ordered.eq_of_mem habove hmem
  have hempty : rest = [] := by
    by_contra hne
    have hkind := hdirectory hne
    rw [isDirectory, hlink] at hkind
    cases hkind
  subst hempty
  rw [List.append_nil] at hbelow
  exact ⟨rfl, h.ordered.eq_of_mem hbelow hmem⟩

/-- Every directory from a file on can be listed by the path that leads to it. -/
def AllListed (host : Host) (path : Path) (names : List Name) : Prop :=
  ∀ rest directory, (names ++ rest, directory) ∈ host.inodes → directory.kind = .directory →
    ∃ listing, host.children (path.descendant rest) = .ok listing

/-- Where every directory can be listed, no path of a directory is too long. -/
theorem AllListed.length_lt (hlisted : host.AllListed path names) (h : host.WellFormed)
    (hstart : host.locate false path = .ok (names, start))
    (hmem : (names ++ rest, inode) ∈ host.inodes) (hdirectory : isDirectory inode = true) :
    (path.descendant rest).bytes.length < pathLimit := by
  obtain ⟨listing, hlisting⟩ := hlisted rest inode hmem (by simpa [isDirectory] using hdirectory)
  rcases Nat.lt_or_ge (path.descendant rest).bytes.length pathLimit with hshort | hlong
  · exact hshort
  · rw [children_of_long h hstart hmem hlong] at hlisting
    cases hlisting

/-- Where every directory can be listed, a walk meets everything below its start. -/
theorem AllListed.mem_visited_iff (hlisted : host.AllListed path names) (h : host.WellFormed)
    (hstart : host.locate false path = .ok (names, start)) {entry : List Name × Inode} :
    entry ∈ host.visited path names ↔ entry ∈ host.inodes ∧ names <+: entry.1 := by
  obtain ⟨found, inode⟩ := entry
  rw [Host.mem_visited_iff]
  refine and_congr_right fun hmem => ⟨?_, ?_⟩
  · rintro ⟨rest, hrest, -⟩
    exact ⟨rest, hrest.symm⟩
  · rintro ⟨rest, hrest⟩
    obtain rfl : names ++ rest = found := hrest
    refine ⟨rest, rfl, fun hne => ?_⟩
    obtain ⟨before, last, rfl⟩ := List.eq_nil_or_concat' rest |>.resolve_left hne
    obtain ⟨parent, hparent, hdirectory⟩ := h.closed _ hmem (by simp)
    rw [← List.append_assoc, List.dropLast_concat] at hparent
    rw [List.dropLast_concat]
    exact hlisted.length_lt h hstart hparent hdirectory

/-- Where every directory can be listed, a walk yields files only. -/
theorem AllListed.flatMap_itemsBelow (hlisted : host.AllListed path names) (h : host.WellFormed)
    (hstart : host.locate false path = .ok (names, start)) :
    (host.visited path names).flatMap (itemsBelow path names) =
      (host.visited path names).map fun entry => .ok (statusBelow path names entry) := by
  rw [List.map_eq_flatMap]
  refine List.flatMap_congr fun entry hentry => ?_
  obtain ⟨hmem, rest, hrest, -⟩ := Host.mem_visited_iff.mp hentry
  obtain ⟨found, inode⟩ := entry
  obtain rfl : found = names ++ rest := hrest
  rw [itemsBelow, statusBelow_append]
  refine congrArg (List.cons _) (if_neg fun hlong => ?_)
  exact Nat.not_le_of_lt (hlisted.length_lt h hstart hmem hlong.1) hlong.2

/-- What a walk through a host's files yields. Whatever the links are, it ends, and it leaves the
host as it is. From a path on, it yields a file for everything that stands below the file to which
the path leads, the file itself included: each once, in the lexicographic order of the names that
lead to it, so that a directory comes before what is in it, and what is below one of its entries
comes before the next entry. The path of such a file is the one at which the walk began and then
these names. A link is yielded as a file that is no directory, and nothing is below it.

Only a directory whose path is too long cannot be listed. The failure follows the directory then,
and what is in it is left out. Where every directory can be listed, everything is yielded, and
nothing fails. -/
theorem walk_yields (h : host.WellFormed) (hstart : host.locate false path = .ok (names, start)) :
    let files := host.visited path names
    let pathOf (entry : List Name × Inode) := path.descendant (entry.1.drop names.length)
    let items := files.flatMap fun entry =>
      .ok ⟨pathOf entry, entry.2.kind = .directory⟩ ::
        if entry.2.kind = .directory ∧ pathLimit ≤ (pathOf entry).bytes.length then
          [.error (.listing ⟨pathOf entry, .system .nameTooLong⟩)] else []
    files.Pairwise (fun entry other => List.Lex (· < ·) entry.1 other.1) ∧
    (∀ found inode, (found, inode) ∈ files ↔ (found, inode) ∈ host.inodes ∧
      ∃ rest, found = names ++ rest ∧
        (rest ≠ [] → (path.descendant rest.dropLast).bytes.length < pathLimit)) ∧
    (∀ entry ∈ files, ∀ target, entry.2.kind = .link target →
      ∀ other ∈ files, entry.1 <+: other.1 → other = entry) ∧
    Walk.items backend path host = (.ok items, host) ∧
    (∀ steps, 2 * host.inodes.length ≤ steps →
      Walk.collect backend steps [.ok ⟨path, start.kind = .directory⟩] host = (items, host)) ∧
    (host.AllListed path names →
      (∀ entry, entry ∈ files ↔ entry ∈ host.inodes ∧ names <+: entry.1) ∧
      items = files.map fun entry => .ok ⟨pathOf entry, entry.2.kind = .directory⟩) := by
  intro files pathOf items
  have hitems : items = files.flatMap (itemsBelow path names) :=
    List.flatMap_congr fun entry _ => by simp [itemsBelow, statusBelow, isDirectory, pathOf]
  refine ⟨pairwise_visited h path names, fun found inode => mem_visited_iff,
    fun entry hentry target hlink => ?_, hitems ▸ items_visited h hstart,
    fun steps hsteps => hitems ▸ collect_visited h hstart hsteps,
    fun hlisted => ⟨fun entry => hlisted.mem_visited_iff h hstart, ?_⟩⟩
  · rintro ⟨found, inode⟩ hother ⟨rest, hrest⟩
    obtain rfl : entry.1 ++ rest = found := hrest
    obtain ⟨rfl, rfl⟩ := eq_of_below_link h (mem_visited_iff.mp hentry).1 hlink
      (mem_visited_iff.mp hother).1
    rw [List.append_nil]
  · rw [hitems]
    exact hlisted.flatMap_itemsBelow h hstart

/-- The directory `d` holds the link `l` that leads back to it. A walk yields the two, and it does
not go round. -/
theorem walk_yields_loop :
    let work : Name := [0x77, 0x6F, 0x72, 0x6B]
    let d : Name := [0x64]
    let l : Name := [0x6C]
    let host : Host := { initial with
      inodes := [([], rootInode), ([work], rootInode), ([work, d], rootInode),
        ([work, d, l], ⟨.link ⟨dot⟩, 0o777, 0, 0⟩)] }
    host.WellFormed ∧ host.locate false ⟨d⟩ = .ok ([work, d], rootInode) ∧
      host.AllListed ⟨d⟩ [work, d] ∧
      Walk.items backend ⟨d⟩ host =
        (.ok [.ok ⟨⟨d⟩, true⟩, .ok ⟨⟨[0x64, 0x2F, 0x6C]⟩, false⟩], host) := by
  intro work d l host
  have h : host.WellFormed :=
    wellFormed_initial.addAll
      [(⟨d⟩, rootInode), (⟨[0x64, 0x2F, 0x6C]⟩, ⟨.link ⟨dot⟩, 0o777, 0, 0⟩)]
      (by decide) rfl
  have hstart : host.locate false ⟨d⟩ = .ok ([work, d], rootInode) := by rfl
  have hlisted : host.AllListed ⟨d⟩ [work, d] := by
    intro rest directory hmem hdirectory
    rcases rest with _ | ⟨name, rest⟩
    · exact ⟨[⟨⟨[0x64, 0x2F, 0x6C]⟩, false⟩], rfl⟩
    · obtain ⟨-, hlink⟩ : (name = l ∧ rest = []) ∧ directory = ⟨.link ⟨dot⟩, 0o777, 0, 0⟩ := by
        simpa [host] using hmem
      rw [hlink] at hdirectory
      cases hdirectory
  obtain ⟨-, -, -, hitems, -, hall⟩ := walk_yields h hstart
  refine ⟨h, hstart, hlisted, ?_⟩
  rw [hitems, (hall hlisted).2]
  rfl

end Host

end PosixAcl
