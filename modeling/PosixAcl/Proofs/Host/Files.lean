import PosixAcl.Proofs.Host.Descent
import PosixAcl.Proofs.Walk.PreOrder

/-!
# Trees of files on a host

On a host every file but the root is in a directory, and each has the name of a
file there. Adding files keeps this up. Changes of permissions keep all of it as it
is but the modes, and so neither what paths lead to nor any listing depends on
them.
-/

namespace PosixAcl

namespace Tree

variable {α β : Type}

/-- What is found in a tree whose files were replaced is a replaced file. -/
theorem get?_map (tree : Tree α) (f : α → β) (names : List Name) :
    Tree.get? (List.map (fun entry => (entry.1, f entry.2)) tree) names =
      (tree.get? names).map f := by
  simp [get?, List.find?_map, Function.comp_def]

end Tree

namespace Host

/-- The files of a host form a tree of directories with regular files and links in them. -/
structure WellFormed (host : Host) : Prop where
  /-- The names of the files ascend strictly. -/
  ordered : Tree.Ordered host.inodes
  /-- The root is a directory. -/
  root : host.kindAt [] = some .directory
  /-- Every file but the root is in a directory. -/
  closed : Tree.Closed host.inodes isDirectory
  /-- Files have the names of files. -/
  names : ∀ entry ∈ host.inodes, ∀ name ∈ entry.1, name.IsFileName

variable {host other : Host}

/-- The host without any files of its own is well-formed. -/
theorem wellFormed_initial : initial.WellFormed where
  ordered := by
    unfold Tree.Ordered
    decide
  root := rfl
  closed := by
    intro entry hentry hne
    have hcases : entry = ([], rootInode) ∨ entry = ([[0x77, 0x6F, 0x72, 0x6B]], rootInode) := by
      simpa [initial] using hentry
    rcases hcases with rfl | rfl
    · exact absurd rfl hne
    · exact ⟨rootInode, by simp [initial], rfl⟩
  names := by
    intro entry hentry name hname
    have hcases : entry = ([], rootInode) ∨ entry = ([[0x77, 0x6F, 0x72, 0x6B]], rootInode) := by
      simpa [initial] using hentry
    rcases hcases with rfl | rfl
    · simp at hname
    · obtain rfl := List.mem_singleton.mp hname
      exact ⟨by decide, by decide, by decide, by decide, by decide, by decide⟩

/-- Adding a file puts it under a free name in a directory. -/
theorem exists_of_add {path : Path} {inode : Inode} (h : host.add path inode = .ok other) :
    ∃ directory name,
      other = { host with inodes := host.inodes.insert (directory ++ [name]) inode } ∧
      host.kindAt directory = some .directory ∧ host.kindAt (directory ++ [name]) = none ∧
      name ∈ path.plainComponents ∧ name ≠ dot ∧ name ≠ dotDot ∧ name.length ≤ maxNameLength := by
  unfold add at h
  simp only at h
  split at h
  · cases h
  · rename_i name hlast
    split at h
    · cases h
    · rename_i directory hresolve
      split_ifs at h with hdirectory hdots hlength
      split at h
      · cases h
      · rename_i hnone
        have hdots' := not_or.mp hdots
        exact ⟨directory, name, (Except.ok.inj h).symm, not_not.mp hdirectory, hnone,
          List.mem_of_getLast? hlast, hdots'.1, hdots'.2, Nat.le_of_not_lt hlength⟩

/-- A host stays well-formed if a file is added. -/
theorem WellFormed.add (h : host.WellFormed) {path : Path} (hzero : 0 ∉ path.bytes) {inode : Inode}
    (hok : host.add path inode = .ok other) : other.WellFormed := by
  obtain ⟨directory, name, rfl, hdirectory, hfree, hname, hdot, hdotDot, hlength⟩ :=
    exists_of_add hok
  obtain ⟨parent, hparent, hkind⟩ := Option.map_eq_some_iff.mp hdirectory
  have hparentMem := Tree.mem_of_get? hparent
  have hnew : host.inodes.get? (directory ++ [name]) = none := Option.map_eq_none_iff.mp hfree
  refine ⟨h.ordered.insert hnew inode, ?_, fun entry hentry hne => ?_, fun entry hentry n hn => ?_⟩
  · have hroot := h.root
    rw [kindAt] at hroot ⊢
    rw [Tree.get?_insert hnew, if_neg (by simp)]
    exact hroot
  · rcases Tree.mem_insert_iff.mp hentry with rfl | hold
    · refine ⟨parent, Tree.mem_insert_iff.mpr (Or.inr ?_), by simp [isDirectory, hkind]⟩
      rwa [List.dropLast_concat]
    · obtain ⟨above, habove, hisDirectory⟩ := h.closed entry hold hne
      exact ⟨above, Tree.mem_insert_iff.mpr (Or.inr habove), hisDirectory⟩
  · rcases Tree.mem_insert_iff.mp hentry with rfl | hold
    · rcases List.mem_append.mp hn with habove | hlast
      · exact h.names _ hparentMem n habove
      · obtain rfl := List.mem_singleton.mp hlast
        obtain ⟨hfield, hnonempty⟩ := List.mem_filter.mp hname
        refine ⟨by simpa using hnonempty, hdot, hdotDot, not_mem_of_mem_fields hfield,
          fun hin => hzero (mem_of_mem_field hfield hin), hlength⟩
    · exact h.names entry hold n hn

/-- A host stays well-formed if one file is added after the other. -/
theorem WellFormed.addAll (h : host.WellFormed) (files : List (Path × Inode))
    (hzero : ∀ file ∈ files, 0 ∉ file.1.bytes)
    (hok : files.foldlM (fun host file => host.add file.1 file.2) host = .ok other) :
    other.WellFormed := by
  induction files generalizing host with
  | nil => exact Except.ok.inj hok ▸ h
  | cons file rest ih =>
    rw [List.foldlM_cons] at hok
    cases hadd : host.add file.1 file.2 with
    | error failure =>
      rw [hadd] at hok
      cases hok
    | ok added =>
      rw [hadd] at hok
      exact ih (h.add (hzero file List.mem_cons_self) hadd)
        (fun file hfile => hzero file (List.mem_cons_of_mem _ hfile)) hok

/-! ## All but the modes -/

/-- A file without its mode. -/
def unmoded (inode : Inode) : Inode :=
  { inode with mode := 0 }

/-- The files of a host without their modes. -/
def unmodedFiles (host : Host) : Tree Inode :=
  host.inodes.map fun entry => (entry.1, unmoded entry.2)

/-- The order of files does not depend on modes. -/
theorem ordered_unmodedFiles_iff : Tree.Ordered host.unmodedFiles ↔ Tree.Ordered host.inodes :=
  List.pairwise_map

/-- Two hosts have the same files, with the same kinds and owners. Only modes may be different. -/
structure SameFiles (host other : Host) : Prop where
  /-- The files are the same. -/
  files : other.unmodedFiles = host.unmodedFiles
  /-- So is the working directory. -/
  workingDirectory : other.workingDirectory = host.workingDirectory

theorem SameFiles.refl (host : Host) : host.SameFiles host :=
  ⟨rfl, rfl⟩

theorem SameFiles.trans {last : Host} (h : host.SameFiles other) (hlast : other.SameFiles last) :
    host.SameFiles last :=
  ⟨hlast.files.trans h.files, hlast.workingDirectory.trans h.workingDirectory⟩

/-- The same files are found under the same names. -/
theorem SameFiles.get?_eq (h : host.SameFiles other) (names : List Name) :
    (other.inodes.get? names).map unmoded = (host.inodes.get? names).map unmoded := by
  rw [← Tree.get?_map, ← Tree.get?_map]
  exact congrArg (Tree.get? · names) h.files

/-- The same files have the same kinds. -/
theorem SameFiles.kindAt_eq (h : host.SameFiles other) : other.kindAt = host.kindAt := by
  have hview : ∀ host : Host, ∀ names,
      host.kindAt names = ((host.inodes.get? names).map unmoded).map Inode.kind := by
    intro host names
    rw [Option.map_map]
    rfl
  funext names
  rw [hview, hview, h.get?_eq]

/-- A path leads to the same file. -/
theorem SameFiles.locate_eq (h : host.SameFiles other) (followLast : Bool) (path : Path) :
    (other.locate followLast path).map (fun found => (found.1, unmoded found.2)) =
      (host.locate followLast path).map fun found => (found.1, unmoded found.2) := by
  unfold locate
  rw [resolve_congr h.kindAt_eq, h.workingDirectory]
  generalize (if path.isAbsolute then [] else host.workingDirectory) = start
  split_ifs
  · rfl
  · rfl
  · rfl
  cases host.resolve followLast maxLinks start path.components with
  | error error => rfl
  | ok names =>
    have hfile := h.get?_eq names
    cases hother : other.inodes.get? names with
    | none =>
      rw [hother] at hfile
      simp [hother, Option.map_eq_none_iff.mp hfile.symm, Except.map]
    | some inode =>
      rw [hother] at hfile
      obtain ⟨there, hthere, hsame⟩ := Option.map_eq_some_iff.mp hfile.symm
      simp [hother, hthere, hsame, Except.map]

/-- A path fails in the same way or leads to the same names, where the files differ in their modes
at most. -/
theorem SameFiles.locate_cases (h : host.SameFiles other) (followLast : Bool) (path : Path) :
    (∃ error, other.locate followLast path = .error error ∧
      host.locate followLast path = .error error) ∨
    ∃ names inode same, other.locate followLast path = .ok (names, inode) ∧
      host.locate followLast path = .ok (names, same) ∧ unmoded inode = unmoded same := by
  have hsame := h.locate_eq followLast path
  cases hother : other.locate followLast path with
  | error error =>
    rw [hother] at hsame
    cases hbefore : host.locate followLast path with
    | error failure =>
      rw [hbefore] at hsame
      exact Or.inl ⟨error, rfl, hsame.symm⟩
    | ok found =>
      rw [hbefore] at hsame
      cases hsame
  | ok found =>
    rw [hother] at hsame
    cases hbefore : host.locate followLast path with
    | error failure =>
      rw [hbefore] at hsame
      cases hsame
    | ok before =>
      rw [hbefore] at hsame
      obtain ⟨hnames, hinode⟩ := Prod.mk.inj (Except.ok.inj hsame)
      exact Or.inr ⟨found.1, found.2, before.2, rfl,
        congrArg Except.ok (Prod.ext hnames.symm rfl), hinode⟩

/-- A path leads to a file under the same names. -/
theorem SameFiles.exists_locate (h : host.SameFiles other) {followLast : Bool} {path : Path}
    {names : List Name} {inode : Inode}
    (hfound : other.locate followLast path = .ok (names, inode)) :
    ∃ same, host.locate followLast path = .ok (names, same) := by
  rcases h.locate_cases followLast path with
    ⟨error, hother, -⟩ | ⟨there, found, same, hother, hbefore, -⟩
  · cases hother.symm.trans hfound
  · obtain ⟨rfl, -⟩ := Prod.mk.inj (Except.ok.inj (hother.symm.trans hfound))
    exact ⟨same, hbefore⟩

/-- A listing is the same. -/
theorem SameFiles.children_eq (h : host.SameFiles other) (path : Path) :
    other.children path = host.children path := by
  -- A listing tells the kinds of the files only, and so it can do without the modes.
  have hentries : ∀ (host : Host) names,
      ((host.inodes.childrenOf names).map fun entry =>
        FileStatus.mk (path.child (entry.1.getLast?.getD [])) (isDirectory entry.2)) =
      (Tree.childrenOf host.unmodedFiles names).map fun entry =>
        FileStatus.mk (path.child (entry.1.getLast?.getD [])) (isDirectory entry.2) := by
    intro host names
    simp only [unmodedFiles, Tree.childrenOf, List.filter_map, List.map_map]
    rfl
  unfold children
  rcases h.locate_cases true path with
    ⟨error, hother, hbefore⟩ | ⟨names, inode, same, hother, hbefore, hsame⟩
  · rw [hother, hbefore]
  · have hkind : isDirectory (unmoded inode) = isDirectory (unmoded same) :=
      congrArg isDirectory hsame
    change isDirectory inode = isDirectory same at hkind
    simp only [hother, hbefore, hkind, hentries, h.files]

/-- Another mode for a file leaves all files the same. -/
theorem sameFiles_withMode (h : host.WellFormed) {names : List Name} {inode : Inode}
    (hmem : (names, inode) ∈ host.inodes) (mode : Nat) :
    host.SameFiles (host.withMode names inode mode) := by
  refine ⟨?_, rfl⟩
  simp only [unmodedFiles, withMode, Tree.set, List.map_map]
  refine List.map_congr_left fun entry hentry => ?_
  simp only [Function.comp_apply]
  split
  · rename_i hnames
    have hthere : (names, entry.2) ∈ host.inodes := by rwa [← hnames]
    have hsame : entry.2 = inode := h.ordered.eq_of_mem hthere hmem
    rw [hnames, hsame]
    rfl
  · rfl

/-- A change leaves all files the same, and it is about the file to which its path leads. -/
theorem change_cases {path : Path} {what : Change} (h : host.change path what = .ok other) :
    ∃ names inode mode, host.locate true path = .ok (names, inode) ∧
      other = host.withMode names inode mode := by
  unfold change at h
  split at h
  · cases h
  · rename_i names inode hlocate
    split at h
    · cases h
    · split_ifs at h
      split at h
      · cases h
      · exact ⟨names, inode, _, hlocate, (Except.ok.inj h).symm⟩

/-- A file of one host is one of the other, but for its mode. -/
theorem SameFiles.exists_mem (h : host.SameFiles other) {names : List Name} {inode : Inode}
    (hmem : (names, inode) ∈ other.inodes) :
    ∃ same, (names, same) ∈ host.inodes ∧ unmoded same = unmoded inode := by
  have hthere : (names, unmoded inode) ∈ host.unmodedFiles := by
    rw [← h.files]
    exact List.mem_map.mpr ⟨_, hmem, rfl⟩
  obtain ⟨⟨names', same⟩, hsame, heq⟩ := List.mem_map.mp hthere
  obtain ⟨rfl, hunmoded⟩ := Prod.mk.inj heq
  exact ⟨same, hsame, hunmoded⟩

theorem SameFiles.symm (h : host.SameFiles other) : other.SameFiles host :=
  ⟨h.files.symm, h.workingDirectory.symm⟩

/-- Well-formedness does not depend on modes. -/
theorem SameFiles.wellFormed (h : host.SameFiles other) (hhost : host.WellFormed) :
    other.WellFormed where
  ordered := by
    rw [← ordered_unmodedFiles_iff, h.files, ordered_unmodedFiles_iff]
    exact hhost.ordered
  root := by
    rw [h.kindAt_eq]
    exact hhost.root
  closed entry hentry hne := by
    obtain ⟨same, hsame, -⟩ := h.exists_mem hentry
    obtain ⟨parent, hparent, hdirectory⟩ := hhost.closed _ hsame hne
    obtain ⟨above, habove, hunmoded⟩ := h.symm.exists_mem hparent
    refine ⟨above, habove, ?_⟩
    have hkind := congrArg Inode.kind hunmoded
    simp only [unmoded] at hkind
    rw [isDirectory, hkind]
    exact hdirectory
  names entry hentry name hname := by
    obtain ⟨same, hsame, -⟩ := h.exists_mem hentry
    exact hhost.names _ hsame name hname

/-- A call leaves all files the same. -/
theorem sameFiles_perform (h : host.WellFormed) (call : Call) :
    host.SameFiles (backend.perform call host).2 := by
  cases call with
  | fileStatus path | children path | aclStatus path => exact .refl host
  | change path what =>
    simp only [backend]
    cases hok : host.change path what with
    | error error => exact .refl host
    | ok changed =>
      obtain ⟨names, inode, mode, hlocate, rfl⟩ := change_cases hok
      obtain ⟨-, -, -, -, hinode⟩ := locate_eq_ok_iff.mp hlocate
      exact sameFiles_withMode h (Tree.mem_of_get? hinode) mode

/-- Several calls leave all files the same. -/
theorem sameFiles_afterCalls (h : host.WellFormed) (calls : List Call) :
    host.SameFiles (backend.afterCalls calls host) := by
  induction calls generalizing host with
  | nil => exact .refl host
  | cons call rest ih =>
    have hfirst := sameFiles_perform h call
    exact hfirst.trans (ih (hfirst.wellFormed h))

/-- The listings of a host are the same after any calls. -/
theorem steady (h : host.WellFormed) : backend.Steady host.children host :=
  fun calls path => (sameFiles_afterCalls h calls).children_eq path

end Host

end PosixAcl
