import PosixAcl.Proofs.Host.Walk
import PosixAcl.Proofs.Tool.CommandLine
import PosixAcl.Proofs.Tool.Invariants

/-!
# How far a recursive change reaches

A walk stays below its root, but the change that is made for each file follows
links. So a change of a whole tree concerns the files of the tree and those to
which links among them lead, and no others.
-/

namespace PosixAcl

namespace Host

variable {host : Host} {path : Path} {names found : List Name} {root inode : Inode}

/-- A file is apart from a tree: it does not stand in the tree, and no link in the tree leads to
it. -/
structure Apart (host : Host) (path : Path) (names found : List Name) : Prop where
  /-- It is not below the root of the tree. -/
  outside : ¬ names <+: found
  /-- The path of a link in the tree leads elsewhere. -/
  unlinked : ∀ rest link target, (names ++ rest, link) ∈ host.inodes → link.kind = .link target →
    ∀ there, host.locate true (path.descendant rest) ≠ .ok (found, there)

/-- A host has the same files as before, and those apart from a tree have their modes. -/
structure Contained (host : Host) (path : Path) (names : List Name) (later : Host) : Prop where
  /-- The files are the same. -/
  same : host.SameFiles later
  /-- The files apart from the tree are as they were. -/
  apart : ∀ found, host.Apart path names found →
    later.inodes.get? found = host.inodes.get? found

/-- The path of a file in a tree does not lead to a file apart from it. -/
theorem Apart.locate_ne (hapart : host.Apart path names found) (h : host.WellFormed)
    (hstart : host.locate false path = .ok (names, root)) {entry : List Name × Inode}
    (hmem : entry ∈ host.visited path names) (there : Inode) :
    host.locate true (statusBelow path names entry).path ≠ .ok (found, there) := by
  obtain ⟨hinode, rest, hrest, -⟩ := mem_visited_iff.mp hmem
  obtain ⟨under, inode⟩ := entry
  obtain rfl : under = names ++ rest := hrest
  rw [statusBelow_append]
  intro hlocate
  cases hkind : inode.kind with
  | link target => exact hapart.unlinked rest inode target hinode hkind there hlocate
  | directory | regular =>
    obtain ⟨-, -, hlength, -, -⟩ := locate_eq_ok_iff.mp hlocate
    have hnofollow := locate_descendant h hstart hinode hlength
    rw [locate_follow hnofollow (by simp [hkind]) true] at hlocate
    obtain ⟨rfl, -⟩ := Prod.mk.inj (Except.ok.inj hlocate)
    exact hapart.outside (List.prefix_append _ _)

/-- The change that is made for a file of a tree does not concern the files apart from the tree. -/
theorem Contained.perform_change {later : Host} (hcontained : host.Contained path names later)
    (h : host.WellFormed) (hstart : host.locate false path = .ok (names, root))
    {entry : List Name × Inode} (hmem : entry ∈ host.visited path names) (what : Change) :
    host.Contained path names
      (backend.perform (.change (statusBelow path names entry).path what) later).2 := by
  have hlater := hcontained.same.wellFormed h
  refine ⟨hcontained.same.trans (sameFiles_perform hlater _), fun found hapart => ?_⟩
  rw [← hcontained.apart found hapart]
  simp only [backend]
  cases hok : later.change (statusBelow path names entry).path what with
  | error error => rfl
  | ok changed =>
    obtain ⟨target, there, mode, hlocate, rfl⟩ := change_cases hok
    obtain ⟨before, hbefore⟩ := hcontained.same.exists_locate hlocate
    have hne : found ≠ target := by
      rintro rfl
      exact hapart.locate_ne h hstart hmem before hbefore
    exact hlater.ordered.get?_set_of_ne hne _

end Host

/-- How far a recursive change of lists reaches on a host. Whatever becomes of the run and its
outputs, all files stay what they are but for their modes. The mode of a file stays as well, unless
the file is the root of the tree or below it, or a link in the tree leads to it. -/
theorem Tool.run_contained {host : Host} (h : host.WellFormed) {arguments : List Bytes}
    {path : Path} {names : List Name} {root : Inode}
    (hstart : host.locate false path = .ok (names, root))
    {what : Change} (hrequests : Requests arguments .setfacl true path (.change what))
    (stdout stderr : Output) :
    let final := (Tool.run .setfacl Host.backend arguments
      (.start .setfacl host stdout stderr)).2.store
    host.SameFiles final ∧
      ∀ found inode, (found, inode) ∈ host.inodes → ¬ names <+: found →
        (∀ rest link target, (names ++ rest, link) ∈ host.inodes → link.kind = .link target →
          ∀ there, host.locate true (path.descendant rest) ≠ .ok (found, there)) →
        (found, inode) ∈ final.inodes := by
  intro final
  have hcontained : host.Contained path names final := by
    obtain ⟨what', -, hrun⟩ := hrequests.exists_run_eq_edit Host.backend
    have hroot : Host.backend.perform (.fileStatus path) host =
        (.ok ⟨path, Host.isDirectory root⟩, host) := by
      simp only [Host.backend, Host.fileStatus, hstart]
      rfl
    obtain ⟨listing, hsteady, hpre, hbound⟩ := Host.unfolds h hstart
    have hfinal : final = (Run.tree Host.backend (PathAction.change Host.backend what') path
        (.start .setfacl host stdout stderr)).2.store :=
      (congrArg (fun result => result.2.store) (hrun _)).trans (Run.store_finish _ _)
    rw [hfinal, Run.tree_eq_settleFiles (PathAction.adds_change _ what') hroot hsteady hpre hbound]
    refine Run.andThen_keeps ?_ fun _ _ hkept => hkept
    refine Run.settleFiles_keeps (fun _ _ _ hkept => hkept) (fun file hfile session hkept => ?_) _
      ⟨.refl host, fun _ _ => rfl⟩
    obtain ⟨entry, hentry, rfl⟩ := List.mem_map.mp hfile
    rw [PathAction.change_eq_call]
    exact hkept.perform_change h hstart hentry what'
  refine ⟨hcontained.same, fun found inode hmem houtside hunlinked => ?_⟩
  have hfile := hcontained.apart found ⟨houtside, hunlinked⟩
  rw [h.ordered.get?_eq_some_iff.mpr hmem] at hfile
  exact Tree.mem_of_get? hfile

/-- The directory `d` holds the link `l` to the file `o`. The files `o` and `p` stand beside `d`. -/
def Host.linkedOut : Host :=
  let work : Name := [0x77, 0x6F, 0x72, 0x6B]
  { initial with
    inodes := [([], rootInode), ([work], rootInode), ([work, [0x64]], rootInode),
      ([work, [0x64], [0x6C]], ⟨.link ⟨[0x2E, 0x2E, 0x2F, 0x6F]⟩, 0o777, 0, 0⟩),
      ([work, [0x6F]], ⟨.regular, 0o644, 0, 0⟩), ([work, [0x70]], ⟨.regular, 0o644, 0, 0⟩)] }

theorem Host.wellFormed_linkedOut : linkedOut.WellFormed :=
  wellFormed_initial.addAll
    [(⟨[0x64]⟩, rootInode),
      (⟨[0x64, 0x2F, 0x6C]⟩, ⟨.link ⟨[0x2E, 0x2E, 0x2F, 0x6F]⟩, 0o777, 0, 0⟩),
      (⟨[0x6F]⟩, ⟨.regular, 0o644, 0, 0⟩), (⟨[0x70]⟩, ⟨.regular, 0o644, 0, 0⟩)]
    (by decide) rfl

/-- The command line `-R -m other::--- d`, which shuts others out of the files in `d`. -/
def Tool.shuttingOut : List Bytes :=
  [[], [0x2D, 0x52], [0x2D, 0x6D], Utf8.encode "other::---".toList, [0x64]]

theorem Tool.requests_shuttingOut : Requests shuttingOut .setfacl true ⟨[0x64]⟩
    (.change (.merge [⟨.access, .other, [], .empty⟩])) :=
  @Requests.change _ [.recursive, .merge] _ _ _ _ rfl (by decide) rfl (.merge _ rfl rfl)

/-- No link in `d` leads to the file `p`. It stays as it is when others are shut out of `d`. -/
theorem Tool.run_contained_unlinked :
    let names : List Name := [[0x77, 0x6F, 0x72, 0x6B], [0x64]]
    let found : List Name := [[0x77, 0x6F, 0x72, 0x6B], [0x70]]
    let inode : Inode := ⟨.regular, 0o644, 0, 0⟩
    let path : Path := ⟨[0x64]⟩
    let what : Change := .merge [⟨.access, .other, [], .empty⟩]
    Host.linkedOut.WellFormed ∧ Host.linkedOut.locate false path = .ok (names, Host.rootInode) ∧
      Requests shuttingOut .setfacl true path (.change what) ∧
      (found, inode) ∈ Host.linkedOut.inodes ∧ ¬ names <+: found ∧
      (∀ rest link target, (names ++ rest, link) ∈ Host.linkedOut.inodes →
        link.kind = .link target →
        ∀ there, Host.linkedOut.locate true (path.descendant rest) ≠ .ok (found, there)) ∧
      (found, inode) ∈ (Tool.run .setfacl Host.backend shuttingOut
        (.start .setfacl Host.linkedOut {} {})).2.store.inodes := by
  intro names found inode path what
  have hstart : Host.linkedOut.locate false path = .ok (names, Host.rootInode) := rfl
  have hmem : (found, inode) ∈ Host.linkedOut.inodes := by decide
  have houtside : ¬ names <+: found := by decide
  have hunlinked : ∀ rest link target, (names ++ rest, link) ∈ Host.linkedOut.inodes →
      link.kind = .link target →
      ∀ there, Host.linkedOut.locate true (path.descendant rest) ≠ .ok (found, there) := by
    intro rest link target hlink hkind there
    rcases rest with _ | ⟨name, rest⟩
    · obtain rfl : link = Host.rootInode := by
        simpa [Host.linkedOut, names] using hlink
      cases hkind
    · obtain ⟨⟨rfl, rfl⟩, -⟩ : (name = [0x6C] ∧ rest = []) ∧ _ := by
        simpa [Host.linkedOut, names] using hlink
      have hlocate : Host.linkedOut.locate true (path.descendant [[0x6C]]) =
          .ok ([[0x77, 0x6F, 0x72, 0x6B], [0x6F]], ⟨.regular, 0o644, 0, 0⟩) := rfl
      simp [hlocate, found]
  have hcontained := Tool.run_contained Host.wellFormed_linkedOut hstart requests_shuttingOut {} {}
  exact ⟨Host.wellFormed_linkedOut, hstart, requests_shuttingOut, hmem, houtside, hunlinked,
    hcontained.2 found inode hmem houtside hunlinked⟩

/-- The file `o` stands outside of `d`, but a link in `d` leads to it. When others are shut out of
`d`, they cannot read `o` any more. -/
theorem Tool.run_reaches_linked :
    let names : List Name := [[0x77, 0x6F, 0x72, 0x6B], [0x64]]
    let found : List Name := [[0x77, 0x6F, 0x72, 0x6B], [0x6F]]
    let final := Tool.run .setfacl Host.backend shuttingOut
      (.start .setfacl Host.linkedOut {} {})
    Host.linkedOut.WellFormed ∧
      Host.linkedOut.locate false ⟨[0x64]⟩ = .ok (names, Host.rootInode) ∧
      Requests shuttingOut .setfacl true ⟨[0x64]⟩
        (.change (.merge [⟨.access, .other, [], .empty⟩])) ∧
      ¬ names <+: found ∧ Host.linkedOut.mode? ⟨[0x6F]⟩ = some 0o644 ∧
      final.1 = .success ∧ final.2.store.mode? ⟨[0x6F]⟩ = some 0o640 := by
  intro names found final
  exact ⟨Host.wellFormed_linkedOut, rfl, requests_shuttingOut, by decide, rfl, by decide +kernel,
    by decide +kernel⟩

end PosixAcl
