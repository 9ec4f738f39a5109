import PosixAcl.Host.Backend
import PosixAcl.Proofs.Store.Tree
import PosixAcl.Proofs.Text.Decoding

/-!
# Finding files on a host

Following a path depends on the kinds of the files on the way only. So a file whose
mode changes is still found at the same path, through whatever links, and so are
all other files. Whatever accounts the host knows, a file that is found is reported
with an owner and a group.
-/

namespace PosixAcl.Host

variable {host other : Host}

/-- The host with another mode for one file. -/
def withMode (host : Host) (names : List Name) (inode : Inode) (mode : Nat) : Host :=
  { host with inodes := host.inodes.set names { inode with mode } }

/-- Going along names depends on the kinds of files only. -/
theorem descend_congr (hkind : other.kindAt = host.kindAt) (followLast : Bool)
    (onLink : List Name → Path → List Name → Except SystemError (List Name))
    (current names : List Name) :
    descend other followLast onLink current names =
      descend host followLast onLink current names := by
  induction names generalizing current with
  | nil => rfl
  | cons name rest ih => simp only [descend, hkind, ih]

/-- Following links depends on the kinds of files only. -/
theorem resolve_congr (hkind : other.kindAt = host.kindAt) (followLast : Bool) (links : Nat)
    (current names : List Name) :
    other.resolve followLast links current names =
      host.resolve followLast links current names := by
  induction links generalizing current names with
  | zero => exact descend_congr hkind _ _ current names
  | succ links ih =>
    have hlink : (fun current target rest => other.resolve followLast links
        (if Path.isAbsolute target then [] else current) (target.components ++ rest)) =
        fun current target rest => host.resolve followLast links
          (if target.isAbsolute then [] else current) (target.components ++ rest) := by
      funext current target rest
      exact ih _ _
    rw [resolve, resolve, hlink]
    exact descend_congr hkind _ _ current names

/-- A file that is located is the one under the names to which its path leads. -/
theorem locate_eq_ok_iff {followLast : Bool} {path : Path} {names : List Name} {inode : Inode} :
    host.locate followLast path = .ok (names, inode) ↔
      path.bytes.contains 0 = false ∧ path.bytes.isEmpty = false ∧
        path.bytes.length < pathLimit ∧
        host.resolve followLast maxLinks (if path.isAbsolute then [] else host.workingDirectory)
          path.components = .ok names ∧
        host.inodes.get? names = some inode := by
  unfold locate
  by_cases hzero : path.bytes.contains 0 = true
  · rw [if_pos hzero, hzero]
    exact iff_of_false nofun nofun
  by_cases hempty : path.bytes.isEmpty = true
  · rw [if_neg hzero, if_pos hempty, hempty]
    exact iff_of_false nofun nofun
  by_cases hlength : pathLimit ≤ path.bytes.length
  · rw [if_neg hzero, if_neg hempty, if_pos hlength]
    exact iff_of_false nofun fun h => absurd hlength (not_le.mpr h.2.2.1)
  rw [if_neg hzero, if_neg hempty, if_neg hlength]
  cases hresolve : host.resolve followLast maxLinks
      (if path.isAbsolute then [] else host.workingDirectory) path.components with
  | error error => simp
  | ok found =>
    cases hinode : host.inodes.get? found with
    | none =>
      simp only [hinode, reduceCtorEq, false_iff]
      rintro ⟨-, -, -, hnames, hget⟩
      rw [← Except.ok.inj hnames, hinode] at hget
      cases hget
    | some there =>
      simp only [hinode, Except.ok.injEq, Prod.mk.injEq]
      constructor
      · rintro ⟨rfl, rfl⟩
        exact ⟨Bool.eq_false_iff.mpr hzero, Bool.eq_false_iff.mpr hempty, not_le.mp hlength, rfl,
          hinode⟩
      · rintro ⟨-, -, -, rfl, hget⟩
        exact ⟨rfl, Option.some.inj (hinode.symm.trans hget)⟩

/-- Another mode leaves the kinds of files as they are. -/
theorem kindAt_withMode {names : List Name} {inode : Inode}
    (hinode : host.inodes.get? names = some inode) (mode : Nat) :
    (host.withMode names inode mode).kindAt = host.kindAt := by
  funext found
  rw [kindAt, withMode, Tree.get?_set, kindAt]
  by_cases hfound : found = names
  · simp [hfound, hinode]
  · simp [hfound]

/-- A file is located with its other mode. -/
theorem locate_withMode {followLast : Bool} {path : Path} {names : List Name} {inode : Inode}
    (hfile : host.locate followLast path = .ok (names, inode)) (mode : Nat) :
    (host.withMode names inode mode).locate followLast path = .ok (names, { inode with mode }) := by
  obtain ⟨hzero, hempty, hlength, hresolve, hinode⟩ := locate_eq_ok_iff.mp hfile
  refine locate_eq_ok_iff.mpr ⟨hzero, hempty, hlength, ?_, ?_⟩
  · rw [resolve_congr (kindAt_withMode hinode mode)]
    exact hresolve
  · rw [withMode, Tree.get?_set, if_pos rfl, hinode]
    rfl

/-! ## Owners -/

/-- A user or a group has a name or a number to show. -/
theorem accountName_ne_nil (accounts : List (Nat × Bytes)) (id : Nat) :
    accountName accounts id ≠ [] := by
  unfold accountName
  split
  · exact Nat.toDigits_ne_nil
  · rename_i name hfind
    cases hname : name.isEmpty with
    | true => exact Nat.toDigits_ne_nil
    | false =>
      simp only [Bool.false_eq_true, if_false]
      intro hnil
      rw [Utf8.decodeLossy, Utf8.replaceMalformed, List.map_eq_nil_iff, Utf8.scan_eq_nil_iff] at hnil
      rw [hnil] at hname
      cases hname

/-- A file of a host is reported with an owner and a group. -/
theorem owner_ne_nil {path : Path} {status : AclStatus} (hok : host.aclStatus path = .ok status) :
    status.owner ≠ [] ∧ status.group ≠ [] := by
  unfold aclStatus at hok
  cases hlocate : host.locate true path with
  | error error => simp [hlocate] at hok
  | ok found =>
    simp only [hlocate] at hok
    rw [← Except.ok.inj hok]
    exact ⟨accountName_ne_nil _ _, accountName_ne_nil _ _⟩

end PosixAcl.Host
