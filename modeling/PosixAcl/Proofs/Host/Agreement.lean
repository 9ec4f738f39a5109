import PosixAcl.Proofs.Acl.Inheritance
import PosixAcl.Proofs.Acl.Mode
import PosixAcl.Proofs.Host.Locate
import PosixAcl.Proofs.Namespace.Reachable

/-!
# Agreement of hosts and namespaces

A namespace keeps any list, a host only one that fits into a mode. On a file of
each, of the same kind and with the same entries, a change does the same as long as
its result fits. It breaks the same rules, and if it succeeds, both files have the
same entries again. A result that does not fit is refused by the host. So a host is
a namespace in which such changes fail.
-/

namespace PosixAcl

namespace Host

/-! ## Stored modes -/

/-- The bits that no list changes: those that set the user or the group on execution, and the sticky
bit. -/
def specialBits : Nat := 0o7000

/-- The special bits of a mode are its fourth octal digit. -/
theorem and_specialBits (mode : Nat) : mode &&& specialBits = mode / 512 % 8 * 512 := by
  have hleft : specialBits = (2 ^ 3 - 1) * 2 ^ 9 := rfl
  have hright : mode / 512 % 8 * 512 = mode / 2 ^ 9 % 2 ^ 3 * 2 ^ 9 := rfl
  rw [hleft, hright]
  refine Nat.eq_of_testBit_eq fun i => ?_
  rw [Nat.testBit_and, Nat.testBit_mul_two_pow, Nat.testBit_mul_two_pow, Nat.testBit_mod_two_pow,
    Nat.testBit_div_two_pow, Nat.testBit_two_pow_sub_one]
  by_cases hi : 9 ≤ i
  · rw [Nat.sub_add_cancel hi]
    simp [hi, Bool.and_comm]
  · simp [hi]

/-- Other permission bits are put beside the special bits. -/
theorem withPermissionBits_eq (mode : Nat) {bits : Nat} (h : bits < 512) :
    withPermissionBits mode bits = (mode &&& specialBits) ||| bits := by
  have hor := Nat.shiftLeft_add_eq_or_of_lt (i := 9) h (mode / 512 % 8)
  rw [Nat.shiftLeft_eq] at hor
  rw [and_specialBits]
  exact hor

/-- The mode with the permissions of the three base entries and the special bits of another mode. -/
def minimalMode (mode : Nat) (user group other : Permission) : Nat :=
  (mode &&& specialBits) ||| (64 * user.toOctal + 8 * group.toOctal + other.toOctal)

/-- The permission bits of three permissions fit below the special bits. -/
theorem minimalMode_eq (mode : Nat) (user group other : Permission) :
    minimalMode mode user group other = mode / 512 % 8 * 512 + Acl.bitsOf user group other :=
  (withPermissionBits_eq mode (Nat.lt_succ_of_le (Acl.bitsOf_le user group other))).symm

/-- The list with the three base entries can be stored in a mode. -/
theorem storedMode_minimal (mode : Nat) (user group other : Permission) :
    storedMode mode (.minimal user group other) = .ok (minimalMode mode user group other) := by
  rw [minimalMode_eq, storedMode, Acl.hasDefault_minimal, if_neg (by simp),
    Acl.permissionBits?_minimal]
  rfl

/-- The mode in which a list is stored gives the list back. -/
theorem ofMode_minimalMode (mode : Nat) (user group other : Permission) :
    Acl.ofMode (minimalMode mode user group other) = .minimal user group other := by
  rw [minimalMode_eq, Acl.ofMode_add]

/-- Storing a list keeps the special bits. -/
theorem minimalMode_and_specialBits (mode : Nat) (user group other : Permission) :
    minimalMode mode user group other &&& specialBits = mode &&& specialBits := by
  have hbits := Acl.bitsOf_le user group other
  rw [and_specialBits, and_specialBits, minimalMode_eq]
  omega

/-- A well-formed list with more than the three base entries cannot be stored in a mode. -/
theorem exists_storedMode_eq_error (mode : Nat) {acl : Acl} (h : acl.WellFormed)
    (hmore : ∀ user group other, acl ≠ .minimal user group other) :
    ∃ feature, storedMode mode acl = .error feature := by
  unfold storedMode
  cases acl.hasDefault with
  | true => exact ⟨.defaultEntries, rfl⟩
  | false =>
    rw [h.permissionBits?_eq_none hmore]
    exact ⟨.extendedEntries, rfl⟩

end Host

/-! ## One change -/

/-- The answer of a store to a change of one file, and its state after that. -/
def Backend.changeAt {σ : Type} (backend : Backend σ) (path : Path) (change : Change) (s : σ) :
    Except StoreError Unit × σ :=
  backend.perform (.change path change) s

/-- The answer of a namespace to a change of one file. -/
theorem Namespace.changeAt_eq (ns : Namespace) (path : Path) (change : Change) :
    Namespace.backend.changeAt path change ns =
      match ns.change path change with
      | .error error => (.error error, ns)
      | .ok changed => (.ok (), changed) :=
  rfl

/-- The answer of a host to a change of one file. -/
theorem Host.changeAt_eq (host : Host) (path : Path) (change : Change) :
    Host.backend.changeAt path change host =
      match host.change path change with
      | .error error => (.error error, host)
      | .ok changed => (.ok (), changed) :=
  rfl

/-- A file of a host and a file of a namespace, which whoever acts there may change, of the same kind
and with the same entries. -/
structure Twins (host : Host) (path : Path) (names : List Name) (inode : Inode)
    (ns : Namespace) (twin : Path) (node : Node) : Prop where
  /-- The file of the host is at its path. -/
  located : host.locate true path = .ok (names, inode)
  /-- The namespace is well formed. -/
  wellFormed : ns.WellFormed
  /-- The file of the namespace is at its path. -/
  found : ns.find? twin.location = some node
  /-- Whoever acts on the namespace may change its file. -/
  allowed : ns.mayChange node = true
  /-- Both files are directories, or none of them is. -/
  kind : node.directory = Host.isDirectory inode
  /-- The entries are those of the mode. -/
  acl : node.acl = .ofMode inode.mode

variable {host : Host} {path : Path} {names : List Name} {inode : Inode} {ns : Namespace}
  {twin : Path} {node : Node}

/-- A change of the file of the namespace. -/
theorem Twins.change_namespace_eq (h : Twins host path names inode ns twin node)
    (change : Change) :
    ns.change twin change =
      match ns.edit change node with
      | .error cause => .error ⟨twin.location.path, cause⟩
      | .ok acl => .ok (ns.withAcl twin.location.names node acl) := by
  have hchange := Namespace.change_eq ns twin change
  rw [h.found] at hchange
  exact hchange

/-- A change of a file of a host does what it does in a namespace, and then stores the list. -/
theorem Twins.change_host_eq (h : Twins host path names inode ns twin node) (change : Change) :
    host.change path change =
      match ns.edit change node with
      | .error cause => .error ⟨path, cause⟩
      | .ok acl =>
        match Host.storedMode inode.mode acl with
        | .error feature => .error ⟨path, .unsupported feature⟩
        | .ok mode => .ok (host.withMode names inode mode) := by
  rw [Namespace.edit, if_pos h.allowed, h.acl, h.kind]
  simp only [Host.change, h.located]
  cases change.apply (.ofMode inode.mode) with
  | error rule => rfl
  | ok acl =>
    by_cases hrefused : (!Host.isDirectory inode && acl.hasDefault) = true
    · simp only [hrefused, if_true]
    · simp only [hrefused, Bool.false_eq_true, if_false]
      rfl

/-- A change of the file of the namespace is refused only if it breaks a rule. -/
theorem Twins.exists_rule (h : Twins host path names inode ns twin node) {change : Change}
    {cause : StoreError.Cause} (hedit : ns.edit change node = .error cause) :
    ∃ rule, cause = .invalidAcl rule := by
  rw [Namespace.edit, if_pos h.allowed] at hedit
  cases happly : change.apply node.acl with
  | error rule =>
    rw [happly] at hedit
    exact ⟨rule, (Except.error.inj hedit).symm⟩
  | ok acl =>
    rw [happly] at hedit
    simp only at hedit
    split at hedit
    · exact ⟨.defaultAclOnFile, (Except.error.inj hedit).symm⟩
    · cases hedit

/-- After a change whose result fits into a mode, the files have the same entries again. -/
theorem Twins.changed (h : Twins host path names inode ns twin node) {change : Change}
    {user group other : Permission}
    (hedit : ns.edit change node = .ok (.minimal user group other)) :
    Twins (host.withMode names inode (Host.minimalMode inode.mode user group other)) path names
      { inode with mode := Host.minimalMode inode.mode user group other }
      (ns.withAcl twin.location.names node (.minimal user group other)) twin
      { node with acl := .minimal user group other } where
  located := Host.locate_withMode h.located _
  wellFormed := h.wellFormed.change (Namespace.change_eq_ok_iff.mpr ⟨_, _, h.found, hedit, rfl⟩)
  found := h.wellFormed.find?_withAcl h.found _
  allowed := h.allowed
  kind := h.kind
  acl := (Host.ofMode_minimalMode _ _ _ _).symm

/-- What a file of a namespace reports. -/
theorem Twins.aclStatus_namespace (h : Twins host path names inode ns twin node) :
    ns.aclStatus twin = .ok ⟨node.owner, node.group, node.sticky, node.acl⟩ := by
  simp only [Namespace.aclStatus, h.found]

/-- What a file of a host reports. -/
theorem Twins.aclStatus_host (h : Twins host path names inode ns twin node) :
    host.aclStatus path = .ok ⟨accountName host.users inode.uid, accountName host.groups inode.gid,
      isSticky inode.mode, node.acl⟩ := by
  simp only [Host.aclStatus, h.located, h.acl]

/-- The answers of both stores to one change, and their states after it. -/
theorem Twins.changeAt_cases (h : Twins host path names inode ns twin node) (change : Change) :
    (∃ rule, Namespace.backend.changeAt twin change ns =
          (.error ⟨twin.location.path, .invalidAcl rule⟩, ns) ∧
        Host.backend.changeAt path change host = (.error ⟨path, .invalidAcl rule⟩, host)) ∨
      (∃ user group other, ns.edit change node = .ok (.minimal user group other) ∧
        Namespace.backend.changeAt twin change ns =
          (.ok (), ns.withAcl twin.location.names node (.minimal user group other)) ∧
        Host.backend.changeAt path change host =
          (.ok (), host.withMode names inode
            (Host.minimalMode inode.mode user group other))) ∨
      ∃ acl feature, (∀ user group other, acl ≠ .minimal user group other) ∧
        Namespace.backend.changeAt twin change ns =
          (.ok (), ns.withAcl twin.location.names node acl) ∧
        Host.backend.changeAt path change host =
          (.error ⟨path, .unsupported feature⟩, host) := by
  rw [Namespace.changeAt_eq, Host.changeAt_eq, h.change_namespace_eq, h.change_host_eq]
  cases hedit : ns.edit change node with
  | error cause =>
    obtain ⟨rule, rfl⟩ := h.exists_rule hedit
    exact Or.inl ⟨rule, rfl, rfl⟩
  | ok acl =>
    refine Or.inr ?_
    by_cases hminimal : ∃ user group other, acl = .minimal user group other
    · obtain ⟨user, group, other, rfl⟩ := hminimal
      refine Or.inl ⟨user, group, other, rfl, rfl, ?_⟩
      simp only [Host.storedMode_minimal]
    · have hmore : ∀ user group other, acl ≠ .minimal user group other :=
        fun user group other heq => hminimal ⟨user, group, other, heq⟩
      have hacl : acl.WellFormed := by
        have happly := (Namespace.edit_eq_ok_iff.mp hedit).2.1
        rw [h.acl] at happly
        exact (Acl.wellFormed_ofMode inode.mode).apply happly
      obtain ⟨feature, hfeature⟩ := Host.exists_storedMode_eq_error inode.mode hacl hmore
      refine Or.inr ⟨acl, feature, hmore, rfl, ?_⟩
      simp only [hfeature]

/-! ## Several changes -/

/-- Makes several changes of one file in turn, and collects the answers. -/
def Backend.changeAll {σ : Type} (backend : Backend σ) (path : Path) :
    List Change → σ → List (Except StoreError Unit) × σ
  | [], s => ([], s)
  | change :: rest, s =>
    let (reply, s) := backend.changeAt path change s
    let (replies, s) := backend.changeAll path rest s
    (reply :: replies, s)

/-- The first of several changes is made before the others. -/
theorem Backend.changeAll_cons {σ : Type} (backend : Backend σ) (path : Path) (change : Change)
    (rest : List Change) (s : σ) :
    backend.changeAll path (change :: rest) s =
      ((backend.changeAt path change s).1 ::
          (backend.changeAll path rest (backend.changeAt path change s).2).1,
        (backend.changeAll path rest (backend.changeAt path change s).2).2) :=
  rfl

/-- As long as the host supports what several changes lead to, the files have the same entries, and
the special bits stay as they are. -/
theorem Twins.changeAll (h : Twins host path names inode ns twin node) {changes : List Change}
    (hsupported : ∀ reply ∈ (Host.backend.changeAll path changes host).1,
      ∀ feature, reply ≠ .error ⟨path, .unsupported feature⟩) :
    ∃ inode' node', Twins (Host.backend.changeAll path changes host).2 path names inode'
        (Namespace.backend.changeAll twin changes ns).2 twin node' ∧
      inode'.mode &&& Host.specialBits = inode.mode &&& Host.specialBits := by
  -- The files are alike before each change, since those before it were supported.
  induction changes generalizing host inode ns node with
  | nil => exact ⟨inode, node, h, rfl⟩
  | cons change rest ih =>
    rw [Backend.changeAll_cons] at hsupported
    rw [Backend.changeAll_cons, Backend.changeAll_cons]
    have hrest := fun reply hreply => hsupported reply (List.mem_cons_of_mem _ hreply)
    rcases h.changeAt_cases change with ⟨rule, hns, hhost⟩ |
      ⟨user, group, other, hedit, hns, hhost⟩ | ⟨acl, feature, -, -, hhost⟩
    · rw [hhost] at hrest
      rw [hns, hhost]
      exact ih h hrest
    · rw [hhost] at hrest
      rw [hns, hhost]
      obtain ⟨inode', node', hthen, hbits⟩ := ih (h.changed hedit) hrest
      exact ⟨inode', node', hthen,
        hbits.trans (Host.minimalMode_and_specialBits inode.mode user group other)⟩
    · have hfirst := hsupported _ List.mem_cons_self feature
      rw [hhost] at hfirst
      exact absurd rfl hfirst

/-- A file of a host and one of a namespace of the same kind and with the same entries. A change
that fails in the namespace breaks a rule, and fails on the host for the same rule. A change that
leaves just the three base entries succeeds on the host as well. It sets the permission bits of
these entries, keeps the special bits and all else, and both files report the same entries. A change
that leaves anything else is unsupported on the host. Where a change fails on the host, nothing
happens to it. So the files report the same entries after every sequence of changes of which the
host supports all, and the special bits never change. -/
theorem Twins.agree (h : Twins host path names inode ns twin node) :
    (∀ change,
      let inMemory := Namespace.backend.changeAt twin change ns
      let onHost := Host.backend.changeAt path change host
      (∀ error, inMemory.1 = .error error → ∃ rule, error.cause = .invalidAcl rule ∧
        onHost = (.error ⟨path, .invalidAcl rule⟩, host)) ∧
      (inMemory.1 = .ok () → ∃ status, inMemory.2.aclStatus twin = .ok status ∧
        (∀ user group other, status.acl = .minimal user group other →
          onHost.1 = .ok () ∧
          onHost.2.locate true path = .ok (names, { inode with
            mode := (inode.mode &&& 0o7000) |||
              (64 * user.toOctal + 8 * group.toOctal + other.toOctal) }) ∧
          ∃ reported, onHost.2.aclStatus path = .ok reported ∧ reported.acl = status.acl) ∧
        ((∀ user group other, status.acl ≠ .minimal user group other) →
          ∃ feature, onHost = (.error ⟨path, .unsupported feature⟩, host)))) ∧
    ∀ changes, (∀ reply ∈ (Host.backend.changeAll path changes host).1,
        ∀ feature, reply ≠ .error ⟨path, .unsupported feature⟩) →
      ∃ inode' reported status,
        (Host.backend.changeAll path changes host).2.locate true path = .ok (names, inode') ∧
        (Host.backend.changeAll path changes host).2.aclStatus path = .ok reported ∧
        (Namespace.backend.changeAll twin changes ns).2.aclStatus twin = .ok status ∧
        reported.acl = status.acl ∧ inode'.mode &&& 0o7000 = inode.mode &&& 0o7000 := by
  refine ⟨fun change => ?_, fun changes hsupported => ?_⟩
  · intro inMemory onHost
    rcases h.changeAt_cases change with ⟨rule, hns, hhost⟩ |
      ⟨user, group, other, hedit, hns, hhost⟩ | ⟨acl, feature, hmore, hns, hhost⟩
    · have hmemory : inMemory = (.error ⟨twin.location.path, .invalidAcl rule⟩, ns) := hns
      rw [hmemory]
      refine ⟨fun error herror => ⟨rule, ?_, hhost⟩, nofun⟩
      rw [← Except.error.inj herror]
    · have hmemory : inMemory =
          (.ok (), ns.withAcl twin.location.names node (.minimal user group other)) := hns
      have hthere : onHost = (.ok (), host.withMode names inode
          (Host.minimalMode inode.mode user group other)) := hhost
      have hchanged := h.changed hedit
      rw [hmemory, hthere]
      refine ⟨nofun, fun _ => ⟨_, hchanged.aclStatus_namespace, fun _ _ _ hacl => ?_,
        fun hmore => absurd rfl (hmore user group other)⟩⟩
      cases hacl
      exact ⟨rfl, hchanged.located, _, hchanged.aclStatus_host, rfl⟩
    · have hmemory : inMemory = (.ok (), ns.withAcl twin.location.names node acl) := hns
      have hthere : (ns.withAcl twin.location.names node acl).find? twin.location =
          some { node with acl } := h.wellFormed.find?_withAcl h.found acl
      have hstatus : (ns.withAcl twin.location.names node acl).aclStatus twin =
          .ok ⟨node.owner, node.group, node.sticky, acl⟩ := by
        simp only [Namespace.aclStatus, hthere]
      rw [hmemory]
      exact ⟨nofun, fun _ => ⟨_, hstatus, fun user group other hacl =>
        absurd hacl (hmore user group other), fun _ => ⟨feature, hhost⟩⟩⟩
  · obtain ⟨inode', node', hthen, hbits⟩ := h.changeAll hsupported
    exact ⟨inode', _, _, hthen.located, hthen.aclStatus_host, hthen.aclStatus_namespace, rfl,
      hbits⟩

/-- The set-user-ID bit of `/f` stays while its owner loses a right, a rule is broken, and all rights
are replaced. A named user has no place in its mode. -/
theorem Twins.agree_set_user_bit :
    let path : Path := ⟨[0x2F, 0x66]⟩
    let host : Host := ⟨[([], Host.rootInode), ([[0x66]], ⟨.regular, 0o4751, 7, 7⟩)], [],
      [(7, [0x61])], [(7, [0x61])]⟩
    let ns : Namespace := ⟨[([], Namespace.rootNode),
      ([[0x66]], ⟨false, ['a'], ['a'], false, .ofMode 0o4751⟩)], none⟩
    let owner : Entry := { kind := .user, permission := .ofOctal 6 }
    let named : Entry := { kind := .user, name := ['b'], permission := .ofOctal 6 }
    let changes : List Change :=
      [.merge [owner], .merge [owner, owner], .replace (Acl.ofMode 0o640)]
    Twins host path [[0x66]] ⟨.regular, 0o4751, 7, 7⟩ ns path
        ⟨false, ['a'], ['a'], false, .ofMode 0o4751⟩ ∧
      (∃ feature, Host.backend.changeAt path (.merge [named]) host =
        (.error ⟨path, .unsupported feature⟩, host)) ∧
      (Host.backend.changeAll path changes host).2.mode? path = some 0o4640 ∧
      ∃ reported status,
        (Host.backend.changeAll path changes host).2.aclStatus path = .ok reported ∧
        (Namespace.backend.changeAll path changes ns).2.aclStatus path = .ok status ∧
        reported.acl = status.acl := by
  intro path host ns owner named changes
  have hreached : ns.Reachable := ⟨[.create path false ['a'] ['a'] 0o4751], by decide +kernel⟩
  have htwins : Twins host path [[0x66]] ⟨.regular, 0o4751, 7, 7⟩ ns path
      ⟨false, ['a'], ['a'], false, .ofMode 0o4751⟩ :=
    ⟨by decide +kernel, hreached.wellFormed, by decide +kernel, rfl, rfl, rfl⟩
  obtain ⟨hone, hall⟩ := Twins.agree htwins
  have hreplies : (Host.backend.changeAll path changes host).1 =
      [.ok (), .error ⟨path, .invalidAcl (.duplicateEntry owner)⟩, .ok ()] := by decide +kernel
  have hsupported : ∀ reply ∈ (Host.backend.changeAll path changes host).1,
      ∀ feature, reply ≠ .error ⟨path, .unsupported feature⟩ := by
    rw [hreplies]
    simp
  obtain ⟨-, reported, status, -, hhost, hns, hacl, -⟩ := hall changes hsupported
  have hok : (Namespace.backend.changeAt path (.merge [named]) ns).1 = .ok () := by decide +kernel
  obtain ⟨more, hmore, -, hunsupported⟩ := (hone (.merge [named])).2 hok
  have hlength : ((Namespace.backend.changeAt path (.merge [named]) ns).2.aclStatus path).map
      (fun status => status.acl.length) = .ok 5 := by decide +kernel
  rw [hmore] at hlength
  have hfive : more.acl.length = 5 := Except.ok.inj hlength
  have hunfit : ∀ user group other, more.acl ≠ .minimal user group other := by
    intro user group other heq
    rw [heq] at hfive
    cases hfive
  exact ⟨htwins, hunsupported hunfit, by decide +kernel, reported, status, hhost, hns, hacl⟩

end PosixAcl
