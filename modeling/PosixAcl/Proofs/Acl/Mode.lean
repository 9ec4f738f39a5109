import PosixAcl.Acl.Mode
import PosixAcl.Proofs.Acl.WellFormed

/-!
# Lists that fit into a mode

A mode has room for three permissions: those of the owner, of the owning group and
of the others. A well-formed list fits into a mode exactly if it has its three base
entries and no others, and then the mode gives the list back.
-/

namespace PosixAcl

/-- An octal digit is below eight. -/
theorem Permission.toOctal_lt (p : Permission) : p.toOctal < 8 := by
  rcases p with ⟨_ | _, _ | _, _ | _⟩ <;> decide

namespace Acl

/-- The list with the three base entries only. -/
def minimal (user group other : Permission) : Acl :=
  [{ kind := .user, permission := user }, { kind := .group, permission := group },
    { kind := .other, permission := other }]

/-- The list of a mode has the three base entries only. -/
theorem ofMode_eq_minimal (mode : Nat) :
    ofMode mode = minimal (.ofOctal (mode / 64)) (.ofOctal (mode / 8)) (.ofOctal mode) :=
  rfl

/-- Only the lowest three bits of a number matter to its permission. -/
theorem ofOctal_of_mod {digit : Nat} {p : Permission} (h : digit % 8 = p.toOctal) :
    Permission.ofOctal digit = p := by
  rw [← Permission.ofOctal_toOctal p, ← h]
  unfold Permission.ofOctal
  rw [show digit % 8 / 4 % 2 = digit / 4 % 2 by omega,
    show digit % 8 / 2 % 2 = digit / 2 % 2 by omega, show digit % 8 % 2 = digit % 2 by omega]

/-- The permission bits of three permissions. -/
def bitsOf (user group other : Permission) : Nat :=
  64 * user.toOctal + 8 * group.toOctal + other.toOctal

/-- Three permissions have nine bits. -/
theorem bitsOf_le (user group other : Permission) : bitsOf user group other ≤ 0o777 := by
  have huser := user.toOctal_lt
  have hgroup := group.toOctal_lt
  have hother := other.toOctal_lt
  unfold bitsOf
  omega

/-- A mode with the permission bits of three permissions gives these back, whatever its higher
bits are. -/
theorem ofMode_add (high : Nat) (user group other : Permission) :
    ofMode (high * 512 + bitsOf user group other) = minimal user group other := by
  have huser := user.toOctal_lt
  have hgroup := group.toOctal_lt
  have hother := other.toOctal_lt
  rw [bitsOf, ofMode_eq_minimal, ofOctal_of_mod (p := user) (by omega),
    ofOctal_of_mod (p := group) (by omega), ofOctal_of_mod (p := other) (by omega)]

variable {acl : Acl} {user group other : Permission}

/-- The permission bits of the list with the three base entries. -/
theorem permissionBits?_minimal :
    (minimal user group other).permissionBits? = some (bitsOf user group other) :=
  rfl

/-- The list with the three base entries has no default entry. -/
theorem hasDefault_minimal : (minimal user group other).hasDefault = false :=
  rfl

/-- The list with the three base entries is in order. -/
theorem ordered_minimal (user group other : Permission) : (minimal user group other).Ordered := by
  simp [Ordered, minimal, Entry.key, Key.order, Scope.rank, Kind.rank, List.cons_lt_cons_iff]

/-- A list in order that has the three base entries, and no others, has just these three. -/
theorem Ordered.exists_eq_minimal (h : acl.Ordered)
    (hkeys : ∀ kind ∈ Kind.base, acl.hasKey ⟨.access, kind, []⟩ = true)
    (hbase : acl.all Entry.isBase = true) : ∃ user group other, acl = minimal user group other := by
  have hget : ∀ kind ∈ Kind.base, ∃ permission,
      acl.get? ⟨.access, kind, []⟩ = some permission := by
    intro kind hkind
    have hkey := hkeys kind hkind
    rwa [hasKey_eq_isSome, Option.isSome_iff_exists] at hkey
  obtain ⟨user, huser⟩ := hget .user (by decide)
  obtain ⟨group, hgroup⟩ := hget .group (by decide)
  obtain ⟨other, hother⟩ := hget .other (by decide)
  refine ⟨user, group, other, h.ext (ordered_minimal _ _ _) fun key => ?_⟩
  cases hkey : acl.hasKey key with
  | true =>
    obtain ⟨e, he, rfl⟩ := hasKey_iff.mp hkey
    obtain ⟨hscope, hname, hmask⟩ := isBase_iff.mp (List.all_eq_true.mp hbase e he)
    rw [Entry.key, hscope, hname]
    cases hkind : e.kind with
    | user => exact huser
    | group => exact hgroup
    | mask => exact absurd hkind hmask
    | other => exact hother
  | false =>
    -- The three keys occur in the list, so this is none of them.
    have hnone : acl.get? key = none := by
      exact hasKey_eq_false_iff.mp hkey
    rw [hnone, eq_comm, get?_eq_none_iff]
    rintro e he rfl
    simp only [minimal, List.mem_cons, List.not_mem_nil, or_false] at he
    rcases he with rfl | rfl | rfl
    · cases hnone.symm.trans huser
    · cases hnone.symm.trans hgroup
    · cases hnone.symm.trans hother

/-- A well-formed list has permission bits only if it has its three base entries and no others. -/
theorem WellFormed.permissionBits?_eq_none (h : acl.WellFormed)
    (hmore : ∀ user group other, acl ≠ minimal user group other) : acl.permissionBits? = none := by
  have hbase : ¬ acl.all Entry.isBase = true := by
    intro hbase
    obtain ⟨user, group, other, rfl⟩ := h.ordered.exists_eq_minimal h.access_base hbase
    exact hmore user group other rfl
  rw [permissionBits?, if_neg hbase]

end Acl

end PosixAcl
