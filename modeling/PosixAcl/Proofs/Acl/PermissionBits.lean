import PosixAcl.Proofs.Acl.Mode

/-!
# Lists and their permission bits

Only lists of base entries have permission bits, and only if each kind of base entry
occurs. The entries may repeat one another and stand in any order: of each kind the
last entry counts. The list of the bits shows these last entries, and the bits of the
list of a mode are the lowest nine bits of the mode.
-/

namespace PosixAcl

/-- A permission keeps the lowest three bits of a number. -/
theorem Permission.toOctal_ofOctal (digit : Nat) : (ofOctal digit).toOctal = digit % 8 := by
  have hbit : ∀ n : Nat, (n % 2 == 1).toNat = n % 2 := by
    intro n
    rcases Nat.mod_two_eq_zero_or_one n with h | h <;> simp [h]
  simp only [ofOctal, toOctal, hbit]
  omega

namespace Acl

variable {acl : Acl} {kind : Kind}

/-! ## Last entries -/

/-- The last entry of a kind grants a permission. -/
def LastGrants (acl : Acl) (kind : Kind) (permission : Permission) : Prop :=
  ∃ before e after, acl = before ++ e :: after ∧ e.kind = kind ∧ e.permission = permission ∧
    ∀ f ∈ after, f.kind ≠ kind

/-- The last digit of a kind is that of its last entry. -/
theorem lastDigit?_eq_some_iff {digit : Nat} :
    acl.lastDigit? kind = some digit ↔
      ∃ permission, acl.LastGrants kind permission ∧ permission.toOctal = digit := by
  unfold lastDigit?
  constructor
  · intro h
    obtain ⟨e, hfind, hdigit⟩ := Option.map_eq_some_iff.mp h
    obtain ⟨hkind, after, before, hsplit, hafter⟩ := List.find?_eq_some_iff_append.mp hfind
    refine ⟨e.permission, ⟨before.reverse, e, after.reverse, ?_, by simpa using hkind, rfl, ?_⟩,
      hdigit⟩
    · rw [← List.reverse_reverse acl, hsplit]
      simp
    · simpa using hafter
  · rintro ⟨-, ⟨before, e, after, rfl, hkind, rfl, hafter⟩, rfl⟩
    refine Option.map_eq_some_iff.mpr ⟨e, List.find?_eq_some_iff_append.mpr
      ⟨by simpa using hkind, after.reverse, before.reverse, by simp, ?_⟩, rfl⟩
    simpa using hafter

/-- There is a last digit of a kind if the kind occurs. -/
theorem exists_lastDigit?_iff :
    (∃ digit, acl.lastDigit? kind = some digit) ↔ ∃ e ∈ acl, e.kind = kind := by
  rw [← Option.isSome_iff_exists]
  simp [lastDigit?]

/-! ## Permission bits -/

/-- The bits of three permissions give these back. -/
theorem ofMode_bitsOf (user group other : Permission) :
    ofMode (bitsOf user group other) = minimal user group other := by
  simpa using ofMode_add 0 user group other

/-- A list has permission bits exactly if it has base entries only, and then they are those of the
last entries of the three kinds. -/
theorem permissionBits?_eq_some_iff {bits : Nat} :
    acl.permissionBits? = some bits ↔
      (∀ e ∈ acl, e.isBase = true) ∧ ∃ user group other,
        acl.LastGrants .user user ∧ acl.LastGrants .group group ∧ acl.LastGrants .other other ∧
          bitsOf user group other = bits := by
  unfold permissionBits?
  constructor
  · intro h
    split at h
    · rename_i hbase
      refine ⟨List.all_eq_true.mp hbase, ?_⟩
      split at h
      · rename_i user group other huser hgroup hother
        obtain ⟨user, hlastUser, rfl⟩ := lastDigit?_eq_some_iff.mp huser
        obtain ⟨group, hlastGroup, rfl⟩ := lastDigit?_eq_some_iff.mp hgroup
        obtain ⟨other, hlastOther, rfl⟩ := lastDigit?_eq_some_iff.mp hother
        exact ⟨user, group, other, hlastUser, hlastGroup, hlastOther, Option.some.inj h⟩
      · cases h
    · cases h
  · rintro ⟨hbase, user, group, other, huser, hgroup, hother, rfl⟩
    rw [if_pos (List.all_eq_true.mpr hbase),
      lastDigit?_eq_some_iff.mpr ⟨user, huser, rfl⟩,
      lastDigit?_eq_some_iff.mpr ⟨group, hgroup, rfl⟩,
      lastDigit?_eq_some_iff.mpr ⟨other, hother, rfl⟩]
    rfl

/-- A list has permission bits exactly if it has base entries only, at least one of each kind. -/
theorem exists_permissionBits?_iff :
    (∃ bits, acl.permissionBits? = some bits) ↔
      (∀ e ∈ acl, e.isBase = true) ∧ ∀ kind ∈ Kind.base, ∃ e ∈ acl, e.kind = kind := by
  simp only [permissionBits?_eq_some_iff, Kind.base, ← exists_lastDigit?_iff,
    lastDigit?_eq_some_iff]
  constructor
  · rintro ⟨_, hbase, user, group, other, huser, hgroup, hother, -⟩
    refine ⟨hbase, fun kind hkind => ?_⟩
    simp only [List.mem_cons, List.not_mem_nil, or_false] at hkind
    rcases hkind with rfl | rfl | rfl
    · exact ⟨_, user, huser, rfl⟩
    · exact ⟨_, group, hgroup, rfl⟩
    · exact ⟨_, other, hother, rfl⟩
  · rintro ⟨hbase, hlast⟩
    obtain ⟨-, user, huser, -⟩ := hlast .user (by decide)
    obtain ⟨-, group, hgroup, -⟩ := hlast .group (by decide)
    obtain ⟨-, other, hother, -⟩ := hlast .other (by decide)
    exact ⟨_, hbase, user, group, other, huser, hgroup, hother, rfl⟩

/-- The permission bits of the list of a mode are the lowest nine bits of the mode. -/
theorem permissionBits?_ofMode (mode : Nat) : (ofMode mode).permissionBits? = some (mode % 512) := by
  rw [ofMode_eq_minimal, permissionBits?_minimal, bitsOf, Permission.toOctal_ofOctal,
    Permission.toOctal_ofOctal, Permission.toOctal_ofOctal, Option.some.injEq]
  omega

/-- A list in order that has permission bits is the list of these bits. -/
theorem Ordered.ofMode_permissionBits? (h : acl.Ordered) {bits : Nat}
    (hbits : acl.permissionBits? = some bits) : ofMode bits = acl := by
  obtain ⟨hbase, hkinds⟩ := exists_permissionBits?_iff.mp ⟨bits, hbits⟩
  have hkeys : ∀ kind ∈ Kind.base, acl.hasKey ⟨.access, kind, []⟩ = true := by
    intro kind hkind
    obtain ⟨e, he, rfl⟩ := hkinds kind hkind
    obtain ⟨hscope, hname, -⟩ := isBase_iff.mp (hbase e he)
    exact hasKey_iff.mpr ⟨e, he, by rw [Entry.key, hscope, hname]⟩
  obtain ⟨user, group, other, rfl⟩ := h.exists_eq_minimal hkeys (List.all_eq_true.mpr hbase)
  obtain rfl : bitsOf user group other = bits :=
    Option.some.inj (permissionBits?_minimal.symm.trans hbits)
  exact ofMode_bitsOf user group other

/-- How lists and permission bits correspond. A list has bits exactly if its entries are unnamed
access entries for the owner, the group or the others, and each of the three occurs. Then there are
at most nine bits, and the list of these bits has the three entries in order, each with the
permission of the last one of its kind. If the entries of the list are in strict order already, it
is the list itself. In the other direction the list of any mode has the lowest nine bits of the
mode, whatever the higher ones are. -/
theorem permissionBits?_correspond (acl : Acl) :
    ((∃ bits, acl.permissionBits? = some bits) ↔
      (∀ e ∈ acl, e.scope = .access ∧ e.name = [] ∧
        (e.kind = .user ∨ e.kind = .group ∨ e.kind = .other)) ∧
      ∀ kind ∈ [Kind.user, .group, .other], ∃ e ∈ acl, e.kind = kind) ∧
    (∀ bits, acl.permissionBits? = some bits →
      bits ≤ 0o777 ∧
      (∃ user group other, ofMode bits =
          [⟨.access, .user, [], user⟩, ⟨.access, .group, [], group⟩,
            ⟨.access, .other, [], other⟩] ∧
        acl.LastGrants .user user ∧ acl.LastGrants .group group ∧ acl.LastGrants .other other) ∧
      (acl.Ordered → ofMode bits = acl)) ∧
    ∀ mode, (ofMode mode).permissionBits? = some (mode % 512) := by
  have hplain : ∀ e : Entry, e.isBase = true ↔ e.scope = .access ∧ e.name = [] ∧
      (e.kind = .user ∨ e.kind = .group ∨ e.kind = .other) := by
    intro e
    rw [isBase_iff]
    cases e.kind <;> simp
  refine ⟨?_, fun bits hbits => ?_, permissionBits?_ofMode⟩
  · simp only [← hplain]
    exact exists_permissionBits?_iff
  · obtain ⟨-, user, group, other, huser, hgroup, hother, rfl⟩ :=
      permissionBits?_eq_some_iff.mp hbits
    refine ⟨bitsOf_le user group other,
      ⟨user, group, other, ofMode_bitsOf user group other, huser, hgroup, hother⟩,
      fun hordered => hordered.ofMode_permissionBits? hbits⟩

/-- Of two entries for the group the last one counts, and the entries may be in any order. -/
example :
    permissionBits? [{ kind := .group, permission := .ofOctal 7 },
      { kind := .other, permission := .ofOctal 4 }, { kind := .group, permission := .ofOctal 5 },
      { kind := .user, permission := .ofOctal 6 }] = some 0o654 := by
  decide

end Acl

end PosixAcl
