import PosixAcl.Proofs.Acl.Relations
import PosixAcl.Proofs.Namespace.Reachable

/-!
# Removing from the list of a file

Lists that a reached namespace stores are well formed, and so removals from them are
plain: naming all default entries, or all but the base entries, strips the list as
the two changes do that are made for this. A mask is only taken afresh where an entry
of its scope was taken away, even if a copy of the entry comes back.
-/

namespace PosixAcl.Namespace

variable {ns : Namespace} {path : Path} {node : Node} {entries : List Entry}

/-- Changes that make the same of the list of a file are the same call on it. -/
theorem change_eq_of_apply_eq (hnode : ns.find? path.location = some node) {what other : Change}
    (happly : what.apply node.acl = other.apply node.acl) :
    ns.change path what = ns.change path other := by
  rw [change_eq, change_eq, hnode]
  simp only [edit, happly]

/-! ## A directory with narrow masks -/

/-- A root directory that names a user in both scopes. The access mask is narrower than what the
user is granted, and the default mask is the given one. -/
def narrowedNode (mask : Permission) : Node :=
  { rootNode with
    acl :=
      [⟨.access, .user, [], ⟨true, true, true⟩⟩, ⟨.access, .user, ['b'], ⟨true, true, true⟩⟩,
        ⟨.access, .group, [], ⟨true, false, true⟩⟩, ⟨.access, .mask, [], ⟨true, false, false⟩⟩,
        ⟨.access, .other, [], ⟨true, false, true⟩⟩,
        ⟨.default, .user, [], ⟨true, true, true⟩⟩, ⟨.default, .user, ['b'], ⟨true, true, true⟩⟩,
        ⟨.default, .group, [], ⟨true, false, true⟩⟩, ⟨.default, .mask, [], mask⟩,
        ⟨.default, .other, [], ⟨true, false, true⟩⟩] }

/-- The namespace in which the user was named and both masks were given. -/
def narrowed : Namespace :=
  initial.afterAll
    [.change ⟨[slash]⟩ (.merge
      [⟨.access, .user, ['b'], ⟨true, true, true⟩⟩, ⟨.access, .mask, [], ⟨true, false, false⟩⟩,
        ⟨.default, .user, ['b'], ⟨true, true, true⟩⟩,
        ⟨.default, .mask, [], ⟨true, false, false⟩⟩])]

/-- The namespace is reached by one call. -/
theorem reachable_narrowed : narrowed.Reachable := ⟨_, rfl⟩

/-- Its root directory has the two narrow masks. -/
theorem find?_narrowed :
    narrowed.find? (Path.mk [slash]).location = some (narrowedNode ⟨true, false, false⟩) := by
  decide +kernel

/-! ## Stripping -/

/-- Naming entries with the keys of all default entries of a stored list, in any order and with any
permissions, removes just what dropping the default entries drops. In the same way the entries that
are not base entries can be named in order to keep the base entries. Both removals succeed, and the
calls agree as well. -/
theorem remove_strips (hreached : ns.Reachable) (hnode : ns.find? path.location = some node)
    (entries : List Entry) :
    ((∀ key, Acl.hasKey entries key = Acl.hasKey (node.acl.filter (·.scope = .default)) key) →
      node.acl.remove entries = .ok node.acl.dropDefault ∧
        ns.change path (.remove entries) = ns.change path .dropDefault) ∧
    ((∀ key, Acl.hasKey entries key = Acl.hasKey (node.acl.filter fun e => !e.isBase) key) →
      node.acl.remove entries = .ok node.acl.keepBase ∧
        ns.change path (.remove entries) = ns.change path .keepBase) := by
  have hacl := hreached.wellFormed_acl hnode
  constructor
  · intro hkeys
    have hremove := hacl.remove_defaults hkeys
    exact ⟨hremove, change_eq_of_apply_eq hnode hremove⟩
  · intro hkeys
    have hremove := hacl.remove_extended hkeys
    exact ⟨hremove, change_eq_of_apply_eq hnode hremove⟩

/-- Both ways of stripping a list that has a narrow mask in each scope, with entries that are named
backwards and grant nothing. -/
theorem remove_strips_narrowed :
    let acl := (narrowedNode ⟨true, false, false⟩).acl
    let named (part : Acl) : List Entry := part.reverse.map ({ · with permission := .empty })
    acl.remove (named (acl.filter (·.scope = .default))) = .ok acl.dropDefault ∧
      acl.remove (named (acl.filter fun e => !e.isBase)) = .ok acl.keepBase ∧
      acl.keepBase = Acl.ofMode 0o755 := by
  intro acl named
  have hnamed : ∀ part key, Acl.hasKey (named part) key = Acl.hasKey part key := by
    intro part key
    simp only [named, Acl.hasKey, List.any_map, List.any_reverse]
    rfl
  have hstrips := remove_strips reachable_narrowed find?_narrowed
  exact ⟨((hstrips _).1 (hnamed _)).1, ((hstrips _).2 (hnamed _)).1, by decide +kernel⟩

/-! ## Narrow masks -/

/-- After a removal that names no mask, each scope of a stored list has a mask just if it had one.
Where the other entries of the scope are those of before, so is the mask, unless the scope is the
default one and one of its base entries was named. Such an entry is taken away, and comes back as a
copy of the access entry. This touches the scope, and the mask becomes the union of what it
bounds. -/
theorem remove_keeps_mask (hreached : ns.Reachable) (hnode : ns.find? path.location = some node)
    (hnames : ∀ e ∈ entries, e.kind ≠ .mask) {result : Acl}
    (hok : node.acl.remove entries = .ok result) {scope : Scope}
    (hsame : result.filter (fun e => e.scope = scope && e.kind ≠ .mask) =
      node.acl.filter fun e => e.scope = scope && e.kind ≠ .mask) :
    let mask := Acl.maskKey scope
    let copiedBack := scope = .default ∧
      ∃ kind ∈ Kind.base, Acl.hasKey entries ⟨.default, kind, []⟩ = true
    result.hasKey mask = node.acl.hasKey mask ∧
      (¬ copiedBack → result.get? mask = node.acl.get? mask) ∧
      (copiedBack → ∀ p, result.get? mask = some p → p.IsUnion (result.Bounded scope)) := by
  intro mask copiedBack
  have hacl := hreached.wellFormed_acl hnode
  have hget : ∀ key : Key, key.scope = scope → key.kind ≠ .mask →
      result.get? key = node.acl.get? key := fun key hscope hkind =>
    Acl.get?_eq_of_filter_eq (fun key => key.scope = scope && key.kind ≠ .mask) hsame
      (by simp [hscope, hkind])
  refine ⟨hacl.hasKey_mask_remove hnames hok, fun hnot => ?_, ?_⟩
  · refine hacl.get?_mask_remove hnames hok hget fun hdefault kind hkind => ?_
    rw [Bool.eq_false_iff]
    exact fun hnamed => hnot ⟨hdefault, kind, hkind, hnamed⟩
  · rintro ⟨rfl, kind, hkind, hnamed⟩ p hp
    exact hacl.mask_isUnion_remove hok hkind hnamed hp

/-- The default entry of the owner is removed, together with a user who is not in the list. The
access scope keeps its narrow mask. The default entry comes back, and the default mask covers the
user and the group. -/
theorem remove_keeps_mask_narrowed :
    let acl := (narrowedNode ⟨true, false, false⟩).acl
    let entries : List Entry := [⟨.access, .user, ['c'], .empty⟩, ⟨.default, .user, [], .empty⟩]
    let result := (narrowedNode ⟨true, true, true⟩).acl
    acl.remove entries = .ok result ∧
      result.get? (Acl.maskKey .access) = acl.get? (Acl.maskKey .access) ∧
      Permission.IsUnion ⟨true, true, true⟩ (result.Bounded .default) := by
  intro acl entries result
  have hok : acl.remove entries = .ok result := by decide +kernel
  have hnames : ∀ e ∈ entries, e.kind ≠ .mask := by decide
  have haccess : result.filter (fun e => e.scope = .access && e.kind ≠ .mask) =
      acl.filter fun e => e.scope = .access && e.kind ≠ .mask := by decide
  have hdefault : result.filter (fun e => e.scope = .default && e.kind ≠ .mask) =
      acl.filter fun e => e.scope = .default && e.kind ≠ .mask := by decide
  obtain ⟨-, hkept, -⟩ := remove_keeps_mask reachable_narrowed find?_narrowed hnames hok haccess
  obtain ⟨-, -, hunion⟩ := remove_keeps_mask reachable_narrowed find?_narrowed hnames hok hdefault
  exact ⟨hok, hkept (by simp), hunion ⟨rfl, .user, by decide, by decide⟩ _ (by decide)⟩

/-- Removing the default entry of the owner takes it away and copies it back. It leaves all entries
but the default mask, which was narrow and becomes wide. -/
theorem remove_widens_mask :
    let node := narrowedNode ⟨true, false, false⟩
    let entries : List Entry := [⟨.default, .user, [], .empty⟩]
    let result := (narrowedNode ⟨true, true, true⟩).acl
    narrowed.Reachable ∧ narrowed.find? (Path.mk [slash]).location = some node ∧
      (∀ e ∈ entries, e.kind ≠ .mask) ∧ node.acl.remove entries = .ok result ∧
      result.filter (fun e => e.scope = .default && e.kind ≠ .mask) =
        node.acl.filter (fun e => e.scope = .default && e.kind ≠ .mask) ∧
      node.acl.get? (Acl.maskKey .default) = some ⟨true, false, false⟩ ∧
      result.get? (Acl.maskKey .default) = some ⟨true, true, true⟩ := by
  intro node entries result
  exact ⟨reachable_narrowed, find?_narrowed, by decide, by decide +kernel, by decide, by decide,
    by decide⟩

end PosixAcl.Namespace
