import PosixAcl.Proofs.Acl.Candidate
import PosixAcl.Proofs.Namespace.Reachable

/-!
# Merging into the list of a file

Several users may add entries to the list of one file, one after the other. As long
as they name different subjects, the order of their calls does not matter, and each
of them gets what was meant for it.
-/

namespace PosixAcl.Namespace

variable {ns : Namespace} {path : Path} {node : Node}

/-- Merging entries into the list of a file succeeds if the merge alone does. -/
theorem WellFormed.change_merge_iff (h : ns.WellFormed)
    (hnode : ns.find? path.location = some node) (hmay : ns.mayChange node = true)
    {entries : List Entry} (hadd : Acl.Additions node.acl entries) {changed : Namespace} :
    ns.change path (.merge entries) = .ok changed ↔
      ∃ acl, node.acl.merge entries = .ok acl ∧
        changed = ns.withAcl path.location.names node acl := by
  have hmem := Tree.mem_of_get? (find?_eq_some_iff.mp hnode).2
  -- Entries that bring no default scope are not refused on a file.
  have hallowed : ∀ {acl : Acl}, node.acl.merge entries = .ok acl →
      node.directory = true ∨ acl.hasDefault = false := by
    intro acl hmerge
    obtain ⟨-, rfl, -⟩ := hadd.ordered.merge_eq_ok_iff.mp hmerge
    rw [hadd.hasDefault_merged]
    cases hdirectory : node.directory with
    | true => exact Or.inl rfl
    | false => exact Or.inr (h.noDefault _ hmem hdirectory)
  rw [change_eq_ok_iff]
  constructor
  · rintro ⟨found, acl, hfound, hedit, rfl⟩
    obtain rfl : node = found := Option.some.inj (hnode.symm.trans hfound)
    exact ⟨acl, (edit_eq_ok_iff.mp hedit).2.1, rfl⟩
  · rintro ⟨acl, hmerge, rfl⟩
    exact ⟨node, acl, hnode, edit_eq_ok_iff.mpr ⟨hmay, hmerge, hallowed hmerge⟩, rfl⟩

/-- Several merges into the list of a file, one after the other, succeed together with the merges
alone. -/
theorem WellFormed.foldlM_change_merge_iff (h : ns.WellFormed)
    (hnode : ns.find? path.location = some node) (hmay : ns.mayChange node = true)
    {specs : List (List Entry)} (hadd : Acl.Additions node.acl specs.flatten)
    {final : Namespace} :
    specs.foldlM (fun (ns : Namespace) spec => ns.change path (.merge spec)) ns = .ok final ↔
      ∃ acl, specs.foldlM Acl.merge node.acl = .ok acl ∧
        final = ns.withAcl path.location.names node acl := by
  -- After each step the file has another list, and the namespace is otherwise the same.
  induction specs generalizing ns node with
  | nil =>
    have hself := h.withAcl_self hnode
    rw [List.foldlM_nil, List.foldlM_nil]
    constructor
    · rintro hok
      obtain rfl := Except.ok.inj hok
      exact ⟨node.acl, rfl, hself.symm⟩
    · rintro ⟨acl, hok, rfl⟩
      obtain rfl := Except.ok.inj hok
      rw [hself]
      rfl
  | cons spec rest ih =>
    rw [List.flatten_cons] at hadd
    have hstep : ∀ {acl : Acl}, node.acl.merge spec = .ok acl →
        (rest.foldlM (fun (ns : Namespace) spec => ns.change path (.merge spec))
            (ns.withAcl path.location.names node acl) = .ok final ↔
          ∃ result, rest.foldlM Acl.merge acl = .ok result ∧
            final = ns.withAcl path.location.names node result) := by
      intro acl hmerge
      have hmerged : node.acl.merged spec = acl := (hadd.ordered.merge_eq_ok_iff.mp hmerge).2.1
      have hchange := (h.change_merge_iff hnode hmay hadd.left).mpr ⟨acl, hmerge, rfl⟩
      rw [ih (h.change hchange) (h.find?_withAcl hnode acl) hmay (hmerged ▸ hadd.right)]
      simp only [Namespace.withAcl, Tree.set_set]
    rw [List.foldlM_cons, List.foldlM_cons]
    cases hchange : ns.change path (.merge spec) with
    | error error =>
      cases hmerge : node.acl.merge spec with
      | error rule => simp [bind, Except.bind]
      | ok acl =>
        rw [(h.change_merge_iff hnode hmay hadd.left).mpr ⟨acl, hmerge, rfl⟩] at hchange
        cases hchange
    | ok changed =>
      obtain ⟨acl, hmerge, rfl⟩ := (h.change_merge_iff hnode hmay hadd.left).mp hchange
      rw [hmerge]
      exact hstep hmerge

/-- Merging entries with different keys and without masks, where default entries only join others,
into a list that a reached namespace stores: whether it is done in one step or in several, and in
which order, makes no difference to whether all steps succeed, and none to the result. This holds of
the lists, and of the calls that change the file. The result gives each entry its permission, and
the other keys what they had, apart from masks. The mask of a scope is that of before if no entry is
new in it or has another permission. Otherwise there is one if the scope names a subject or had a
mask, and it is the union of what it bounds. -/
theorem merge_steps_iff (hreached : ns.Reachable) (hnode : ns.find? path.location = some node)
    {specs order : List (List Entry)} (horder : order.Perm specs)
    (hmask : ∀ e ∈ specs.flatten, e.kind ≠ .mask)
    (hkeys : (specs.flatten.map Entry.key).Nodup)
    (hdefault : ∀ e ∈ specs.flatten, e.scope = .default → node.acl.hasDefault = true) :
    (∀ acl, order.foldlM Acl.merge node.acl = .ok acl ↔
      node.acl.merge specs.flatten = .ok acl) ∧
    (ns.mayChange node = true → ∀ final,
      order.foldlM (fun (ns : Namespace) spec => ns.change path (.merge spec)) ns = .ok final ↔
        ns.change path (.merge specs.flatten) = .ok final) ∧
    ∀ acl, node.acl.merge specs.flatten = .ok acl →
      (∀ e ∈ specs.flatten, acl.get? e.key = some e.permission) ∧
      (∀ key : Key, key.kind ≠ .mask → (∀ e ∈ specs.flatten, e.key ≠ key) →
        acl.get? key = node.acl.get? key) ∧
      ∀ scope,
        let unchanged := ∀ e ∈ specs.flatten, e.scope = scope →
          node.acl.get? e.key = some e.permission
        (unchanged → acl.get? (Acl.maskKey scope) = node.acl.get? (Acl.maskKey scope)) ∧
        (¬ unchanged →
          (acl.hasKey (Acl.maskKey scope) = true ↔
            acl.NamesSubject scope ∨ node.acl.hasKey (Acl.maskKey scope) = true) ∧
          ∀ p, acl.get? (Acl.maskKey scope) = some p → p.IsUnion (acl.Bounded scope)) := by
  have h := hreached.wellFormed
  have hacl := h.acl _ (Tree.mem_of_get? (find?_eq_some_iff.mp hnode).2)
  have hperm : order.flatten.Perm specs.flatten := horder.flatten
  have hadd : Acl.Additions node.acl specs.flatten :=
    ⟨hacl.ordered, hacl.default_base, hmask, hkeys, hdefault⟩
  have hother : Acl.Additions node.acl order.flatten :=
    ⟨hacl.ordered, hacl.default_base, fun e he => hmask e (hperm.mem_iff.mp he),
      (hperm.map Entry.key).nodup_iff.mpr hkeys, fun e he => hdefault e (hperm.mem_iff.mp he)⟩
  have hlists : ∀ acl, order.foldlM Acl.merge node.acl = .ok acl ↔
      node.acl.merge specs.flatten = .ok acl := by
    intro acl
    rw [hacl.foldlM_merge_iff hother, hacl.ordered.merge_perm hperm hother.nodup]
  refine ⟨hlists, fun hmay final => ?_, fun acl hok => ?_⟩
  · rw [h.foldlM_change_merge_iff hnode hmay hother, h.change_merge_iff hnode hmay hadd]
    simp only [hlists]
  · obtain ⟨-, rfl, -⟩ := hacl.ordered.merge_eq_ok_iff.mp hok
    refine ⟨fun e he => ?_, fun key hkind hkey => ?_, fun scope => ⟨fun hsame => ?_, fun hnew => ?_⟩⟩
    · rw [hadd.get?_merged (hmask e he), Acl.get?_of_mem hkeys he, Option.some_or]
    · rw [hadd.get?_merged hkind, Acl.get?_eq_none_iff.mpr hkey, Option.none_or]
    · have hunchanged := Acl.changedBy_eq_false_iff.mpr hsame
      rw [hadd.get?_merged_maskKey, if_neg fun hboth => by simp [hunchanged] at hboth]
    · refine hadd.mask_merged ?_
      rwa [← Bool.not_eq_false, Acl.changedBy_eq_false_iff]

/-- Two users are added to the list of the root directory, in the other order than they are given
in. Both are in the result, whose mask covers both of them and the group. -/
theorem merge_steps_two_users :
    let first : List Entry := [⟨.access, .user, ['a'], ⟨true, false, false⟩⟩]
    let second : List Entry := [⟨.access, .user, ['b'], ⟨true, true, false⟩⟩]
    let result : Acl := [⟨.access, .user, [], ⟨true, true, true⟩⟩,
      ⟨.access, .user, ['a'], ⟨true, false, false⟩⟩, ⟨.access, .user, ['b'], ⟨true, true, false⟩⟩,
      ⟨.access, .group, [], ⟨true, false, true⟩⟩, ⟨.access, .mask, [], ⟨true, true, true⟩⟩,
      ⟨.access, .other, [], ⟨true, false, true⟩⟩]
    initial.Reachable ∧ initial.find? (Path.mk [slash]).location = some rootNode ∧
      [second, first].foldlM Acl.merge rootNode.acl = .ok result ∧
      (∀ e ∈ first ++ second, result.get? e.key = some e.permission) ∧
      Permission.IsUnion ⟨true, true, true⟩ (result.Bounded .access) := by
  intro first second result
  have hreached : initial.Reachable := ⟨[], rfl⟩
  have hroot : initial.find? (Path.mk [slash]).location = some rootNode := rfl
  have hok : rootNode.acl.merge [first, second].flatten = .ok result := by decide +kernel
  obtain ⟨hsteps, -, heffect⟩ := merge_steps_iff hreached hroot (List.Perm.swap first second [])
    (by decide) (by decide) (by decide)
  obtain ⟨hgrants, -, hmasks⟩ := heffect result hok
  refine ⟨hreached, hroot, (hsteps result).mpr hok, hgrants, ?_⟩
  refine ((hmasks .access).2 fun hunchanged => ?_).2 _ (by decide)
  exact absurd (hunchanged _ List.mem_cons_self rfl) (by decide)

end PosixAcl.Namespace
