import PosixAcl.Proofs.Namespace.Locality
import PosixAcl.Proofs.Tool.Invariants

/-!
# Files of other users

Whatever happens to a namespace, a file that is there stays, and nothing of it
changes but its list. The list changes only if the owner acts, or the superuser,
or nobody in particular. This is a fact about single calls. Runs of the tools
make no others, so it holds for them too, however they go.
-/

namespace PosixAcl

/-- What may happen to a namespace that is used through calls and with the tools. -/
inductive Step where
  /-- A file or a directory is made. -/
  | create (path : Path) (directory : Bool) (owner group : Text) (mode : Nat)
  /-- Another user acts from now on. -/
  | actAs (user : Text)
  /-- A call is made. -/
  | call (call : Call)
  /-- A tool is run with some arguments and outputs. -/
  | run (tool : Tool) (arguments : List Bytes) (stdout stderr : Output)

namespace Namespace

/-- The namespace after a step, whether or not it succeeds. -/
def afterStep (ns : Namespace) : Step → Namespace
  | .create path directory owner group mode => ns.after (.create path directory owner group mode)
  | .actAs user => ns.withCaller user
  | .call call => (backend.perform call ns).2
  | .run tool arguments stdout stderr =>
    (tool.run backend arguments (.start tool ns stdout stderr)).2.store

/-- The namespace after several steps. -/
def afterSteps (ns : Namespace) (steps : List Step) : Namespace :=
  steps.foldl afterStep ns

/-- What stays from a namespace to a later one while the same user acts. -/
structure Kept (ns later : Namespace) : Prop where
  /-- The acting user is the same. -/
  caller : later.caller = ns.caller
  /-- Every file is still there, with another list at most, and with the same list if it may not be
  changed. -/
  files : ∀ location node, ns.find? location = some node →
    ∃ acl, later.find? location = some { node with acl } ∧ (¬ ns.Allows node → acl = node.acl)

namespace Kept

variable {ns later last : Namespace}

/-- Everything stays in the same namespace. -/
theorem refl (ns : Namespace) : Kept ns ns where
  caller := rfl
  files _ node hnode := ⟨node.acl, hnode, fun _ => rfl⟩

/-- Whether a file may be changed does not depend on its list. -/
theorem allows_iff (h : Kept ns later) (node : Node) (acl : Acl) :
    later.Allows { node with acl } ↔ ns.Allows node := by
  unfold Allows
  rw [h.caller]

/-- What stays twice stays. -/
theorem trans (h : Kept ns later) (hlast : Kept later last) : Kept ns last where
  caller := hlast.caller.trans h.caller
  files location node hnode := by
    obtain ⟨acl, hlater, hsame⟩ := h.files location node hnode
    obtain ⟨acl', hfound, hsame'⟩ := hlast.files location _ hlater
    refine ⟨acl', hfound, fun hforeign => ?_⟩
    have hkept := hsame' (mt (h.allows_iff node acl).mp hforeign)
    exact hkept.trans (hsame hforeign)

/-- Making a file keeps the others. -/
theorem of_create {path : Path} {directory : Bool} {owner group : Text} {mode : Nat}
    {made : Namespace} (hok : ns.create path directory owner group mode = .ok made) :
    Kept ns made := by
  obtain ⟨acl, hadds⟩ := create_adds hok
  exact ⟨hadds.caller, fun location node hnode =>
    ⟨node.acl, find?_create_of_some hok hnode, fun _ => rfl⟩⟩

/-- A change keeps the file, and its list if it may not be changed. -/
theorem of_change {path : Path} {what : Change} (hok : ns.change path what = .ok later) :
    Kept ns later := by
  obtain ⟨node, acl, hfound, -, -, hfind, hcaller⟩ := change_relists hok
  refine ⟨hcaller, fun location other hother => ?_⟩
  by_cases hplace : location = path.location
  · subst hplace
    refine ⟨acl, by rw [hfind, if_pos rfl, hother]; rfl, fun hforeign => ?_⟩
    -- The change of a file that may not be changed would have been refused.
    obtain ⟨user, hcaller, hroot, howner⟩ := not_allows_iff.mp hforeign
    have hrefused : ns.change path what = .error _ :=
      change_eq_error_iff.mpr (.edit hother (.foreign hcaller hroot howner))
    rw [hok] at hrefused
    cases hrefused
  · exact ⟨other.acl, by rw [hfind, if_neg hplace, hother], fun _ => rfl⟩

/-- Every call keeps what stays. -/
theorem perform (h : Kept ns later) (call : Call) : Kept ns (backend.perform call later).2 := by
  cases call with
  | fileStatus path | children path | aclStatus path => exact h
  | change path what =>
    simp only [backend]
    cases hok : later.change path what with
    | error error => exact h
    | ok changed => exact h.trans (of_change hok)

end Kept

/-- A step keeps what stays, unless it is that another user acts from now on. -/
theorem kept_afterStep (ns : Namespace) {step : Step} (hstep : ∀ user, step ≠ .actAs user) :
    Kept ns (ns.afterStep step) := by
  cases step with
  | create path directory owner group mode =>
    simp only [afterStep, after]
    cases hok : ns.create path directory owner group mode with
    | error error => exact .refl ns
    | ok made => exact .of_create hok
  | actAs user => exact absurd rfl (hstep user)
  | call call => exact (Kept.refl ns).perform call
  | run tool arguments stdout stderr =>
    have hperform : ∀ call later, Kept ns later → Kept ns (backend.perform call later).2 :=
      fun call _ h => h.perform call
    exact Tool.run_keeps_of_perform hperform tool arguments (.refl ns)

/-- Whatever happens, a file stays with its type, owner, group and sticky bit. Its list is the same
if only others act than the superuser and the owner. -/
theorem find?_afterSteps {ns : Namespace} (steps : List Step) {location : Location} {node : Node}
    (hnode : ns.find? location = some node) :
    ∃ acl, (ns.afterSteps steps).find? location = some { node with acl } ∧
      (¬ ns.Allows node →
        (∀ user, .actAs user ∈ steps → user ≠ superuser ∧ user ≠ node.owner) →
        acl = node.acl) := by
  induction steps generalizing ns node with
  | nil => exact ⟨node.acl, hnode, fun _ _ => rfl⟩
  | cons step rest ih =>
    by_cases hacts : ∃ user, step = .actAs user
    · obtain ⟨user, rfl⟩ := hacts
      have hnow : (ns.withCaller user).find? location = some node := hnode
      obtain ⟨acl, hfound, hsame⟩ := ih hnow
      refine ⟨acl, hfound, fun _ hothers => hsame ?_ fun other hother =>
        hothers other (List.mem_cons_of_mem _ hother)⟩
      obtain ⟨hroot, howner⟩ := hothers user List.mem_cons_self
      exact not_allows_iff.mpr ⟨user, rfl, hroot, howner⟩
    · have hkept := kept_afterStep ns fun user huser => hacts ⟨user, huser⟩
      obtain ⟨acl, hlater, hsame⟩ := hkept.files location node hnode
      obtain ⟨acl', hfound, hsame'⟩ := ih hlater
      refine ⟨acl', hfound, fun hforeign hothers => ?_⟩
      have hthen := hsame' (mt (hkept.allows_iff node acl).mp hforeign) fun other hother =>
        hothers other (List.mem_cons_of_mem _ hother)
      exact hthen.trans (hsame hforeign)

/-- In every state, reached or not: a call that only asks or fails does nothing. A change that
succeeds gives the list of its rules to the file at the location of the path, and changes nothing
else. It fails for the first reason that applies: there is no such file, the acting user is neither
the superuser nor the owner, the change breaks a rule, or it gives default entries to something other
than a directory. Making a file adds it at the location of the path and changes nothing else, or it
does nothing. It fails for the first reason that applies: the place is taken, there is no parent,
or the parent is not a directory. So whatever happens, through calls and with the tools, every file
stays, with its type, owner, group and sticky bit. Its list stays as long as only users other than
the superuser and the owner act. -/
theorem local_and_owned :
    (∀ (ns : Namespace) (call : Call),
      ((∀ path what, call ≠ .change path what) ∨
        ∃ error, (backend.perform call ns).1 = .error error) →
      (backend.perform call ns).2 = ns) ∧
    (∀ (ns : Namespace) (path : Path) (what : Change),
      ((backend.perform (.change path what) ns).1 = .ok () →
        ∃ node acl, ns.find? path.location = some node ∧ what.apply node.acl = .ok acl ∧
          Relists ns (backend.perform (.change path what) ns).2 path.location acl) ∧
      ∀ error, (backend.perform (.change path what) ns).1 = .error error ↔
        ns.ChangeRefused path what error) ∧
    (∀ (ns : Namespace) (path : Path) (directory : Bool) (owner group : Text) (mode : Nat),
      (∀ made, ns.create path directory owner group mode = .ok made →
        ∃ acl, Adds ns made path.location ⟨directory, owner, group, isSticky mode, acl⟩) ∧
      (∀ error, ns.create path directory owner group mode = .error error ↔
        ns.CreateRefused path error) ∧
      ∀ error, ns.create path directory owner group mode = .error error →
        ns.after (.create path directory owner group mode) = ns) ∧
    ∀ (ns : Namespace) (steps : List Step) (location : Location) (node : Node),
      ns.find? location = some node →
      ∃ acl, (ns.afterSteps steps).find? location = some { node with acl } ∧
        ∀ user, ns.caller = some user → user ≠ superuser → user ≠ node.owner →
          (∀ other, .actAs other ∈ steps → other ≠ superuser ∧ other ≠ node.owner) →
          acl = node.acl := by
  refine ⟨fun ns call h => perform_eq_self h, fun ns path what => ⟨fun hok => ?_, fun error => ?_⟩,
    fun ns path directory owner group mode => ⟨fun made hok => create_adds hok,
      fun error => create_eq_error_iff, fun error herror => ?_⟩,
    fun ns steps location node hnode => ?_⟩
  · cases hchange : ns.change path what with
    | error error => simp [backend, hchange] at hok
    | ok changed => simpa only [backend, hchange] using change_relists hchange
  · rw [← change_eq_error_iff]
    cases hchange : ns.change path what <;> simp [backend, hchange]
  · simp only [after, herror]
  · obtain ⟨acl, hfound, hsame⟩ := find?_afterSteps steps hnode
    exact ⟨acl, hfound, fun user hcaller hroot howner hothers =>
      hsame (not_allows_iff.mpr ⟨user, hcaller, hroot, howner⟩) hothers⟩

/-- The user `b` strips the lists from the root directory on, makes a file in `/d`, and then changes
the list of `/d` itself. The directory `/d` belongs to the user `a` and stays as it is. -/
theorem local_and_owned_foreign_directory :
    let d : Node := ⟨true, ['a'], ['a'], false, .ofMode 0o750⟩
    let ns : Namespace := ⟨[([], rootNode), ([[0x64]], d)], some ['b']⟩
    let steps : List Step := [.run .setfacl [[], [0x2D, 0x52, 0x62], [0x2F]] {} {},
      .create ⟨[0x2F, 0x64, 0x2F, 0x66]⟩ false ['b'] ['b'] 0o644,
      .call (.change ⟨[0x2F, 0x64]⟩ (.replace (Acl.ofMode 0)))]
    ns.find? ⟨true, [[0x64]]⟩ = some d ∧ ns.caller = some ['b'] ∧
      (∀ other, .actAs other ∈ steps → other ≠ superuser ∧ other ≠ d.owner) ∧
      (ns.afterSteps steps).find? ⟨true, [[0x64]]⟩ = some d := by
  intro d ns steps
  have hnode : ns.find? ⟨true, [[0x64]]⟩ = some d := by decide +kernel
  have hothers : ∀ other, .actAs other ∈ steps → other ≠ superuser ∧ other ≠ d.owner := by
    simp [steps]
  obtain ⟨acl, hfound, hsame⟩ := local_and_owned.2.2.2 ns steps ⟨true, [[0x64]]⟩ d hnode
  have hacl := hsame ['b'] rfl (by decide) (by decide) hothers
  rw [hacl] at hfound
  exact ⟨hnode, rfl, hothers, hfound⟩

end Namespace

end PosixAcl
