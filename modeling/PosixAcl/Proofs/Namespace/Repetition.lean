import PosixAcl.Proofs.Acl.Repetition
import PosixAcl.Proofs.Namespace.Shape

/-!
# Changing the files of a namespace twice

A change of a file that is made again finds the list that it made, and leaves it.
This stays so when the same change is made to other files in between, because it
concerns one file only. What a walk sees stays as it is, too.
-/

namespace PosixAcl.Namespace

variable {ns changed : Namespace} {path other : Path} {what : Change}

/-- A change depends on the location of its path only. -/
theorem change_congr (hlocation : path.location = other.location) :
    ns.change path what = ns.change other what := by
  rw [change_eq, change_eq, hlocation]

/-- A change that succeeded succeeds again, and leaves the namespace as it is. -/
theorem WellFormed.change_change (h : ns.WellFormed) (hok : ns.change path what = .ok changed) :
    changed.change path what = .ok changed := by
  have hchanged := h.change hok
  obtain ⟨node, acl, hfind, hedit, rfl⟩ := change_eq_ok_iff.mp hok
  obtain ⟨hmay, happly, hallowed⟩ := edit_eq_ok_iff.mp hedit
  have hthere := h.find?_withAcl hfind acl
  have hagain : (ns.withAcl path.location.names node acl).edit what { node with acl } = .ok acl :=
    edit_eq_ok_iff.mpr ⟨hmay, Acl.apply_apply happly, hallowed⟩
  exact change_eq_ok_iff.mpr
    ⟨{ node with acl }, acl, hthere, hagain, (hchanged.withAcl_self hthere).symm⟩

/-- Changing a file in another place leaves the files that a change fails on. -/
theorem WellFormed.change_error (h : ns.WellFormed) {error : StoreError}
    (herror : ns.change path what = .error error) (hok : ns.change other what = .ok changed) :
    changed.change path what = .error error := by
  have hne : path.location ≠ other.location := by
    intro heq
    rw [change_congr heq, hok] at herror
    cases herror
  obtain ⟨node, acl, hfind, -, rfl⟩ := change_eq_ok_iff.mp hok
  rw [change_eq] at herror ⊢
  rw [h.find?_withAcl_of_ne hfind hne acl]
  cases hold : ns.find? path.location with
  | none => simpa only [hold] using herror
  | some found =>
    simp only [hold] at herror ⊢
    cases hedit : ns.edit what found with
    | error cause =>
      have hsame : (ns.withAcl other.location.names node acl).edit what found =
          .error cause := hedit
      rw [hsame]
      simpa only [hedit] using herror
    | ok acl => simp [hedit] at herror

/-- Changing a file in another place leaves the files that a change has nothing more to do for. -/
theorem WellFormed.change_settled (h : ns.WellFormed) (hsettled : ns.change path what = .ok ns)
    (hok : ns.change other what = .ok changed) : changed.change path what = .ok changed := by
  by_cases heq : path.location = other.location
  · rw [change_congr heq, hok] at hsettled
    obtain rfl := Except.ok.inj hsettled
    rw [change_congr heq, hok]
  · have hchanged := h.change hok
    obtain ⟨node, acl, hfind, hedit, hsame⟩ := change_eq_ok_iff.mp hsettled
    obtain ⟨target, list, htarget, -, rfl⟩ := change_eq_ok_iff.mp hok
    -- The list that the change makes is the one that the file has.
    have hthere := h.find?_withAcl hfind acl
    rw [← hsame, hfind] at hthere
    have hacl : node.acl = acl := congrArg Node.acl (Option.some.inj hthere)
    have hfound := (h.find?_withAcl_of_ne htarget heq list).trans hfind
    have hstay : (ns.withAcl other.location.names target list).edit what node = .ok acl := hedit
    refine change_eq_ok_iff.mpr ⟨node, acl, hfound, hstay, ?_⟩
    rw [← hacl, hchanged.withAcl_self hfound]

end PosixAcl.Namespace
