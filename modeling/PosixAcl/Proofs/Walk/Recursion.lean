import PosixAcl.Proofs.Walk.Cursors
import PosixAcl.Proofs.Walk.PreOrder

/-!
# Walks as a recursion

What a walk yields can be said by a recursion over the listings: a file, and below
it what its children yield in their order, or the failure to list it. The recursion
ends if the listings are well-founded from the file on. Every walk from there on
then yields just this, and lists each directory in the step that yields it.
-/

namespace PosixAcl

namespace Walk

/-- A file is listed as a child of a directory. -/
def Below (listing : Listing) (child status : FileStatus) : Prop :=
  status.directory = true ∧ ∃ children, listing status.path = .ok children ∧ child ∈ children

/-- What is yielded from a file on, below which the listings are well-founded: the file, and for a
directory then what its children yield, or the failure to list it. -/
def visit (listing : Listing) (status : FileStatus) (h : Acc (Below listing) status) :
    List WalkItem :=
  .ok status ::
    if hdirectory : status.directory = true then
      match hlisting : listing status.path with
      | .error error => [.error (.listing error)]
      | .ok children =>
        children.attach.flatMap fun child =>
          visit listing child.1 (h.inv ⟨hdirectory, children, hlisting, child.2⟩)
    else []
termination_by (⟨status, h⟩ : { status // Acc (Below listing) status })
decreasing_by exact ⟨hdirectory, children, hlisting, child.2⟩

variable {listing : Listing} {status : FileStatus}

/-- A file that is no directory is yielded alone. -/
theorem visit_file (h : Acc (Below listing) status) (hfile : status.directory = false) :
    visit listing status h = [.ok status] := by
  rw [visit, dif_neg (by simp [hfile])]

/-- A directory that cannot be listed is followed by the failure. -/
theorem visit_unlisted (h : Acc (Below listing) status) (hdirectory : status.directory = true)
    {error : StoreError} (hlisting : listing status.path = .error error) :
    visit listing status h = [.ok status, .error (.listing error)] := by
  rw [visit, dif_pos hdirectory]
  split
  · rename_i hfound
    rw [hlisting] at hfound
    rw [Except.error.inj hfound]
  · rename_i hfound
    rw [hlisting] at hfound
    cases hfound

/-- A directory that can be listed is followed by what its children yield. -/
theorem visit_directory (h : Acc (Below listing) status) (hdirectory : status.directory = true)
    {children : List FileStatus} (hlisting : listing status.path = .ok children) :
    visit listing status h = .ok status :: children.attach.flatMap fun child =>
      visit listing child.1 (h.inv ⟨hdirectory, children, hlisting, child.2⟩) := by
  rw [visit, dif_pos hdirectory]
  split
  · rename_i hfound
    rw [hlisting] at hfound
    cases hfound
  · rename_i found hfound
    obtain rfl : found = children := Except.ok.inj (hfound.symm.trans hlisting)
    rfl

/-! ## The recursion meets the files in pre-order -/

/-- What is met from one file on comes before what is met from others. -/
theorem PreOrder.append {roots more files others : List FileStatus}
    (h : PreOrder listing roots files) (hmore : PreOrder listing more others) :
    PreOrder listing (roots ++ more) (files ++ others) := by
  induction h with
  | nil => exact hmore
  | file hfile _ ih => exact .file hfile ih
  | unlisted hdirectory hlisting _ ih => exact .unlisted hdirectory hlisting ih
  | @directory status children rest below files hdirectory hlisting hbelow _ _ ih =>
    rw [List.cons_append, List.cons_append, List.append_assoc]
    exact .directory hdirectory hlisting hbelow ih

/-- What several children yield is what the files yield that are met from them on. -/
private theorem exists_preOrder_each {children : List FileStatus}
    {found : { child // child ∈ children } → List WalkItem}
    (hfound : ∀ child, ∃ files, PreOrder listing [child.1] files ∧
      found child = files.flatMap (itemsOf listing)) (chosen : List { child // child ∈ children }) :
    ∃ files, PreOrder listing (chosen.map Subtype.val) files ∧
      chosen.flatMap found = files.flatMap (itemsOf listing) := by
  induction chosen with
  | nil => exact ⟨[], .nil, rfl⟩
  | cons child rest ih =>
    obtain ⟨files, hfiles, hitems⟩ := hfound child
    obtain ⟨others, hothers, hrest⟩ := ih
    refine ⟨files ++ others, hfiles.append hothers, ?_⟩
    rw [List.flatMap_cons, hitems, hrest, List.flatMap_append]

/-- The recursion yields what the files yield that are met in pre-order. -/
theorem exists_preOrder (h : Acc (Below listing) status) :
    ∃ files, PreOrder listing [status] files ∧
      visit listing status h = files.flatMap (itemsOf listing) := by
  -- The recursion goes down from a file to its children, and so does the induction.
  induction h with
  | intro status hbelow ih =>
    have hstatus : Acc (Below listing) status := ⟨status, hbelow⟩
    by_cases hdirectory : status.directory = true
    · cases hlisting : listing status.path with
      | error error =>
        refine ⟨[status], .unlisted hdirectory hlisting .nil, ?_⟩
        rw [visit_unlisted hstatus hdirectory hlisting]
        simp [itemsOf, hdirectory, hlisting]
      | ok children =>
        obtain ⟨files, hfiles, hitems⟩ := exists_preOrder_each
          (fun child => ih child.1 ⟨hdirectory, children, hlisting, child.2⟩) children.attach
        rw [List.attach_map_subtype_val] at hfiles
        refine ⟨status :: (files ++ []), .directory hdirectory hlisting hfiles .nil, ?_⟩
        have hfirst : itemsOf listing status = [.ok status] := by
          simp [itemsOf, hdirectory, hlisting]
        rw [visit_directory hstatus hdirectory hlisting, hitems, List.append_nil, List.flatMap_cons,
          hfirst]
        rfl
    · have hfile : status.directory = false := by simpa using hdirectory
      refine ⟨[status], .file hfile .nil, ?_⟩
      rw [visit_file hstatus hfile]
      simp [itemsOf, hfile]

/-! ## The calls of a walk -/

variable {σ : Type} {backend : Backend σ}

/-- The calls that are made to yield an item: a directory is listed. -/
def callsOf : WalkItem → List Call
  | .ok status => listCalls status
  | .error _ => []

/-- A step makes the calls for the item that it yields. -/
theorem next_logged (backend : Backend σ) (pending : List WalkItem) (s : σ) (log : List Call) :
    next backend.logged pending (s, log) =
      ((next backend pending s).1, (next backend pending s).2,
        log ++ ((next backend pending s).1.map fun found => callsOf found.1).getD []) := by
  match pending with
  | [] => simp [next]
  | .error error :: rest => simp [next, callsOf]
  | .ok status :: rest =>
    by_cases hdirectory : status.directory = true
    · simp only [next, if_pos hdirectory, Option.map_some, Option.getD_some, callsOf, listCalls]
      rfl
    · simp [next, hdirectory, callsOf, listCalls]

/-- A walk makes the calls for the items that it yields, one after the other. -/
theorem collect_logged (backend : Backend σ) (steps : Nat) (pending : List WalkItem) (s : σ)
    (log : List Call) :
    collect backend.logged steps pending (s, log) =
      ((collect backend steps pending s).1, (collect backend steps pending s).2,
        log ++ (collect backend steps pending s).1.flatMap callsOf) := by
  induction steps generalizing pending s log with
  | zero => simp [collect]
  | succ steps ih =>
    rw [collect, collect, next_logged]
    cases next backend pending s with
    | mk found t =>
      cases found with
      | none => simp
      | some found =>
        simp only [Option.map_some, Option.getD_some, ih, List.flatMap_cons, List.append_assoc]

/-- In fewer steps a walk yields the first of its items. -/
theorem collect_take (backend : Backend σ) (steps more : Nat) (pending : List WalkItem) (s : σ) :
    (collect backend steps pending s).1 =
      (collect backend (steps + more) pending s).1.take steps := by
  induction steps generalizing pending s with
  | zero => rfl
  | succ steps ih =>
    rw [Nat.add_right_comm, collect, collect]
    cases next backend pending s with
    | mk found t =>
      cases found with
      | none => rfl
      | some found => exact congrArg (found.1 :: ·) (ih found.2 t)

/-! ## Every walk yields the recursion -/

/-- A walk from a file on yields, step by step, what the recursion yields. -/
theorem collect_eq_take (h : Acc (Below listing) status) {s : σ}
    (hlists : backend.ListsAs listing s) (steps : Nat) :
    (collect backend steps [.ok status] s).1 = (visit listing status h).take steps := by
  obtain ⟨files, hfiles, hitems⟩ := exists_preOrder h
  have hall := collect_eq hfiles hlists (Nat.le_add_left _ steps)
  rw [collect_take backend steps (files.flatMap (itemsOf listing)).length, hitems]
  exact congrArg (List.take steps) (congrArg Prod.fst hall)

/-- Walks are the recursion. If the file at the root cannot be inspected, this is the only call, and
no walk begins. Otherwise, where the listings stay as they are and are well-founded from the file
on, whichever of them fail, a walk yields the items of the recursion in their order and then ends,
and so does one that keeps cursors. However many of them were yielded, the calls so far are the
inspection and one listing for each directory among them. -/
theorem yields_visit (backend : Backend σ) (root : Path) (s : σ) :
    let reply := backend.perform (.fileStatus root) s
    (∀ error, reply.1 = .error error →
      start backend.logged root (s, []) = (.error (.root error), reply.2, [.fileStatus root]) ∧
      Walker.start backend.logged root (s, []) =
        (.error (.root error), reply.2, [.fileStatus root])) ∧
    ∀ status, reply.1 = .ok status →
      ∀ (listing : Listing) (hacc : Acc (Below listing) status),
        backend.ListsAs listing reply.2 → ∃ pending walker,
          start backend.logged root (s, []) = (.ok pending, reply.2, [.fileStatus root]) ∧
          Walker.start backend.logged root (s, []) = (.ok walker, reply.2, [.fileStatus root]) ∧
          ∀ steps,
            let found := (visit listing status hacc).take steps
            let calls := .fileStatus root :: found.flatMap callsOf
            let walk := collect backend.logged steps pending (reply.2, [.fileStatus root])
            let walked := Walker.collect backend.logged steps walker (reply.2, [.fileStatus root])
            walk.1 = found ∧ walk.2.2 = calls ∧ walked.1 = found ∧ walked.2.2.2 = calls := by
  intro reply
  have hlogged : backend.logged.perform (.fileStatus root) (s, []) =
      (reply.1, reply.2, [.fileStatus root]) := rfl
  refine ⟨fun error herror => ?_, fun status hstatus listing hacc hlists => ?_⟩
  · rw [start, Walker.start, hlogged, herror]
    exact ⟨rfl, rfl⟩
  · have hstart : start backend.logged root (s, []) =
        (.ok [.ok status], reply.2, [.fileStatus root]) := by rw [start, hlogged, hstatus]
    have hwalker : Walker.start backend.logged root (s, []) =
        (.ok ⟨some status, [], none⟩, reply.2, [.fileStatus root]) := by
      rw [Walker.start, hlogged, hstatus]
    refine ⟨_, _, hstart, hwalker, fun steps => ?_⟩
    intro found calls walk walked
    have hwalked : (walked.1, walked.2.2) = walk :=
      Walker.collect_refines backend.logged (fun _ => rfl) steps _
    have hwalk : walk = _ := collect_logged backend steps [.ok status] reply.2 [.fileStatus root]
    have hfound : walk.1 = found := by rw [hwalk]; exact collect_eq_take hacc hlists steps
    have hcalls : walk.2.2 = calls := by
      rw [hwalk]
      exact congrArg (fun items => .fileStatus root :: items.flatMap callsOf)
        (collect_eq_take hacc hlists steps)
    exact ⟨hfound, hcalls, (congrArg Prod.fst hwalked).trans hfound,
      (congrArg (fun walk => walk.2.2) hwalked).trans hcalls⟩

/-- In such a walk, a directory below the root cannot be listed. Its failure follows it, and the
file after it is still yielded. -/
theorem yields_visit_failing_listing :
    let d : Path := ⟨[0x2F, 0x64]⟩
    let unlisted : Path := ⟨[0x2F, 0x64, 0x2F, 0x73]⟩
    let file : Path := ⟨[0x2F, 0x64, 0x2F, 0x66]⟩
    let listing : Listing := fun path =>
      if path = d then .ok [⟨unlisted, true⟩, ⟨file, false⟩]
      else .error ⟨path, .permissionDenied⟩
    let answer : (call : Call) → Except StoreError call.Reply
      | .fileStatus path => .ok ⟨path, true⟩
      | .children path => listing path
      | .aclStatus path => .error ⟨path, .notFound⟩
      | .change path _ => .error ⟨path, .notFound⟩
    let backend : Backend Unit := ⟨fun call s => (answer call, s), fun _ => 0⟩
    let items : List WalkItem := [.ok ⟨d, true⟩, .ok ⟨unlisted, true⟩,
      .error (.listing ⟨unlisted, .permissionDenied⟩), .ok ⟨file, false⟩]
    backend.ListsAs listing () ∧ (∃ hacc, visit listing ⟨d, true⟩ hacc = items) ∧
      ∃ walker, Walker.start backend.logged d ((), []) = (.ok walker, (), [.fileStatus d]) ∧
        ∀ steps,
          let walked := Walker.collect backend.logged steps walker ((), [.fileStatus d])
          walked.1 = items.take steps ∧
          walked.2.2.2 = .fileStatus d :: (items.take steps).flatMap callsOf := by
  intro d unlisted file listing answer backend items
  have hlists : backend.ListsAs listing () := fun _ _ => rfl
  have hlisted : listing d = .ok [⟨unlisted, true⟩, ⟨file, false⟩] := if_pos rfl
  have hfailed : listing unlisted = .error ⟨unlisted, .permissionDenied⟩ := if_neg (by decide)
  have hleaf : ∀ status : FileStatus, status.path ≠ d → Acc (Below listing) status := by
    refine fun status hne => ⟨status, fun child hbelow => ?_⟩
    obtain ⟨-, children, hchildren, -⟩ := hbelow
    simp [listing, hne] at hchildren
  have hroot : Acc (Below listing) ⟨d, true⟩ := by
    refine ⟨_, fun child hbelow => ?_⟩
    obtain ⟨-, children, hchildren, hmem⟩ := hbelow
    obtain rfl := Except.ok.inj (hlisted.symm.trans hchildren)
    refine hleaf child ?_
    rcases List.mem_cons.mp hmem with rfl | hmem
    · decide
    · obtain rfl := List.mem_singleton.mp hmem
      decide
  have hvisit : visit listing ⟨d, true⟩ hroot = items := by
    rw [visit_directory hroot rfl hlisted]
    simp only [List.attach, List.attachWith, List.pmap, List.flatMap_cons, List.flatMap_nil]
    rw [visit_unlisted _ rfl hfailed, visit_file _ rfl]
    rfl
  obtain ⟨pending, walker, -, hwalker, hsteps⟩ :=
    (yields_visit backend d ()).2 ⟨d, true⟩ rfl listing hroot hlists
  rw [hvisit] at hsteps
  exact ⟨hlists, ⟨hroot, hvisit⟩, walker, hwalker, fun steps => (hsteps steps).2.2⟩

end Walk

end PosixAcl
