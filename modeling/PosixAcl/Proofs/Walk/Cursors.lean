import PosixAcl.Walk

/-!
# Walks that keep cursors

A walk can also keep the listings that it is inside of, each with the place that it
has reached, and the failure to list a directory until its turn to be reported. What
is to come can be read off from these, and each step of such a walker is a step of
the walk through what is to come. A failure never has to wait while another one is
noted, so none is lost.
-/

namespace PosixAcl

/-- A listing and the place that a walk has reached in it. -/
structure Cursor where
  /-- The files in order. -/
  entries : List FileStatus
  /-- The number of files that were visited. -/
  index : Nat
deriving DecidableEq, Repr

namespace Cursor

/-- The files that are still to be visited. -/
def rest (cursor : Cursor) : List FileStatus :=
  cursor.entries.drop cursor.index

/-- The next file, and the cursor after it. -/
def next? (cursor : Cursor) : Option (FileStatus × Cursor) :=
  cursor.entries[cursor.index]?.map fun status => (status, ⟨cursor.entries, cursor.index + 1⟩)

/-- A cursor with a next file has it in front of the others. -/
theorem rest_eq_cons {cursor after : Cursor} {status : FileStatus}
    (h : cursor.next? = some (status, after)) : cursor.rest = status :: after.rest := by
  obtain ⟨found, hfound, heq⟩ := Option.map_eq_some_iff.mp h
  obtain ⟨rfl, rfl⟩ := Prod.mk.inj heq
  obtain ⟨hlt, rfl⟩ := List.getElem?_eq_some_iff.mp hfound
  exact List.drop_eq_getElem_cons hlt

/-- A cursor without a next file has reached the end. -/
theorem rest_eq_nil {cursor : Cursor} (h : cursor.next? = none) : cursor.rest = [] := by
  rw [next?, Option.map_eq_none_iff, List.getElem?_eq_none_iff] at h
  exact List.drop_of_length_le h

/-- The next file from the innermost cursor that has one, and the cursors after it. Those that have
reached the end are dropped. -/
def nextOf? : List Cursor → Option (FileStatus × List Cursor)
  | [] => none
  | cursor :: outer =>
    match cursor.next? with
    | some (status, cursor) => some (status, cursor :: outer)
    | none => nextOf? outer

/-- What is still to be visited from the innermost cursor outwards. -/
def restOf (stack : List Cursor) : List FileStatus :=
  stack.flatMap rest

/-- The next file is the first of those that are still to be visited. -/
theorem nextOf?_cases (stack : List Cursor) :
    (nextOf? stack = none ∧ restOf stack = []) ∨
      ∃ status after, nextOf? stack = some (status, after) ∧
        restOf stack = status :: restOf after := by
  induction stack with
  | nil => exact Or.inl ⟨rfl, rfl⟩
  | cons cursor outer ih =>
    cases hnext : cursor.next? with
    | some found =>
      obtain ⟨status, after⟩ := found
      refine Or.inr ⟨status, after :: outer, by rw [nextOf?, hnext], ?_⟩
      rw [restOf, List.flatMap_cons, rest_eq_cons hnext]
      rfl
    | none =>
      have hrest : restOf (cursor :: outer) = restOf outer := by
        rw [restOf, List.flatMap_cons, rest_eq_nil hnext]
        rfl
      have houter : nextOf? (cursor :: outer) = nextOf? outer := by rw [nextOf?, hnext]
      rwa [hrest, houter]

end Cursor

/-- A walk that keeps cursors. -/
structure Walker where
  /-- The file at which it begins, until this is visited. -/
  root : Option FileStatus
  /-- The listings that it is inside of, from the innermost outwards. -/
  stack : List Cursor
  /-- The failure to list the last directory, until it is reported. -/
  failure : Option WalkError
deriving DecidableEq, Repr

namespace Walker

variable {σ : Type}

/-- Begins a walk at a file that can be inspected. -/
def start (backend : Backend σ) (root : Path) (s : σ) : Except WalkError Walker × σ :=
  match backend.perform (.fileStatus root) s with
  | (.error error, s) => (.error (.root error), s)
  | (.ok status, s) => (.ok ⟨some status, [], none⟩, s)

/-- Enters a directory. If it cannot be listed, the failure is noted. -/
def descend (backend : Backend σ) (walker : Walker) (directory : Path) (s : σ) : Walker × σ :=
  match backend.perform (.children directory) s with
  | (.ok entries, s) => ({ walker with stack := ⟨entries, 0⟩ :: walker.stack }, s)
  | (.error error, s) => ({ walker with failure := some (.listing error) }, s)

/-- Visits a file, which is entered if it is a directory. -/
def visit (backend : Backend σ) (walker : Walker) (status : FileStatus) (s : σ) :
    Option WalkItem × Walker × σ :=
  if status.directory then (some (.ok status), descend backend walker status.path s)
  else (some (.ok status), walker, s)

/-- The next item: the file at which the walk begins, or else the failure that was noted, or else
the next file in the innermost listing that has one. -/
def next (backend : Backend σ) (walker : Walker) (s : σ) : Option WalkItem × Walker × σ :=
  match walker.root with
  | some root => visit backend { walker with root := none } root s
  | none =>
    match walker.failure with
    | some error => (some (.error error), { walker with failure := none }, s)
    | none =>
      match Cursor.nextOf? walker.stack with
      | none => (none, { walker with stack := [] }, s)
      | some (status, stack) => visit backend { walker with stack } status s

/-- The items of a walk, as many as a number of steps yields. -/
def collect (backend : Backend σ) : Nat → Walker → σ → List WalkItem × Walker × σ
  | 0, walker, s => ([], walker, s)
  | steps + 1, walker, s =>
    match next backend walker s with
    | (none, walker, s) => ([], walker, s)
    | (some item, walker, s) =>
      let (items, walker, s) := collect backend steps walker s
      (item :: items, walker, s)

/-! ## What is to come -/

/-- What is to come for a walker. -/
def pending (walker : Walker) : List WalkItem :=
  walker.root.toList.map .ok ++ walker.failure.toList.map .error ++
    (Cursor.restOf walker.stack).map .ok

/-- No failure is waiting before the first file is visited. -/
def Fresh (walker : Walker) : Prop :=
  walker.root.isSome → walker.failure = none

/-- Where no failure is waiting, a file is followed by what the walk through what is to come puts in
its place. -/
theorem visit_refines (backend : Backend σ) (stack : List Cursor) (status : FileStatus) (s : σ) :
    ∃ after t, visit backend ⟨none, stack, none⟩ status s = (some (.ok status), after, t) ∧
      after.Fresh ∧
      Walk.next backend (.ok status :: (Cursor.restOf stack).map .ok) s =
        (some (.ok status, after.pending), t) := by
  by_cases hdirectory : status.directory = true
  · rw [visit, if_pos hdirectory, Walk.next, if_pos hdirectory, descend]
    cases hreply : backend.perform (.children status.path) s with
    | mk reply t =>
      cases reply with
      | ok entries =>
        have hpending : pending ⟨none, ⟨entries, 0⟩ :: stack, none⟩ =
            Walk.contents (.ok entries) ++ (Cursor.restOf stack).map .ok := List.map_append
        exact ⟨⟨none, ⟨entries, 0⟩ :: stack, none⟩, t, rfl, fun _ => rfl, by rw [hpending]; rfl⟩
      | error error => exact ⟨⟨none, stack, some (.listing error)⟩, t, rfl, nofun, rfl⟩
  · rw [visit, if_neg hdirectory, Walk.next, if_neg hdirectory]
    exact ⟨⟨none, stack, none⟩, s, rfl, nofun, rfl⟩

/-- Each step of a walker is a step of the walk through what is to come. -/
theorem next_refines (backend : Backend σ) {walker : Walker} (hfresh : walker.Fresh) (s : σ) :
    ∃ item after t, next backend walker s = (item, after, t) ∧ after.Fresh ∧
      Walk.next backend walker.pending s = (item.map (·, after.pending), t) := by
  obtain ⟨root, stack, failure⟩ := walker
  -- A directory is entered only if no failure is waiting, so the place for the next one is free.
  cases root with
  | some root =>
    obtain rfl : failure = none := hfresh rfl
    obtain ⟨after, t, hvisit, hafter, hnext⟩ := visit_refines backend stack root s
    exact ⟨some (.ok root), after, t, hvisit, hafter, hnext⟩
  | none =>
    cases failure with
    | some error => exact ⟨some (.error error), ⟨none, stack, none⟩, s, rfl, nofun, rfl⟩
    | none =>
      obtain ⟨hnone, hrest⟩ | ⟨status, outer, hsome, hrest⟩ := Cursor.nextOf?_cases stack
      · refine ⟨none, ⟨none, [], none⟩, s, ?_, nofun, ?_⟩
        · simp [next, hnone]
        · simp [pending, hrest, Walk.next]
      · obtain ⟨after, t, hvisit, hafter, hnext⟩ := visit_refines backend outer status s
        refine ⟨some (.ok status), after, t, ?_, hafter, ?_⟩
        · simp only [next, hsome, hvisit]
        · simpa [pending, hrest] using hnext

/-- A walker yields what the walk through what is to come yields, by the same calls. -/
theorem collect_refines (backend : Backend σ) {walker : Walker} (hfresh : walker.Fresh)
    (steps : Nat) (s : σ) :
    ((collect backend steps walker s).1, (collect backend steps walker s).2.2) =
      Walk.collect backend steps walker.pending s := by
  induction steps generalizing walker s with
  | zero => rfl
  | succ steps ih =>
    obtain ⟨item, after, t, hnext, hafter, hpending⟩ := next_refines backend hfresh s
    rw [collect, Walk.collect, hnext, hpending]
    cases item with
    | none => rfl
    | some item => simp only [Option.map_some, ← ih hafter t]

end Walker

end PosixAcl
