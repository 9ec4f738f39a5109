import PosixAcl.Store.Backend

/-!
# Walking through a tree

A walk visits a file and everything below it, each directory before its contents. It works on a
list of what is still to come. A directory is listed when its turn comes, and its children are put
in front of the list. If the listing fails, the failure is put there instead, so that it follows
the directory and the walk goes on.
-/

namespace PosixAcl

/-- A failure of a walk. -/
inductive WalkError where
  /-- The file at which the walk begins cannot be inspected. -/
  | root (error : StoreError)
  /-- A directory cannot be listed. -/
  | listing (error : StoreError)
deriving DecidableEq, Repr

namespace WalkError

/-- The failure of the store behind it. -/
def storeError : WalkError → StoreError
  | .root error | .listing error => error

/-- The text that reports the failure. -/
def message : WalkError → Text
  | .root error => error.message
  | .listing error => "cannot list directory ".toList ++ error.message

end WalkError

/-- What a walk yields: a file, or the failure to list the directory before it. -/
abbrev WalkItem := Except WalkError FileStatus

namespace Walk

variable {σ : Type}

/-- Begins a walk: what is to come is the file itself. -/
def start (backend : Backend σ) (root : Path) (s : σ) : Except WalkError (List WalkItem) × σ :=
  match backend.perform (.fileStatus root) s with
  | (.error error, s) => (.error (.root error), s)
  | (.ok status, s) => (.ok [.ok status], s)

/-- What a directory is replaced by in the list of what is to come. -/
def contents : Except StoreError (List FileStatus) → List WalkItem
  | .error error => [.error (.listing error)]
  | .ok children => children.map .ok

/-- The next item of a walk, and what is to come after it. -/
def next (backend : Backend σ) : List WalkItem → σ → Option (WalkItem × List WalkItem) × σ
  | [], s => (none, s)
  | .error error :: rest, s => (some (.error error, rest), s)
  | .ok status :: rest, s =>
    if status.directory then
      let (listing, s) := backend.perform (.children status.path) s
      (some (.ok status, contents listing ++ rest), s)
    else (some (.ok status, rest), s)

/-- The items of a walk, as many as a number of steps yields. -/
def collect (backend : Backend σ) : Nat → List WalkItem → σ → List WalkItem × σ
  | 0, _, s => ([], s)
  | steps + 1, pending, s =>
    match next backend pending s with
    | (none, s) => ([], s)
    | (some (item, pending), s) =>
      let (items, s) := collect backend steps pending s
      (item :: items, s)

/-- All items of the walk from a path. -/
def items (backend : Backend σ) (root : Path) (s : σ) : Except WalkError (List WalkItem) × σ :=
  match start backend root s with
  | (.error error, s) => (.error error, s)
  | (.ok pending, s) =>
    let (found, s) := collect backend (backend.walkBound s) pending s
    (.ok found, s)

end Walk

end PosixAcl
