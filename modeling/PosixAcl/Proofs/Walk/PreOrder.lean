import PosixAcl.Walk

/-!
# Walks in pre-order

The listings of a store unfold from a file into a tree. As long as they stay as
they are while the walk asks for them and the tree is finite, a walk yields the
files of the tree in pre-order, each followed by the failure to list it if there
is one, and then it ends.
-/

namespace PosixAcl

/-- The listings of a store: the children of each directory, or why it cannot be listed. -/
abbrev Listing := Path → Except StoreError (List FileStatus)

namespace Backend

variable {σ : Type}

/-- The state after some calls. -/
def afterCalls (backend : Backend σ) (calls : List Call) (s : σ) : σ :=
  calls.foldl (fun s call => (backend.perform call s).2) s

/-- From a state on, the listings are the given ones, whatever calls are made. -/
def Steady (backend : Backend σ) (listing : Listing) (s : σ) : Prop :=
  ∀ calls path, (backend.perform (.children path) (backend.afterCalls calls s)).1 = listing path

/-- From a state on, the listings are the given ones, as long as listings only are asked for. -/
def ListsAs (backend : Backend σ) (listing : Listing) (s : σ) : Prop :=
  ∀ (paths : List Path) (path : Path), (backend.perform (.children path)
    (backend.afterCalls (paths.map .children) s)).1 = listing path

variable {backend : Backend σ} {listing : Listing} {s : σ}

theorem afterCalls_append (backend : Backend σ) (calls more : List Call) (s : σ) :
    backend.afterCalls (calls ++ more) s = backend.afterCalls more (backend.afterCalls calls s) :=
  List.foldl_append

/-- Listings that stay as they are whatever is asked for do so if listings are. -/
theorem Steady.listsAs (h : backend.Steady listing s) : backend.ListsAs listing s :=
  fun paths => h (paths.map .children)

/-- A listing is answered as given. -/
theorem ListsAs.perform_children (h : backend.ListsAs listing s) (path : Path) :
    backend.perform (.children path) s =
      (listing path, (backend.perform (.children path) s).2) :=
  Prod.ext (h [] path) rfl

/-- The listings are still the given ones after some of them were asked for. -/
theorem ListsAs.afterCalls (h : backend.ListsAs listing s) (paths : List Path) :
    backend.ListsAs listing (backend.afterCalls (paths.map .children) s) := by
  intro more path
  rw [← afterCalls_append, ← List.map_append]
  exact h (paths ++ more) path

/-- The listings are still the given ones after one of them was asked for. -/
theorem ListsAs.perform (h : backend.ListsAs listing s) (path : Path) :
    backend.ListsAs listing (backend.perform (.children path) s).2 :=
  h.afterCalls [path]

/-- The listings are still the given ones after some calls. -/
theorem Steady.afterCalls (h : backend.Steady listing s) (calls : List Call) :
    backend.Steady listing (backend.afterCalls calls s) := by
  intro more path
  rw [← afterCalls_append]
  exact h (calls ++ more) path

end Backend

namespace Walk

/-- The files that are met from some files on, in pre-order: each file is followed by what is met
from its children on, if it is a directory that can be listed, and then come the other files. -/
inductive PreOrder (listing : Listing) : List FileStatus → List FileStatus → Prop where
  /-- Nothing is met from no files on. -/
  | nil : PreOrder listing [] []
  /-- Nothing is below a file that is not a directory. -/
  | file {status : FileStatus} {rest files : List FileStatus} (hfile : status.directory = false)
      (hrest : PreOrder listing rest files) : PreOrder listing (status :: rest) (status :: files)
  /-- Nothing is met below a directory that cannot be listed. -/
  | unlisted {status : FileStatus} {error : StoreError} {rest files : List FileStatus}
      (hdirectory : status.directory = true) (hlisting : listing status.path = .error error)
      (hrest : PreOrder listing rest files) : PreOrder listing (status :: rest) (status :: files)
  /-- The children of a directory and everything below them come right after it. -/
  | directory {status : FileStatus} {children rest below files : List FileStatus}
      (hdirectory : status.directory = true) (hlisting : listing status.path = .ok children)
      (hbelow : PreOrder listing children below) (hrest : PreOrder listing rest files) :
      PreOrder listing (status :: rest) (status :: (below ++ files))

/-- What a walk yields for a file: the file, and then the failure to list it if there is one. -/
def itemsOf (listing : Listing) (status : FileStatus) : List WalkItem :=
  .ok status ::
    if status.directory then
      match listing status.path with
      | .error error => [.error (.listing error)]
      | .ok _ => []
    else []

/-- The calls that a walk makes for a file. -/
def listCalls (status : FileStatus) : List Call :=
  if status.directory then [.children status.path] else []

/-- The calls that a walk makes for some files are listings. -/
theorem exists_flatMap_listCalls (files : List FileStatus) :
    ∃ paths : List Path, files.flatMap listCalls = paths.map .children := by
  induction files with
  | nil => exact ⟨[], rfl⟩
  | cons status rest ih =>
    obtain ⟨paths, hpaths⟩ := ih
    rw [List.flatMap_cons, hpaths, listCalls]
    split
    · exact ⟨status.path :: paths, rfl⟩
    · exact ⟨paths, rfl⟩

variable {listing : Listing} {roots files : List FileStatus}

/-- A walk yields a file alone, or with the failure to list it. -/
theorem itemsOf_cases (listing : Listing) (status : FileStatus) :
    itemsOf listing status = [.ok status] ∨
      ∃ error, status.directory = true ∧ listing status.path = .error error ∧
        itemsOf listing status = [.ok status, .error (.listing error)] := by
  unfold itemsOf
  split
  · cases listing status.path with
    | error error => exact Or.inr ⟨error, ‹_›, rfl, rfl⟩
    | ok children => exact Or.inl rfl
  · exact Or.inl rfl

/-- A walk yields at most two items for each file. -/
theorem length_items_le (listing : Listing) (files : List FileStatus) :
    (files.flatMap (itemsOf listing)).length ≤ 2 * files.length := by
  induction files with
  | nil => simp
  | cons status rest ih =>
    have hfirst : (itemsOf listing status).length ≤ 2 := by
      rcases itemsOf_cases listing status with hitems | ⟨error, -, -, hitems⟩ <;> simp [hitems]
    simp only [List.flatMap_cons, List.length_append, List.length_cons]
    omega

variable {σ : Type} {backend : Backend σ} {s : σ}

/-! ## Single steps -/

/-- A file that is not a directory is yielded without a call. -/
theorem next_file {status : FileStatus} (hfile : status.directory = false)
    (rest : List WalkItem) (s : σ) :
    next backend (.ok status :: rest) s = (some (.ok status, rest), s) := by
  rw [next, hfile]
  rfl

/-- A directory is yielded after it was listed, and its contents come next. -/
theorem next_directory (h : backend.ListsAs listing s) {status : FileStatus}
    (hdirectory : status.directory = true) (rest : List WalkItem) :
    next backend (.ok status :: rest) s =
      (some (.ok status, contents (listing status.path) ++ rest),
        (backend.perform (.children status.path) s).2) := by
  rw [next, hdirectory, if_pos rfl, h.perform_children]

/-- A walk yields the next item, and goes on in the next state. -/
theorem collect_succ {pending after : List WalkItem} {item : WalkItem} {t : σ}
    (hnext : next backend pending s = (some (item, after), t)) (steps : Nat) :
    collect backend (steps + 1) pending s =
      (item :: (collect backend steps after t).1, (collect backend steps after t).2) := by
  rw [collect, hnext]

/-- A walk with nothing to come is over. -/
theorem collect_nil (backend : Backend σ) (steps : Nat) (s : σ) :
    collect backend steps [] s = ([], s) := by
  cases steps <;> rfl

/-! ## Whole walks -/

/-- A walk deals with what is met from some files on, and then goes on with the rest of what is to
come. -/
theorem collect_append (h : PreOrder listing roots files) (hlists : backend.ListsAs listing s)
    (rest : List WalkItem) (steps : Nat) :
    collect backend ((files.flatMap (itemsOf listing)).length + steps)
        (roots.map .ok ++ rest) s =
      (files.flatMap (itemsOf listing) ++
          (collect backend steps rest (backend.afterCalls (files.flatMap listCalls) s)).1,
        (collect backend steps rest (backend.afterCalls (files.flatMap listCalls) s)).2) := by
  -- The rest is whatever a directory has left to come, so that it can grow on the way down.
  induction h generalizing s rest steps with
  | nil =>
    rw [List.flatMap_nil, List.length_nil, Nat.zero_add]
    rfl
  | @file status more files hfile _ ih =>
    have hitems : itemsOf listing status = [.ok status] := by simp [itemsOf, hfile]
    have hcalls : listCalls status = [] := by simp [listCalls, hfile]
    rw [List.flatMap_cons, List.flatMap_cons, hitems, hcalls, List.singleton_append,
      List.length_cons, Nat.add_right_comm, List.map_cons, List.cons_append,
      collect_succ (next_file hfile _ s), ih hlists rest steps]
    rfl
  | @unlisted status error more files hdirectory hlisting _ ih =>
    have hitems : itemsOf listing status = [.ok status, .error (.listing error)] := by
      simp [itemsOf, hdirectory, hlisting]
    have hcalls : listCalls status = [.children status.path] := by simp [listCalls, hdirectory]
    have hnext := next_directory hlists hdirectory (more.map .ok ++ rest)
    rw [hlisting] at hnext
    have hfailure : next backend (contents (.error error) ++ (more.map .ok ++ rest))
        (backend.perform (.children status.path) s).2 =
          (some (.error (.listing error), more.map .ok ++ rest),
            (backend.perform (.children status.path) s).2) := rfl
    rw [List.flatMap_cons, List.flatMap_cons, hitems, hcalls, Backend.afterCalls_append,
      List.cons_append, List.singleton_append, List.length_cons, List.length_cons,
      Nat.add_right_comm _ 1 steps, Nat.add_right_comm _ 1 steps, List.map_cons, List.cons_append,
      collect_succ hnext, collect_succ hfailure, ih (hlists.perform _) rest steps]
    rfl
  | @directory status children more below files hdirectory hlisting _ _ ihBelow ih =>
    have hitems : itemsOf listing status = [.ok status] := by
      simp [itemsOf, hdirectory, hlisting]
    have hcalls : listCalls status = [.children status.path] := by simp [listCalls, hdirectory]
    have hnext := next_directory hlists hdirectory (more.map .ok ++ rest)
    rw [hlisting] at hnext
    have hlists' := hlists.perform status.path
    obtain ⟨paths, hpaths⟩ := exists_flatMap_listCalls below
    have hbelow := ihBelow hlists' (more.map .ok ++ rest)
      ((files.flatMap (itemsOf listing)).length + steps)
    have hrest := ih (hpaths ▸ hlists'.afterCalls paths) rest steps
    rw [hrest] at hbelow
    rw [List.flatMap_cons, List.flatMap_cons, List.flatMap_append, List.flatMap_append, hitems,
      hcalls, Backend.afterCalls_append, Backend.afterCalls_append, List.singleton_append,
      List.length_cons, List.length_append, Nat.add_right_comm, Nat.add_assoc _ _ steps,
      List.map_cons, List.cons_append, collect_succ hnext, contents, hbelow, List.cons_append,
      List.append_assoc]
    rfl

/-- A walk yields the files that are met, in pre-order and with the failures to list them, and then
it is over: more steps yield nothing more. -/
theorem collect_eq (h : PreOrder listing roots files) (hlists : backend.ListsAs listing s)
    {steps : Nat} (hsteps : (files.flatMap (itemsOf listing)).length ≤ steps) :
    collect backend steps (roots.map .ok) s =
      (files.flatMap (itemsOf listing), backend.afterCalls (files.flatMap listCalls) s) := by
  obtain ⟨more, rfl⟩ := Nat.exists_eq_add_of_le hsteps
  have hall := collect_append h hlists [] more
  rwa [List.append_nil, collect_nil, List.append_nil] at hall

end Walk

end PosixAcl
