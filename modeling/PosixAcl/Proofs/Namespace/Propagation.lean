import PosixAcl.Proofs.Namespace.Locality

/-!
# Default entries below a directory

A directory hands its default entries down to the files that are made in it. A new
directory keeps them as they are, so it hands the same entries down in turn. As long
as no list at the directory or below it is changed, all files that are made below it,
at any depth, have its default entries, whatever else happens.
-/

namespace PosixAcl

/-- The location is the given one, or below it at any depth. -/
def Location.Within (location top : Location) : Prop :=
  location.absolute = top.absolute ∧ top.names <+: location.names

/-- The location is below the given one at any depth. -/
def Location.Below (location top : Location) : Prop :=
  location.Within top ∧ location ≠ top

theorem Location.Within.refl (location : Location) : location.Within location :=
  ⟨rfl, List.prefix_rfl⟩

/-- What is below a location has its parent there, or below. -/
theorem Location.Below.parent {location top up : Location} (h : location.Below top)
    (hup : location.parent? = some up) : up.Within top := by
  obtain ⟨⟨habsolute, rest, hrest⟩, hne⟩ := h
  have hrest' : rest ≠ [] := by
    rintro rfl
    rw [List.append_nil] at hrest
    refine hne ?_
    calc location = ⟨location.absolute, location.names⟩ := rfl
      _ = top := by rw [habsolute, ← hrest]
  obtain ⟨-, rfl⟩ : location.names ≠ [] ∧
      { location with names := location.names.dropLast } = up := by
    simpa [Location.parent?] using hup
  refine ⟨habsolute, rest.dropLast, ?_⟩
  rw [← hrest, List.dropLast_append_of_ne_nil hrest']

/-- The bit of a mode that makes a file sticky is the tenth one. -/
theorem isSticky_eq_testBit (mode : Nat) : isSticky mode = mode.testBit 9 := by
  rw [Nat.testBit_eq_decide_div_mod_eq, isSticky, stickyBit]
  rfl

namespace Namespace

variable {ns : Namespace} {top location : Location} {node : Node} {defaults : Acl}

/-! ## Where files come from -/

/-- A file stays as it is, unless its list is changed. -/
theorem find?_after_of_some (hnode : ns.find? location = some node) {event : Event}
    (hevent : ∀ path what, event = .change path what → path.location ≠ location) :
    (ns.after event).find? location = some node := by
  rcases ns.after_cases event with hsame | ⟨path, directory, owner, group, mode, -, hok⟩ |
    ⟨user, -, hacts⟩ | ⟨path, what, hchange, hok⟩
  · rw [hsame, hnode]
  · exact find?_create_of_some hok hnode
  · rw [hacts]
    exact hnode
  · rw [find?_change_of_ne hok (hevent path what hchange).symm, hnode]

/-- A file stays as it is during a run in which its list is not changed. -/
theorem find?_afterAll_of_some (hnode : ns.find? location = some node) {events : List Event}
    (hevents : ∀ path what, .change path what ∈ events → path.location ≠ location) :
    (ns.afterAll events).find? location = some node := by
  induction events generalizing ns with
  | nil => exact hnode
  | cons event rest ih =>
    have hfirst : ∀ path what, event = .change path what → path.location ≠ location := by
      rintro path what rfl
      exact hevents path what List.mem_cons_self
    exact ih (find?_after_of_some hnode hfirst) fun path what hmem =>
      hevents path what (List.mem_cons_of_mem _ hmem)

/-- A file that appears with an event was made by it. -/
theorem exists_create_of_after {event : Event} (hfree : ns.find? location = none)
    (hnode : (ns.after event).find? location = some node) :
    ∃ path directory owner group mode, event = .create path directory owner group mode ∧
      ns.create path directory owner group mode = .ok (ns.after event) ∧
        path.location = location := by
  have hnew : (ns.after event).find? location ≠ ns.find? location := by simp [hnode, hfree]
  rcases ns.after_cases event with hsame | ⟨path, directory, owner, group, mode, hcreate, hok⟩ |
    ⟨user, -, hacts⟩ | ⟨path, what, -, hok⟩
  · exact absurd (congrArg (·.find? location) hsame) hnew
  · by_cases hplace : location = path.location
    · exact ⟨path, directory, owner, group, mode, hcreate, hok, hplace.symm⟩
    · exact absurd (find?_create_of_ne hok hplace) hnew
  · exact absurd (congrArg (·.find? location) hacts) hnew
  · -- Only a file that is there can be changed.
    have hplace : location ≠ path.location := by
      rintro rfl
      obtain ⟨_, _, hfound, -⟩ := change_relists hok
      rw [hfree] at hfound
      cases hfound
    exact absurd (find?_change_of_ne hok hplace) hnew

/-- A file that appears in a run was made by one of its events. -/
theorem exists_create_of_afterAll {events : List Event} (hfree : ns.find? location = none)
    (hnode : (ns.afterAll events).find? location = some node) :
    ∃ before path directory owner group mode later made,
      events = before ++ .create path directory owner group mode :: later ∧
        (ns.afterAll before).create path directory owner group mode = .ok made ∧
          path.location = location := by
  induction events generalizing ns with
  | nil =>
    have hsame : ns.find? location = some node := hnode
    rw [hfree] at hsame
    cases hsame
  | cons event rest ih =>
    cases hfirst : (ns.after event).find? location with
    | none =>
      obtain ⟨before, path, directory, owner, group, mode, later, made, rfl, hok, hplace⟩ :=
        ih hfirst hnode
      exact ⟨event :: before, path, directory, owner, group, mode, later, made, rfl, hok, hplace⟩
    | some found =>
      obtain ⟨path, directory, owner, group, mode, rfl, hok, hplace⟩ :=
        exists_create_of_after hfree hfirst
      exact ⟨[], path, directory, owner, group, mode, rest, _, rfl, hok, hplace⟩

/-! ## Handing down -/

/-- A directory has the given default entries, and all files below it have taken them over. -/
structure HandsDown (ns : Namespace) (top : Location) (defaults : Acl) : Prop where
  /-- There are default entries. -/
  ne_nil : defaults ≠ []
  /-- The directory has them. -/
  source : ∃ source, ns.find? top = some source ∧
    source.acl.filter (·.scope = .default) = defaults
  /-- The files below have taken them over. -/
  below : ∀ location node, location.Below top → ns.find? location = some node →
    node.acl = defaults.takenOver node.directory

namespace HandsDown

/-- What is handed down are default entries. -/
theorem scope_eq_default (h : ns.HandsDown top defaults) : ∀ e ∈ defaults, e.scope = .default := by
  obtain ⟨source, -, rfl⟩ := h.source
  simp

/-- All directories within hand down the same entries. -/
theorem filter_default (h : ns.HandsDown top defaults) (hwithin : location.Within top)
    (hnode : ns.find? location = some node) (hdirectory : node.directory = true) :
    node.acl.filter (·.scope = .default) = defaults := by
  by_cases hplace : location = top
  · obtain ⟨source, hsource, hfilter⟩ := h.source
    rw [← hplace, hnode] at hsource
    rwa [Option.some.inj hsource]
  · rw [h.below location node ⟨hwithin, hplace⟩ hnode,
      Acl.filter_default_takenOver h.scope_eq_default, if_pos hdirectory]

/-- A file that is made within takes the default entries over. -/
theorem inheritedAcl_eq (h : ns.HandsDown top defaults) (hns : ns.WellFormed)
    (hwithin : location.Within top) (hnode : ns.find? location = some node)
    (hdirectory : node.directory = true) (isDirectory : Bool) (mode : Nat) :
    inheritedAcl node.acl isDirectory mode = defaults.takenOver isDirectory := by
  have hfilter := h.filter_default hwithin hnode hdirectory
  have hacl := hns.acl _ (Tree.mem_of_get? (find?_eq_some_iff.mp hnode).2)
  have hany : node.acl.hasDefault = true := by
    obtain ⟨e, he⟩ := List.exists_mem_of_ne_nil _ h.ne_nil
    rw [← hfilter] at he
    exact Acl.hasDefault_iff.mpr ⟨e, by simpa using List.mem_filter.mp he⟩
  rw [Namespace.inheritedAcl_eq hacl.ordered, if_pos hany, hfilter]

/-- The default entries are handed down as long as no list at the directory or below is changed. -/
theorem after (h : ns.HandsDown top defaults) (hns : ns.WellFormed) {event : Event}
    (hevent : ∀ path what, event = .change path what → ¬ path.location.Within top) :
    (ns.after event).HandsDown top defaults := by
  have hkept : ∀ {location node}, location.Within top → ns.find? location = some node →
      (ns.after event).find? location = some node := by
    intro location node hwithin hnode
    refine find?_after_of_some hnode fun path what hchange hplace => ?_
    exact hevent path what hchange (hplace ▸ hwithin)
  obtain ⟨source, hsource, hfilter⟩ := h.source
  refine ⟨h.ne_nil, ⟨source, hkept (.refl top) hsource, hfilter⟩, fun location node hbelow hnode => ?_⟩
  cases hold : ns.find? location with
  | some found =>
    rw [hkept hbelow.1 hold] at hnode
    obtain rfl := Option.some.inj hnode
    exact h.below location found hbelow hold
  | none =>
    -- The file is new, and its directory hands the entries down already.
    obtain ⟨path, directory, owner, group, mode, -, hok, rfl⟩ :=
      exists_create_of_after hold hnode
    obtain ⟨up, parent, hup, hparent, hdirectory, hadds⟩ := create_adds_inherited hok
    rw [hadds.find?, if_pos rfl] at hnode
    rw [← Option.some.inj hnode]
    exact h.inheritedAcl_eq hns (hbelow.parent hup) hparent hdirectory _ _

/-- The default entries are handed down during a run in which no list at the directory or below is
changed. -/
theorem afterAll (h : ns.HandsDown top defaults) (hns : ns.WellFormed) {events : List Event}
    (hevents : ∀ path what, .change path what ∈ events → ¬ path.location.Within top) :
    (ns.afterAll events).HandsDown top defaults := by
  induction events generalizing ns with
  | nil => exact h
  | cons event rest ih =>
    have hfirst : ∀ path what, event = .change path what → ¬ path.location.Within top := by
      rintro path what rfl
      exact hevents path what List.mem_cons_self
    exact ih (h.after hns hfirst) (hns.after event) fun path what hmem =>
      hevents path what (List.mem_cons_of_mem _ hmem)

/-- The list of a file below has the default entries as access entries, and as default entries if it
is a directory. They are in the order of their keys. -/
theorem acl_of_below (h : ns.HandsDown top defaults) (hns : ns.WellFormed)
    (hbelow : location.Below top) (hnode : ns.find? location = some node) :
    node.acl.filter (·.scope = .access) = defaults.map (·.withScope .access) ∧
      node.acl.filter (·.scope = .default) = (if node.directory then defaults else []) ∧
      node.acl.Ordered := by
  have hacl := hns.acl _ (Tree.mem_of_get? (find?_eq_some_iff.mp hnode).2)
  refine ⟨?_, ?_, hacl.ordered⟩
  · rw [h.below location node hbelow hnode, Acl.filter_access_takenOver h.scope_eq_default]
  · rw [h.below location node hbelow hnode, Acl.filter_default_takenOver h.scope_eq_default]

end HandsDown

/-- Let a directory of a reached namespace have default entries and nothing below it. However the run
goes on, if it changes no list at the directory or below, then every file that is made below the
directory, at any depth, is as follows at the end. It has the owner and the group that were given,
and the sticky bit of its mode. Its access entries are the default entries of the directory, moved to
the access scope, whatever the other bits of its mode are. Its default entries are those of the
directory, if it is a directory itself, and otherwise there are none. All of them are in the order of
their keys. There are no other files below the directory. -/
theorem defaults_handed_down (hreached : ns.Reachable) {source : Node}
    (hsource : ns.find? top = some source) (hdefault : source.acl.hasDefault = true)
    (hempty : ∀ location, location.Below top → ns.find? location = none) {events : List Event}
    (hevents : ∀ path what, .change path what ∈ events → ¬ path.location.Within top) :
    let defaults := source.acl.filter (·.scope = .default)
    (∀ before path directory owner group mode later made,
      events = before ++ .create path directory owner group mode :: later →
      (ns.afterAll before).create path directory owner group mode = .ok made →
      path.location.Below top →
      ∃ acl, (ns.afterAll events).find? path.location =
          some ⟨directory, owner, group, mode.testBit 9, acl⟩ ∧
        acl.filter (·.scope = .access) = defaults.map (·.withScope .access) ∧
        acl.filter (·.scope = .default) = (if directory then defaults else []) ∧
        acl.Pairwise fun e f => e.key.order < f.key.order) ∧
    ∀ location node, location.Below top → (ns.afterAll events).find? location = some node →
      ∃ before path directory owner group mode later made,
        events = before ++ .create path directory owner group mode :: later ∧
          (ns.afterAll before).create path directory owner group mode = .ok made ∧
            path.location = location := by
  intro defaults
  have hns := hreached.wellFormed
  have hsome : defaults ≠ [] := by
    obtain ⟨e, he, hscope⟩ := Acl.hasDefault_iff.mp hdefault
    exact List.ne_nil_of_mem (List.mem_filter.mpr ⟨he, by simpa using hscope⟩)
  have hstart : ns.HandsDown top defaults := by
    refine ⟨hsome, ⟨source, hsource, rfl⟩, fun location node hbelow hnode => ?_⟩
    rw [hempty location hbelow] at hnode
    cases hnode
  have hend := hstart.afterAll hns hevents
  refine ⟨?_, fun location node hbelow hnode =>
    exists_create_of_afterAll (hempty location hbelow) hnode⟩
  rintro before path directory owner group mode later made rfl hok hbelow
  obtain ⟨acl, hadds⟩ := create_adds hok
  have hmade : made.find? path.location = some ⟨directory, owner, group, isSticky mode, acl⟩ := by
    rw [hadds.find?, if_pos rfl]
  have hsplit : ns.afterAll (before ++ .create path directory owner group mode :: later) =
      made.afterAll later := by
    calc ns.afterAll (before ++ .create path directory owner group mode :: later)
        = ((ns.afterAll before).after (.create path directory owner group mode)).afterAll later := by
          simp only [Namespace.afterAll, List.foldl_append, List.foldl_cons]
      _ = made.afterAll later := by simp only [Namespace.after, hok]
  have hfinal : (made.afterAll later).find? path.location = _ :=
    find?_afterAll_of_some hmade fun path' what hmem hplace =>
      hevents path' what (by simp [hmem]) (hplace ▸ hbelow.1)
  rw [hsplit] at hend ⊢
  have hlist := hend.acl_of_below (hsplit ▸ hns.afterAll _) hbelow hfinal
  rw [← isSticky_eq_testBit]
  exact ⟨acl, hfinal, hlist⟩

/-- The directory `/d` has default entries that name the user `b`. A directory `s` is made in it, with
no permission in its mode, and after a change of the root directory the user `b` makes a file in `s`.
The file has the same entries, though its mode grants everything to everybody. -/
theorem defaults_handed_down_two_levels :
    let d : Path := ⟨[0x2F, 0x64]⟩
    let rights : Permission := ⟨true, true, true⟩
    let ns := initial.afterAll
      [.create d true ['a'] ['a'] 0o750, .change d (.merge [⟨.default, .user, ['b'], rights⟩])]
    let events : List Event :=
      [.create ⟨[0x2F, 0x64, 0x2F, 0x73]⟩ true ['a'] ['a'] 0o1000,
        .change ⟨[0x2F]⟩ (.merge [⟨.access, .user, ['c'], rights⟩]), .actAs ['b'],
        .create ⟨[0x2F, 0x64, 0x2F, 0x73, 0x2F, 0x66]⟩ false ['b'] ['b'] 0o777]
    ∃ acl, (ns.afterAll events).find? ⟨true, [[0x64], [0x73], [0x66]]⟩ =
        some ⟨false, ['b'], ['b'], false, acl⟩ ∧
      acl.filter (·.scope = .access) =
        [⟨.access, .user, [], rights⟩, ⟨.access, .user, ['b'], rights⟩,
          ⟨.access, .group, [], ⟨true, false, true⟩⟩, ⟨.access, .mask, [], rights⟩,
          ⟨.access, .other, [], .empty⟩] ∧
      acl.filter (·.scope = .default) = [] := by
  intro d rights ns events
  let source : Node := ⟨true, ['a'], ['a'], false,
    [⟨.access, .user, [], rights⟩, ⟨.access, .group, [], ⟨true, false, true⟩⟩,
      ⟨.access, .other, [], .empty⟩, ⟨.default, .user, [], rights⟩,
      ⟨.default, .user, ['b'], rights⟩, ⟨.default, .group, [], ⟨true, false, true⟩⟩,
      ⟨.default, .mask, [], rights⟩, ⟨.default, .other, [], .empty⟩]⟩
  have hsource : ns.find? ⟨true, [[0x64]]⟩ = some source := by decide +kernel
  have hnames : ns.nodes.map (·.1) = [[], [[0x64]]] := by decide +kernel
  have hempty : ∀ location : Location, location.Below ⟨true, [[0x64]]⟩ →
      ns.find? location = none := by
    rintro ⟨absolute, names⟩ ⟨⟨rfl, hprefix⟩, hne⟩
    cases hfind : ns.find? ⟨true, names⟩ with
    | none => rfl
    | some node =>
      have hmem : names ∈ ns.nodes.map (·.1) :=
        List.mem_map_of_mem (Tree.mem_of_get? (find?_eq_some_iff.mp hfind).2)
      simp only [hnames, List.mem_cons, List.not_mem_nil, or_false] at hmem
      rcases hmem with rfl | rfl
      · exact absurd hprefix (by decide)
      · exact absurd rfl hne
  have hevents : ∀ path what, .change path what ∈ events →
      ¬ path.location.Within ⟨true, [[0x64]]⟩ := by
    intro path what hmem
    obtain ⟨rfl, -⟩ : path = ⟨[0x2F]⟩ ∧ _ := by simpa [events] using hmem
    rintro ⟨-, hprefix⟩
    exact absurd hprefix (by decide)
  have hok : (ns.afterAll (events.take 3)).create ⟨[0x2F, 0x64, 0x2F, 0x73, 0x2F, 0x66]⟩ false
      ['b'] ['b'] 0o777 = .ok (ns.afterAll events) := by decide +kernel
  obtain ⟨acl, hfind, haccess, hdefault, -⟩ := (defaults_handed_down ⟨_, rfl⟩ hsource (by decide)
    hempty hevents).1 (events.take 3) _ _ _ _ _ [] _ rfl hok ⟨⟨rfl, by decide⟩, by decide⟩
  exact ⟨acl, hfind, haccess, hdefault⟩

end Namespace

end PosixAcl
