import Mathlib.Data.List.DropRight
import PosixAcl.Proofs.Entry.Reader

/-!
# The grammar of specifications

Which texts denote an entry, and what is wrong with a text that denotes none, is
said here by the shape of the text alone. So is what the places between the commas
of a specification hold. Reading accepts just what this grammar describes, and
otherwise reports the first text that denotes no entry.
-/

namespace PosixAcl

/-- There is one field more than there are separators. -/
theorem length_fields {α : Type} [DecidableEq α] (separator : α) (s : List α) :
    (fields separator s).length = s.count separator + 1 := by
  induction s with
  | nil => rfl
  | cons a rest ih =>
    unfold fields
    by_cases ha : a = separator
    · rw [if_pos ha, List.length_cons, ih, ha, List.count_cons_self]
    · rw [if_neg ha, List.count_cons_of_ne ha, ← ih]
      cases hrest : fields separator rest with
      | nil => exact absurd hrest (fields_ne_nil separator rest)
      | cons field others => rfl

/-! ## One entry -/

/-- What comes before the kind of an entry: the word for the default scope with a colon. -/
def Scope.marker : Scope → Text
  | .access => []
  | .default => defaultToken ++ [':']

/-- The fields that come before the kind of an entry. -/
def Scope.tokens : Scope → List Text
  | .access => []
  | .default => [defaultToken]

/-- A text denotes an entry. After the marker of its scope come its kind, in which the case of ASCII
letters does not matter, its name and the symbol of its permission, with colons in between. -/
def Denotes (s : Text) (e : Entry) : Prop :=
  ∃ kind : Text, kind.map Char.toLower = e.kind.name ∧ ':' ∉ e.name ∧
    s = e.scope.marker ++ kind ++ ':' :: e.name ++ ':' :: e.permission.symbol

/-- A text that cannot denote an entry because of its colons. There are two of them, or three if the
text begins with the marker of the default scope. -/
def Malformed (s : Text) : Prop :=
  (s.count ':' ≠ 2 ∧ s.count ':' ≠ 3) ∨ (s.count ':' = 3 ∧ ¬ Scope.default.marker <+: s)

/-- The part of a text where the kind has to stand: what is in front of the first colon, or between
the first two of three colons. -/
def kindField (s : Text) : Text :=
  (if s.count ':' = 3 then s.drop Scope.default.marker.length else s).takeWhile (· ≠ ':')

/-- What is wrong with a text that denotes no entry. The colons come first, then the kind, and then
the permission. -/
def Faulty (s : Text) : SpecFault → Prop
  | .malformed => Malformed s
  | .unknownKind =>
    ¬ Malformed s ∧ ∀ kind : Kind, (kindField s).map Char.toLower ≠ kind.name
  | .unknownPermission =>
    ¬ Malformed s ∧ ∃ kind : Kind, (kindField s).map Char.toLower = kind.name

/-- A text names a kind exactly if it is the name of the kind up to case. -/
theorem Kind.ofName?_eq_some_iff {s : Text} {kind : Kind} :
    Kind.ofName? s = some kind ↔ s.map Char.toLower = kind.name := by
  unfold Kind.ofName?
  generalize s.map Char.toLower = lower
  constructor
  · intro h
    have hname := List.find?_some h
    exact (of_decide_eq_true hname).symm
  · rintro rfl
    cases kind <;> rfl

/-- A text names no kind exactly if it is not the name of one up to case. -/
theorem Kind.ofName?_eq_none_iff {s : Text} :
    Kind.ofName? s = none ↔ ∀ kind : Kind, s.map Char.toLower ≠ kind.name := by
  rw [Option.eq_none_iff_forall_ne_some]
  exact forall_congr' fun kind => not_congr Kind.ofName?_eq_some_iff

/-- A character stands for a right exactly if it is the letter of the right or a dash. -/
theorem Permission.right?_eq_some_iff {letter c : Char} {right : Bool} (h : letter ≠ '-') :
    Permission.right? letter c = some right ↔ c = if right then letter else '-' := by
  unfold Permission.right?
  by_cases hletter : c = letter
  · cases right <;> simp [hletter, h]
  · cases right <;> simp [hletter]

/-- A text is read as a permission exactly if it is its symbol. -/
theorem Permission.ofSymbol?_eq_some_iff {s : Text} {p : Permission} :
    Permission.ofSymbol? s = some p ↔ s = p.symbol := by
  refine ⟨fun h => ?_, fun h => h ▸ Permission.ofSymbol?_symbol p⟩
  unfold Permission.ofSymbol? at h
  split at h
  · split at h
    · rename_i hread hwrite hexecute
      obtain rfl := Option.some.inj h
      rw [(Permission.right?_eq_some_iff (by decide)).mp hread,
        (Permission.right?_eq_some_iff (by decide)).mp hwrite,
        (Permission.right?_eq_some_iff (by decide)).mp hexecute]
      rfl
    · cases h
  · cases h

/-- Fields make up an entry exactly if they are the kind, the name and the symbol of its
permission. -/
theorem Entry.ofFields_eq_ok_iff {scope : Scope} {kind name permission : Text} {e : Entry} :
    Entry.ofFields scope kind name permission = .ok e ↔
      e.scope = scope ∧ kind.map Char.toLower = e.kind.name ∧ e.name = name ∧
        permission = e.permission.symbol := by
  rw [← Kind.ofName?_eq_some_iff, ← Permission.ofSymbol?_eq_some_iff]
  unfold Entry.ofFields
  obtain ⟨escope, ekind, ename, epermission⟩ := e
  cases Kind.ofName? kind with
  | none => simp
  | some found =>
    cases Permission.ofSymbol? permission with
    | none => simp
    | some rights =>
      simp only [Except.ok.injEq, Entry.mk.injEq, Option.some.injEq]
      constructor
      · rintro ⟨rfl, rfl, rfl, rfl⟩
        exact ⟨rfl, rfl, rfl, rfl⟩
      · rintro ⟨rfl, rfl, rfl, rfl⟩
        exact ⟨rfl, rfl, rfl, rfl⟩

/-- Fields that make up no entry have an unknown kind, or else an unknown permission. -/
theorem Entry.ofFields_eq_error {scope : Scope} {kind name permission : Text} {fault : SpecFault}
    (h : Entry.ofFields scope kind name permission = .error fault) :
    (fault = .unknownKind ∧ ∀ known : Kind, kind.map Char.toLower ≠ known.name) ∨
      (fault = .unknownPermission ∧ ∃ known : Kind, kind.map Char.toLower = known.name) := by
  unfold Entry.ofFields at h
  cases hkind : Kind.ofName? kind with
  | none =>
    rw [hkind] at h
    exact Or.inl ⟨(Except.error.inj h).symm, Kind.ofName?_eq_none_iff.mp hkind⟩
  | some known =>
    cases hpermission : Permission.ofSymbol? permission with
    | none =>
      rw [hkind, hpermission] at h
      exact Or.inr ⟨(Except.error.inj h).symm, known, Kind.ofName?_eq_some_iff.mp hkind⟩
    | some rights => simp [hkind, hpermission] at h

/-! ### The shape of a text -/

/-- A text with the fields of an entry is these fields between colons. -/
theorem eq_of_fields {s : Text} {scope : Scope} {kind name permission : Text}
    (h : fields ':' s = scope.tokens ++ [kind, name, permission]) :
    s = scope.marker ++ kind ++ ':' :: name ++ ':' :: permission := by
  rw [← joinFields_fields ':' s, h]
  cases scope <;> simp [Scope.tokens, Scope.marker, joinFields]

/-- Three parts between colons after the marker of a scope are the fields of the text, unless one of
them has a colon. -/
theorem fields_of_parts (scope : Scope) {kind name permission : Text} (hkind : ':' ∉ kind)
    (hname : ':' ∉ name) (hpermission : ':' ∉ permission) :
    fields ':' (scope.marker ++ kind ++ ':' :: name ++ ':' :: permission) =
      scope.tokens ++ [kind, name, permission] := by
  have hrest : fields ':' (kind ++ ':' :: (name ++ ':' :: permission)) =
      [kind, name, permission] := by
    rw [fields_append hkind, fields_append hname, fields_of_not_mem hpermission]
  cases scope with
  | access => simpa [Scope.marker, Scope.tokens] using hrest
  | default =>
    have htoken : ':' ∉ Scope.defaultToken := by decide
    have hwhole := fields_append htoken (kind ++ ':' :: (name ++ ':' :: permission))
    rw [hrest] at hwhole
    simpa [Scope.marker, Scope.tokens] using hwhole

/-- A text that is not malformed has the fields of an entry. -/
theorem exists_fields_of_not_malformed {s : Text} (h : ¬ Malformed s) :
    ∃ (scope : Scope) (kind name permission : Text),
      fields ':' s = scope.tokens ++ [kind, name, permission] := by
  have hlength := length_fields ':' s
  obtain ⟨hcount, hmarker⟩ : (s.count ':' = 2 ∨ s.count ':' = 3) ∧
      (s.count ':' = 3 → Scope.default.marker <+: s) := by
    unfold Malformed at h
    tauto
  rcases hcount with hcount | hcount
  · rw [hcount] at hlength
    obtain ⟨kind, name, permission, hfields⟩ := List.length_eq_three.mp hlength
    exact ⟨.access, kind, name, permission, hfields⟩
  · obtain ⟨rest, hrest⟩ := hmarker hcount
    have htoken : ':' ∉ Scope.defaultToken := by decide
    have hfields : fields ':' s = Scope.defaultToken :: fields ':' rest := by
      rw [← fields_append htoken, ← hrest]
      simp [Scope.marker]
    rw [hfields, List.length_cons, hcount] at hlength
    obtain ⟨kind, name, permission, hothers⟩ := List.length_eq_three.mp (Nat.succ.inj hlength)
    exact ⟨.default, kind, name, permission, by rw [hfields, hothers]; rfl⟩

/-- A text with the fields of an entry is not malformed, and its kind is where it has to be. -/
theorem not_malformed_of_fields {s : Text} {scope : Scope} {kind name permission : Text}
    (h : fields ':' s = scope.tokens ++ [kind, name, permission]) :
    ¬ Malformed s ∧ kindField s = kind := by
  have hcount := length_fields ':' s
  have hkind : ':' ∉ kind := not_mem_of_mem_fields (s := s) (by rw [h]; simp)
  have htake : (kind ++ ':' :: (name ++ ':' :: permission)).takeWhile (· ≠ ':') = kind := by
    rw [List.takeWhile_append_of_pos (by grind)]
    simp
  have hs := eq_of_fields h
  rw [h] at hcount
  cases scope with
  | access =>
    have htwo : s.count ':' = 2 := by simpa [Scope.tokens] using hcount.symm
    refine ⟨by simp [Malformed, htwo], ?_⟩
    rw [kindField, if_neg (by omega), hs]
    simpa [Scope.marker] using htake
  | default =>
    have hthree : s.count ':' = 3 := by simpa [Scope.tokens] using hcount.symm
    have hmarker : s = Scope.default.marker ++ (kind ++ ':' :: (name ++ ':' :: permission)) := by
      simpa using hs
    refine ⟨?_, ?_⟩
    · have hprefix : Scope.default.marker <+: s := ⟨_, hmarker.symm⟩
      simp [Malformed, hthree, hprefix]
    · rw [kindField, if_pos hthree, hmarker, List.drop_left]
      exact htake

/-! ### Reading -/

/-- A text with the fields of an entry is read by its fields. -/
theorem Entry.read_of_fields {s : Text} {scope : Scope} {kind name permission : Text}
    (h : fields ':' s = scope.tokens ++ [kind, name, permission]) :
    Entry.read s =
      (Entry.ofFields scope kind name permission).mapError fun fault => ⟨fault, s⟩ := by
  unfold Entry.read
  cases scope with
  | access =>
    rw [show fields ':' s = [kind, name, permission] from h]
  | default =>
    rw [show fields ':' s = [Scope.defaultToken, kind, name, permission] from h]
    simp

/-- A malformed text is reported as such. -/
theorem Entry.read_of_malformed {s : Text} (h : Malformed s) :
    Entry.read s = .error ⟨.malformed, s⟩ := by
  unfold Entry.read
  split
  · rename_i kind name permission hfields
    have hparts : fields ':' s = Scope.access.tokens ++ [kind, name, permission] := hfields
    exact absurd h (not_malformed_of_fields hparts).1
  · rename_i token kind name permission hfields
    by_cases htoken : token = Scope.defaultToken
    · have hparts : fields ':' s = Scope.default.tokens ++ [kind, name, permission] := by
        rw [hfields, htoken]
        rfl
      exact absurd h (not_malformed_of_fields hparts).1
    · rw [if_neg htoken]
      rfl
  · rfl

/-- A text that denotes an entry has the fields of that entry. -/
theorem Denotes.exists_fields {s : Text} {e : Entry} (h : Denotes s e) :
    ∃ kind : Text, kind.map Char.toLower = e.kind.name ∧
      fields ':' s = e.scope.tokens ++ [kind, e.name, e.permission.symbol] := by
  obtain ⟨kind, hkind, hname, rfl⟩ := h
  have hcolon : ':' ∉ kind := by
    intro hmem
    have hlower := List.mem_map_of_mem (f := Char.toLower) hmem
    rw [hkind] at hlower
    exact e.kind.not_mem_name.1 hlower
  exact ⟨kind, hkind, fields_of_parts e.scope hcolon hname e.permission.not_mem_symbol.1⟩

/-- A text with the fields of an entry denotes what these fields make up. -/
theorem denotes_iff_of_fields {s : Text} {scope : Scope} {kind name permission : Text}
    (h : fields ':' s = scope.tokens ++ [kind, name, permission]) {e : Entry} :
    Denotes s e ↔ Entry.ofFields scope kind name permission = .ok e := by
  rw [Entry.ofFields_eq_ok_iff]
  constructor
  · intro hdenotes
    obtain ⟨written, hwritten, hfields⟩ := hdenotes.exists_fields
    rw [h] at hfields
    obtain ⟨hscope, hparts⟩ : e.scope = scope ∧
        [kind, name, permission] = [written, e.name, e.permission.symbol] := by
      cases hescope : e.scope <;> cases scope <;> simp_all [Scope.tokens]
    simp only [List.cons.injEq, and_true] at hparts
    obtain ⟨rfl, rfl, rfl⟩ := hparts
    exact ⟨hscope, hwritten, rfl, rfl⟩
  · rintro ⟨rfl, hkind, rfl, rfl⟩
    exact ⟨kind, hkind, not_mem_of_mem_fields (s := s) (by rw [h]; simp), eq_of_fields h⟩

/-- A malformed text denotes nothing. -/
theorem not_denotes_of_malformed {s : Text} (h : Malformed s) (e : Entry) : ¬ Denotes s e := by
  intro hdenotes
  obtain ⟨kind, -, hfields⟩ := hdenotes.exists_fields
  exact (not_malformed_of_fields hfields).1 h

/-- A text is read as an entry exactly if it denotes that entry. -/
theorem Entry.read_eq_ok_iff {s : Text} {e : Entry} : Entry.read s = .ok e ↔ Denotes s e := by
  by_cases h : Malformed s
  · rw [Entry.read_of_malformed h]
    exact iff_of_false (by simp) (not_denotes_of_malformed h e)
  · obtain ⟨scope, kind, name, permission, hfields⟩ := exists_fields_of_not_malformed h
    rw [Entry.read_of_fields hfields, denotes_iff_of_fields hfields]
    cases Entry.ofFields scope kind name permission <;> simp [Except.mapError]

/-- At most one thing is wrong with a text. -/
theorem Faulty.unique {s : Text} {fault other : SpecFault} (h : Faulty s fault)
    (hother : Faulty s other) : fault = other := by
  cases fault <;> cases other <;> grind [Faulty]

/-- An entry that cannot be read is reported with what is wrong with it. -/
theorem Entry.faulty_of_read {s : Text} {error : SpecError} (h : Entry.read s = .error error) :
    error.fragment = s ∧ Faulty s error.fault := by
  by_cases hmalformed : Malformed s
  · rw [Entry.read_of_malformed hmalformed] at h
    obtain rfl := Except.error.inj h
    exact ⟨rfl, hmalformed⟩
  · obtain ⟨scope, kind, name, permission, hfields⟩ := exists_fields_of_not_malformed hmalformed
    have hkind := (not_malformed_of_fields hfields).2
    rw [Entry.read_of_fields hfields] at h
    cases hmade : Entry.ofFields scope kind name permission with
    | ok e => simp [hmade, Except.mapError] at h
    | error fault =>
      rw [hmade] at h
      obtain rfl := Except.error.inj h
      refine ⟨rfl, ?_⟩
      rcases Entry.ofFields_eq_error hmade with ⟨rfl, hnone⟩ | ⟨rfl, hsome⟩
      · exact ⟨hmalformed, hkind ▸ hnone⟩
      · exact ⟨hmalformed, hkind ▸ hsome⟩

/-- A text is refused exactly if it denotes no entry. The error names the text and what is wrong
with it. -/
theorem Entry.read_eq_error_iff {s : Text} {error : SpecError} :
    Entry.read s = .error error ↔
      (∀ e, ¬ Denotes s e) ∧ error.fragment = s ∧ Faulty s error.fault := by
  simp only [← Entry.read_eq_ok_iff]
  constructor
  · intro h
    exact ⟨by simp [h], Entry.faulty_of_read h⟩
  · rintro ⟨hnone, hfragment, hfault⟩
    cases hread : Entry.read s with
    | ok e => exact absurd hread (hnone e)
    | error found =>
      obtain ⟨hsame, hfound⟩ := Entry.faulty_of_read hread
      obtain ⟨fault, fragment⟩ := error
      obtain ⟨other, place⟩ := found
      obtain rfl : place = fragment := hsame.trans hfragment.symm
      obtain rfl : other = fault := hfound.unique hfault
      rfl

/-! ## White space -/

/-- A core is what is left of a piece when the white space at its two ends is taken away. -/
def Strips (piece core : Text) : Prop :=
  ∃ before after : Text, piece = before ++ core ++ after ∧ (∀ c ∈ before, isBlank c = true) ∧
    (∀ c ∈ after, isBlank c = true) ∧ (∀ c ∈ core.head?, isBlank c = false) ∧
    (∀ c ∈ core.getLast?, isBlank c = false)

/-- What is left when the white space in front is taken away does not begin with any. -/
private theorem head?_dropWhile_isBlank {s : Text} {c : Char}
    (hc : c ∈ (s.dropWhile isBlank).head?) : isBlank c = false := by
  have hnot := List.head?_dropWhile_not isBlank s
  rw [Option.mem_def.mp hc] at hnot
  exact hnot

/-- Trimming takes the white space away. -/
theorem strips_trim (piece : Text) : Strips piece (trim piece) := by
  have htrim : trim piece = (piece.dropWhile isBlank).rdropWhile isBlank := rfl
  refine ⟨piece.takeWhile isBlank, (piece.dropWhile isBlank).rtakeWhile isBlank, ?_,
    fun c hc => List.mem_takeWhile_imp hc, fun c hc => List.mem_rtakeWhile_imp hc,
    fun c hc => ?_, fun c hc => ?_⟩
  · rw [htrim, List.append_assoc, List.rdropWhile_append_rtakeWhile,
      List.takeWhile_append_dropWhile]
  · obtain ⟨rest, hrest⟩ := List.rdropWhile_prefix isBlank (piece.dropWhile isBlank)
    refine head?_dropWhile_isBlank (s := piece) ?_
    rw [← hrest, ← htrim, List.head?_append, Option.mem_def.mp hc]
    rfl
  · rw [trim, List.getLast?_reverse] at hc
    exact head?_dropWhile_isBlank hc

/-- Only one core is left of a piece. -/
theorem Strips.trim_eq {piece core : Text} (h : Strips piece core) : trim piece = core := by
  obtain ⟨before, after, rfl, hbefore, hafter, hfirst, hlast⟩ := h
  have hfront : (before ++ core ++ after).dropWhile isBlank =
      (core ++ after).dropWhile isBlank := by
    rw [List.append_assoc, List.dropWhile_append_of_pos hbefore]
  rw [trim, hfront]
  cases core with
  | nil =>
    have hnone : after.dropWhile isBlank = [] := List.dropWhile_eq_nil_iff.mpr hafter
    simp [hnone]
  | cons c rest =>
    have hkept : (c :: rest ++ after).dropWhile isBlank = c :: rest ++ after :=
      List.dropWhile_cons_of_neg (by simp [hfirst c rfl])
    have hback : (c :: rest).reverse.dropWhile isBlank = (c :: rest).reverse := by
      cases hreverse : (c :: rest).reverse with
      | nil => simp at hreverse
      | cons d others =>
        have hd : d ∈ (c :: rest).getLast? := by
          rw [← List.head?_reverse, hreverse]
          rfl
        exact List.dropWhile_cons_of_neg (by simp [hlast d hd])
    rw [hkept, List.reverse_append,
      List.dropWhile_append_of_pos fun d hd => hafter d (List.mem_reverse.mp hd), hback,
      List.reverse_reverse]

/-- Trimming a text leaves its core. -/
theorem strips_iff {piece core : Text} : Strips piece core ↔ trim piece = core :=
  ⟨Strips.trim_eq, fun h => h ▸ strips_trim piece⟩

/-- Nothing more is taken away from a core. -/
theorem Strips.self {piece core : Text} (h : Strips piece core) : Strips core core := by
  obtain ⟨-, -, -, -, -, hfirst, hlast⟩ := h
  exact ⟨[], [], by simp, by simp, by simp, hfirst, hlast⟩

/-! ## Specifications -/

/-- The texts that a specification holds: of the pieces between its commas, what is left without the
white space at their ends, if that is anything. -/
def Holds (spec : Text) (found : List Text) : Prop :=
  ∃ pieces cores : List Text, pieces ≠ [] ∧ (∀ piece ∈ pieces, ',' ∉ piece) ∧
    joinFields ',' pieces = spec ∧ List.Forall₂ Strips pieces cores ∧
    found = cores.filter (· ≠ [])

/-- A specification holds its segments. -/
theorem holds_iff {spec : Text} {found : List Text} : Holds spec found ↔ found = segments spec := by
  have hcores : ∀ {pieces cores : List Text},
      List.Forall₂ Strips pieces cores ↔ pieces.map trim = cores := by
    intro pieces cores
    rw [show Strips = fun piece core => trim piece = core from
      funext fun _ => funext fun _ => propext strips_iff, ← List.forall₂_map_left_iff,
      List.forall₂_eq_eq_eq]
  have hfilter : ∀ cores : List Text, cores.filter (· ≠ []) = cores.filter (!·.isEmpty) :=
    fun cores => List.filter_congr fun core _ => by cases core <;> rfl
  constructor
  · rintro ⟨pieces, cores, hne, hcomma, rfl, hstrips, rfl⟩
    rw [segments, fields_joinFields hne hcomma, hcores.mp hstrips, hfilter]
  · rintro rfl
    exact ⟨fields ',' spec, (fields ',' spec).map trim, fields_ne_nil ',' spec,
      fun piece hpiece => not_mem_of_mem_fields hpiece, joinFields_fields ',' spec, hcores.mpr rfl,
      (hfilter _).symm⟩

/-- A list of actions fails with the first one that does. -/
theorem mapM_eq_error_iff {α β ε : Type} {f : α → Except ε β} {inputs : List α} {error : ε} :
    inputs.mapM f = .error error ↔
      ∃ before bad after, inputs = before ++ bad :: after ∧ (∀ a ∈ before, ∃ b, f a = .ok b) ∧
        f bad = .error error := by
  induction inputs with
  | nil => simp [pure, Except.pure]
  | cons a rest ih =>
    rw [List.mapM_cons]
    cases hfirst : f a with
    | error other =>
      simp only [bind, Except.bind, Except.error.injEq]
      constructor
      · rintro rfl
        exact ⟨[], a, rest, rfl, by simp, hfirst⟩
      · rintro ⟨before, bad, after, hsplit, hbefore, hbad⟩
        cases before with
        | nil =>
          obtain ⟨rfl, -⟩ := List.cons.inj hsplit
          exact Except.error.inj (hfirst.symm.trans hbad)
        | cons first others =>
          obtain ⟨rfl, -⟩ := List.cons.inj hsplit
          obtain ⟨b, hb⟩ := hbefore a List.mem_cons_self
          rw [hfirst] at hb
          cases hb
    | ok b =>
      have hrest : (Except.ok b >>= fun b => rest.mapM f >>= fun bs => pure (b :: bs)) =
          .error error ↔ rest.mapM f = .error error := by
        cases rest.mapM f <;> simp [bind, Except.bind, pure, Except.pure]
      rw [hrest, ih]
      constructor
      · rintro ⟨before, bad, after, rfl, hbefore, hbad⟩
        refine ⟨a :: before, bad, after, rfl, fun other hother => ?_, hbad⟩
        rcases List.mem_cons.mp hother with rfl | hother
        · exact ⟨b, hfirst⟩
        · exact hbefore other hother
      · rintro ⟨before, bad, after, hsplit, hbefore, hbad⟩
        cases before with
        | nil =>
          obtain ⟨rfl, -⟩ := List.cons.inj hsplit
          rw [hfirst] at hbad
          cases hbad
        | cons first others =>
          obtain ⟨rfl, rfl⟩ := List.cons.inj hsplit
          exact ⟨others, bad, after, rfl,
            fun other hother => hbefore other (List.mem_cons_of_mem _ hother), hbad⟩

/-- A specification is read as the entries that its segments denote, in this order, if it has any
segments. -/
theorem readSpec_eq_ok_iff {spec : Text} {entries : List Entry} :
    readSpec spec = .ok entries ↔
      segments spec ≠ [] ∧ List.Forall₂ Denotes (segments spec) entries := by
  rw [show Denotes = fun s e => Entry.read s = .ok e from
    funext fun _ => funext fun _ => propext Entry.read_eq_ok_iff.symm, ← mapM_eq_ok_iff]
  unfold readSpec
  cases segments spec <;> simp

/-- A specification is refused as a whole if it has no segments, and otherwise because of the first
segment that denotes no entry. -/
theorem readSpec_eq_error_iff {spec : Text} {error : SpecError} :
    readSpec spec = .error error ↔
      (segments spec = [] ∧ error = ⟨.malformed, spec⟩) ∨
        ∃ before bad after, segments spec = before ++ bad :: after ∧
          (∀ s ∈ before, ∃ e, Denotes s e) ∧ (∀ e, ¬ Denotes bad e) ∧ error.fragment = bad ∧
          Faulty bad error.fault := by
  have hsegments : (segments spec).mapM Entry.read = .error error ↔
      ∃ before bad after, segments spec = before ++ bad :: after ∧
        (∀ s ∈ before, ∃ e, Denotes s e) ∧ (∀ e, ¬ Denotes bad e) ∧ error.fragment = bad ∧
        Faulty bad error.fault := by
    simp only [mapM_eq_error_iff, Entry.read_eq_ok_iff, Entry.read_eq_error_iff]
  rw [← hsegments]
  unfold readSpec
  cases segments spec with
  | nil => simp [eq_comm, pure, Except.pure]
  | cons first rest => simp

/-- The grammar of specifications. A specification holds certain texts, and no others. It can be
read exactly if it holds any and all of them denote entries, and gives these entries in their order.
Otherwise the error is that of the first text that denotes none, or of the whole specification if it
holds no text. -/
theorem readSpec_iff_grammar (spec : Text) :
    (∃! found, Holds spec found) ∧ ∀ found, Holds spec found →
      (∀ entries, readSpec spec = .ok entries ↔
        found ≠ [] ∧ List.Forall₂ Denotes found entries) ∧
      ∀ error, readSpec spec = .error error ↔
        (found = [] ∧ error = ⟨.malformed, spec⟩) ∨
          ∃ before bad after, found = before ++ bad :: after ∧ (∀ s ∈ before, ∃ e, Denotes s e) ∧
            (∀ e, ¬ Denotes bad e) ∧ error.fragment = bad ∧ Faulty bad error.fault := by
  refine ⟨⟨segments spec, holds_iff.mpr rfl, fun found => holds_iff.mp⟩, ?_⟩
  rintro found hholds
  obtain rfl := holds_iff.mp hholds
  exact ⟨fun entries => readSpec_eq_ok_iff, fun error => readSpec_eq_error_iff⟩

/-- The first text denotes an entry. The second one has the colons of an access entry but not the
name of a kind in front, so it is reported, and the third one is not looked at. -/
theorem readSpec_iff_grammar_unknown_kind :
    let first : Text := ['O', 'T', 'H', 'E', 'R', ':', ':', 'r', '-', '-']
    let bad : Text :=
      ['d', 'e', 'f', 'a', 'u', 'l', 't', ':', 'u', 's', 'e', 'r', ':', 'r', 'w', 'x']
    let spec : Text := ' ' :: first ++ [',', ' ', ','] ++ bad ++ [',', 'x']
    Holds spec [first, bad, ['x']] ∧ readSpec spec = .error ⟨.unknownKind, bad⟩ := by
  intro first bad spec
  have hholds : Holds spec [first, bad, ['x']] := holds_iff.mpr (by decide +kernel)
  have hfirst : Denotes first ⟨.access, .other, [], ⟨true, false, false⟩⟩ :=
    ⟨['O', 'T', 'H', 'E', 'R'], by decide, by decide, rfl⟩
  have hread : Entry.read bad = .error ⟨.unknownKind, bad⟩ := by decide
  obtain ⟨hnone, -, hfault⟩ := Entry.read_eq_error_iff.mp hread
  refine ⟨hholds, (((readSpec_iff_grammar spec).2 _ hholds).2 _).mpr (Or.inr ?_)⟩
  exact ⟨[first], bad, [['x']], rfl, fun s hs => ⟨_, List.mem_singleton.mp hs ▸ hfirst⟩, hnone, rfl,
    hfault⟩

end PosixAcl
