import PosixAcl.Proofs.Acl.Mode

/-!
# The lists of new files

A new file starts with the entries of its mode, or with the default entries of its
directory. These become access entries, and a new directory also keeps them as they
are. Nothing of this is checked, so it has to preserve well-formed lists by itself.
-/

namespace PosixAcl.Acl

/-- The list of a mode is well formed. -/
theorem wellFormed_ofMode (mode : Nat) : (Acl.ofMode mode).WellFormed where
  ordered := ordered_minimal _ _ _
  unnamed := by simp [ofMode]
  count_le scope := le_trans List.countP_le_length (by simp [ofMode, maxEntries])
  access_base := by simp [Kind.base, ofMode, hasKey, Entry.key]
  default_base hany := by simp [hasDefault, hasScope, ofMode] at hany
  masked := by simp [ofMode, isNamedSubject, Entry.isUnnamed]

/-- The entries that a new file takes over from the default entries of its directory: all of them
as access entries and, if it is a directory, also as they are. -/
def takenOver (inherited : Acl) (directory : Bool) : Acl :=
  inherited.map (·.withScope .access) ++ if directory then inherited else []

variable {inherited : Acl} {directory : Bool}

/-- An entry that is taken over comes from an inherited entry of the same kind and name. -/
theorem mem_takenOver_iff {e : Entry} :
    e ∈ inherited.takenOver directory ↔
      (∃ f ∈ inherited, f.withScope .access = e) ∨ (directory = true ∧ e ∈ inherited) := by
  cases directory <;> simp [takenOver]

/-- The access entries that are taken over are the inherited entries moved to that scope. -/
theorem filter_access_takenOver (hdefault : ∀ e ∈ inherited, e.scope = .default)
    (directory : Bool) :
    (inherited.takenOver directory).filter (·.scope = .access) =
      inherited.map (·.withScope .access) := by
  have hmoved : (inherited.map (·.withScope .access)).filter (·.scope = .access) =
      inherited.map (·.withScope .access) := by
    simp [List.filter_eq_self, Entry.withScope]
  have hkept : (if directory then inherited else []).filter (·.scope = .access) = [] := by
    rw [List.filter_eq_nil_iff]
    intro e he
    split at he
    · simp [hdefault e he]
    · cases he
  rw [takenOver, List.filter_append, hmoved, hkept, List.append_nil]

/-- The default entries that are taken over are the inherited entries, and none for anything but a
directory. -/
theorem filter_default_takenOver (hdefault : ∀ e ∈ inherited, e.scope = .default)
    (directory : Bool) :
    (inherited.takenOver directory).filter (·.scope = .default) =
      if directory then inherited else [] := by
  have hmoved : (inherited.map (·.withScope .access)).filter (·.scope = .default) = [] := by
    simp [List.filter_eq_nil_iff, Entry.withScope]
  have hkept : (if directory then inherited else []).filter (·.scope = .default) =
      if directory then inherited else [] := by
    rw [List.filter_eq_self]
    intro e he
    split at he
    · simp [hdefault e he]
    · cases he
  rw [takenOver, List.filter_append, hmoved, hkept, List.nil_append]

/-- Moving default entries to the access scope keeps their order. -/
private theorem access_order_lt {e f : Entry} (he : e.scope = .default) (hf : f.scope = .default)
    (h : e.key.order < f.key.order) :
    (e.withScope .access).key.order < (f.withScope .access).key.order := by
  simp only [Entry.key, Key.order, he, hf] at h
  simp only [Entry.withScope, Entry.key, Key.order]
  rcases List.cons_lt_cons_iff.mp h with hlt | ⟨-, hlt⟩
  · exact absurd hlt (lt_irrefl _)
  · exact List.cons_lt_cons_iff.mpr (Or.inr ⟨rfl, hlt⟩)

/-- What is taken over from ordered default entries is in order. -/
theorem Ordered.takenOver (h : inherited.Ordered) (hdefault : ∀ e ∈ inherited, e.scope = .default)
    (directory : Bool) : (inherited.takenOver directory).Ordered := by
  refine List.pairwise_append.mpr ⟨List.pairwise_map.mpr ?_, ?_, ?_⟩
  · refine List.Pairwise.imp_of_mem (fun {e f} he hf hlt => ?_) h
    exact access_order_lt (hdefault e he) (hdefault f hf) hlt
  · split
    · exact h
    · exact List.Pairwise.nil
  · intro e he f hf
    obtain ⟨e, -, rfl⟩ := List.mem_map.mp he
    have hscope : f.scope = .default := by
      split at hf
      · exact hdefault f hf
      · cases hf
    simp [Entry.withScope, Entry.key, Key.order, hscope, Scope.rank, List.cons_lt_cons_iff]

/-- Each scope gets at most as many entries as are inherited. -/
theorem count_takenOver_le (hdefault : ∀ e ∈ inherited, e.scope = .default) (directory : Bool)
    (scope : Scope) : (inherited.takenOver directory).count scope ≤ inherited.length := by
  have hmoved : ∀ scope, scope = .default →
      List.countP (fun e : Entry => e.scope = scope) (inherited.map (·.withScope .access)) = 0 := by
    rintro scope rfl
    simp [Entry.withScope]
  have hkept : List.countP (fun e : Entry => e.scope = .access)
      (if directory then inherited else []) = 0 := by
    rw [List.countP_eq_zero]
    intro e he
    split at he
    · simp [hdefault e he]
    · cases he
  unfold count Acl.takenOver
  rw [List.countP_append]
  cases scope with
  | access =>
    rw [hkept, Nat.add_zero]
    simpa using List.countP_le_length (p := fun e : Entry => e.scope = .access)
      (l := inherited.map (·.withScope .access))
  | default =>
    rw [hmoved .default rfl, Nat.zero_add]
    refine le_trans List.countP_le_length ?_
    split <;> simp

/-- What is taken over from the default entries of a well-formed list is well formed. -/
theorem WellFormed.takenOver {parent : Acl} (h : parent.WellFormed)
    (hany : parent.hasDefault = true) (directory : Bool) :
    (Acl.takenOver (parent.filter (·.scope = .default)) directory).WellFormed := by
  have hinherited : ∀ {e : Entry}, e ∈ parent.filter (·.scope = .default) ↔
      e ∈ parent ∧ e.scope = .default := by simp
  have hdefault : ∀ e ∈ parent.filter (·.scope = .default), e.scope = .default :=
    fun e he => (hinherited.mp he).2
  -- Whatever has a key in the default scope of the parent has it in both scopes of the result.
  have haccess : ∀ kind name, parent.hasKey ⟨.default, kind, name⟩ = true →
      hasKey (Acl.takenOver (parent.filter (·.scope = .default)) directory)
        ⟨.access, kind, name⟩ = true := by
    intro kind name hkey
    obtain ⟨e, he, heq⟩ := hasKey_iff.mp hkey
    simp only [Entry.key, Key.mk.injEq] at heq
    refine hasKey_iff.mpr ⟨e.withScope .access, ?_, ?_⟩
    · exact mem_takenOver_iff.mpr (Or.inl ⟨e, hinherited.mpr ⟨he, heq.1⟩, rfl⟩)
    · simp [Entry.withScope, Entry.key, heq.2]
  have hkeep : directory = true → ∀ kind name, parent.hasKey ⟨.default, kind, name⟩ = true →
      hasKey (Acl.takenOver (parent.filter (·.scope = .default)) directory)
        ⟨.default, kind, name⟩ = true := by
    intro hdirectory kind name hkey
    obtain ⟨e, he, heq⟩ := hasKey_iff.mp hkey
    refine hasKey_iff.mpr ⟨e, ?_, heq⟩
    exact mem_takenOver_iff.mpr
      (Or.inr ⟨hdirectory, hinherited.mpr ⟨he, congrArg Key.scope heq⟩⟩)
  refine ⟨(h.ordered.filter _).takenOver hdefault directory, fun e he hkind => ?_, fun scope => ?_,
    fun kind hkind => haccess kind [] (h.default_base hany kind hkind),
    fun hresult kind hkind => ?_, fun e he hnamed => ?_⟩
  · rcases mem_takenOver_iff.mp he with ⟨f, hf, rfl⟩ | ⟨-, hf⟩
    · exact h.unnamed f (hinherited.mp hf).1 hkind
    · exact h.unnamed e (hinherited.mp hf).1 hkind
  · have hlength : (parent.filter (·.scope = .default)).length = parent.count .default :=
      List.countP_eq_length_filter.symm
    refine le_trans (count_takenOver_le hdefault directory scope) ?_
    rw [hlength]
    exact h.count_le .default
  · obtain ⟨e, he, hscope⟩ := hasDefault_iff.mp hresult
    rcases mem_takenOver_iff.mp he with ⟨f, -, rfl⟩ | ⟨hdirectory, -⟩
    · cases hscope
    · exact hkeep hdirectory kind [] (h.default_base hany kind hkind)
  · rcases mem_takenOver_iff.mp he with ⟨f, hf, rfl⟩ | ⟨hdirectory, hf⟩
    · obtain ⟨hmem, hscope⟩ := hinherited.mp hf
      have hmask := h.masked f hmem hnamed
      rw [hscope] at hmask
      exact haccess .mask [] hmask
    · obtain ⟨hmem, hscope⟩ := hinherited.mp hf
      have hmask := h.masked e hmem hnamed
      rw [hscope] at hmask ⊢
      exact hkeep hdirectory .mask [] hmask

end PosixAcl.Acl
