import Mathlib.Data.List.Induction
import PosixAcl.Proofs.Host.Locate

/-!
# Paths that lead on from a file

The path of a file in a directory goes on where the path of the directory ends. So
if a path leads to a directory, through whatever links, then the paths made from it
lead to the files below, under the names that were added.
-/

namespace PosixAcl

namespace Name

/-- What a file in a directory can be called. -/
structure IsFileName (name : Name) : Prop where
  /-- There is a name. -/
  ne_nil : name ≠ []
  /-- It does not stand for the directory itself. -/
  ne_dot : name ≠ dot
  /-- It does not stand for the parent. -/
  ne_dotDot : name ≠ dotDot
  /-- It is one component of a path. -/
  slash_not_mem : slash ∉ name
  /-- It can occur in a path. -/
  zero_not_mem : 0 ∉ name
  /-- It is not too long. -/
  length_le : name.length ≤ Host.maxNameLength

end Name

namespace Path

/-- The names along a path, without regard to a slash at its end. -/
def plainComponents (p : Path) : List Name :=
  (fields slash p.bytes).filter (!·.isEmpty)

/-- The path of a file below a directory, made from that of the directory name by name. -/
def descendant (p : Path) (names : List Name) : Path :=
  names.foldl child p

variable {p : Path} {name : Name}

theorem descendant_concat (p : Path) (names : List Name) (name : Name) :
    p.descendant (names ++ [name]) = (p.descendant names).child name :=
  List.foldl_append

/-- A slash at the end demands a directory. -/
theorem components_eq (p : Path) :
    p.components = p.plainComponents ∨ p.components = p.plainComponents ++ [dot] := by
  unfold components plainComponents
  split
  · exact Or.inr rfl
  · exact Or.inl (List.append_nil _)

/-- The path of a file in a directory begins with the path of the directory, and a slash is in
between unless there is one already. -/
theorem child_eq (hp : p.bytes ≠ []) (name : Name) :
    (∃ before, p.bytes = before ++ [slash] ∧ (p.child name).bytes = before ++ slash :: name) ∨
      (p.bytes.getLast? ≠ some slash ∧ (p.child name).bytes = p.bytes ++ slash :: name) := by
  obtain ⟨before, last, hbytes⟩ := List.eq_nil_or_concat' p.bytes |>.resolve_left hp
  have hlast : p.bytes.getLast? = some last := by rw [hbytes, List.getLast?_concat]
  rw [child, hlast]
  by_cases hslash : last = slash
  · subst hslash
    refine Or.inl ⟨before, hbytes, ?_⟩
    simp [hbytes]
  · refine Or.inr ⟨fun h => hslash (Option.some.inj h), ?_⟩
    simp [hslash]

/-- The names along the path of a file in a directory are those of the directory and one more. -/
theorem components_child (hp : p.bytes ≠ []) (hname : name.IsFileName) :
    (p.child name).components = p.plainComponents ++ [name] := by
  have hkept : [name].filter (!·.isEmpty) = [name] := by simp [hname.ne_nil]
  have hfields : fields slash name = [name] := fields_of_not_mem hname.slash_not_mem
  have hlast : ∀ before : Bytes, (before ++ slash :: name).getLast? ≠ some slash := by
    intro before h
    rw [List.getLast?_append_of_ne_nil _ (List.cons_ne_nil _ _), List.getLast?_cons_of_ne_nil
      hname.ne_nil] at h
    exact hname.slash_not_mem (List.mem_of_getLast? h)
  rcases child_eq hp name with ⟨before, hbytes, hchild⟩ | ⟨-, hchild⟩
  · rw [components, hchild, if_neg (hlast before), fields_append_separator, hfields,
      List.filter_append, hkept, List.append_nil, plainComponents, hbytes, fields_append_separator,
      List.filter_append]
    simp [fields]
  · rw [components, hchild, if_neg (hlast p.bytes), fields_append_separator, hfields,
      List.filter_append, hkept, List.append_nil, plainComponents]

/-- A path that goes on begins where it began before. -/
theorem isAbsolute_child (hp : p.bytes ≠ []) (name : Name) :
    (p.child name).isAbsolute = p.isAbsolute := by
  obtain ⟨first, rest, hfirst⟩ := List.exists_cons_of_ne_nil hp
  rcases child_eq hp name with ⟨before, hbytes, hchild⟩ | ⟨-, hchild⟩
  · have hmore : (p.child name).bytes = p.bytes ++ name := by simp [hchild, hbytes]
    simp [isAbsolute, hmore, hfirst]
  · simp [isAbsolute, hchild, hfirst]

/-- A path that goes on is longer. -/
theorem length_lt_child (hp : p.bytes ≠ []) (hname : name.IsFileName) :
    p.bytes.length < (p.child name).bytes.length := by
  have hlength := List.length_pos_iff.mpr hname.ne_nil
  rcases child_eq hp name with ⟨before, hbytes, hchild⟩ | ⟨-, hchild⟩
  · simp only [hchild, hbytes, List.length_append, List.length_cons, List.length_nil]
    omega
  · simp only [hchild, List.length_append, List.length_cons]
    omega

/-- A path that goes on has no zero byte if it had none before. -/
theorem zero_not_mem_child (hp : p.bytes ≠ []) (hzero : 0 ∉ p.bytes) (hname : name.IsFileName) :
    0 ∉ (p.child name).bytes := by
  have hslash : (0 : UInt8) ≠ slash := by decide
  rcases child_eq hp name with ⟨before, hbytes, hchild⟩ | ⟨-, hchild⟩
  · rw [hbytes] at hzero
    simp_all [hname.zero_not_mem]
  · simp [hchild, hzero, hslash, hname.zero_not_mem]

end Path

namespace Host

variable {host : Host}

/-! ## Going on from a file -/

/-- What follows on links, by the directory that holds a link, its target and the names that are
left. -/
abbrev OnLink := List Name → Path → List Name → Except SystemError (List Name)

/-- A link in a directory is left to what follows on links, unless the names end there and it is not
to be followed. -/
theorem descend_link {current rest : List Name} {name : Name} {target : Path}
    (hcurrent : host.kindAt current = some .directory) (hdot : name ≠ dot)
    (hdotDot : name ≠ dotDot) (hlength : ¬ maxNameLength < name.length)
    (hlink : host.kindAt (current ++ [name]) = some (.link target)) (followLast : Bool)
    (onLink : OnLink) :
    host.descend followLast onLink current (name :: rest) =
      if rest.isEmpty && !followLast then .ok (current ++ [name])
      else onLink current target rest := by
  rw [descend, hcurrent]
  simp only [if_neg hdot, if_neg hdotDot, if_neg hlength, hlink]

/-- From a file in a directory that is no link, the way goes on. -/
theorem descend_plain {current rest : List Name} {name : Name} {kind : FileKind}
    (hcurrent : host.kindAt current = some .directory) (hdot : name ≠ dot)
    (hdotDot : name ≠ dotDot) (hlength : ¬ maxNameLength < name.length)
    (hkind : host.kindAt (current ++ [name]) = some kind) (hplain : ∀ target, kind ≠ .link target)
    (followLast : Bool) (onLink : OnLink) :
    host.descend followLast onLink current (name :: rest) =
      host.descend followLast onLink (current ++ [name]) rest := by
  cases kind with
  | link target => exact absurd rfl (hplain target)
  | directory | regular =>
    rw [descend, hcurrent]
    simp only [if_neg hdot, if_neg hdotDot, if_neg hlength, hkind]

/-- Going along some names and then along more is going on from a file, or if a link comes first, it
is left to what follows on links. If the names have a tail, this is only said for more names that
are there. -/
def GoesOn (host : Host) (onLink : OnLink) (tail current names found : List Name) : Prop :=
  (∀ followLast onLink' more, tail = [] ∨ more ≠ [] →
    host.descend followLast onLink' current (names ++ more) =
      host.descend followLast onLink' found more) ∨
  ∃ directory target rest, onLink directory target (rest ++ tail) = .ok found ∧
    ∀ followLast onLink' more, tail = [] ∨ more ≠ [] →
      host.descend followLast onLink' current (names ++ more) =
        onLink' directory target (rest ++ more)

/-- If a name leads to where the others go on, all of them do. -/
theorem GoesOn.cons {onLink : OnLink} {tail current next names found : List Name} {name : Name}
    (h : host.GoesOn onLink tail next names found)
    (hstep : ∀ followLast onLink' more, tail = [] ∨ more ≠ [] →
      host.descend followLast onLink' current (name :: names ++ more) =
        host.descend followLast onLink' next (names ++ more)) :
    host.GoesOn onLink tail current (name :: names) found := by
  rcases h with hplain | ⟨directory, target, rest, hlink, hrest⟩
  · exact Or.inl fun followLast onLink' more hmore =>
      (hstep followLast onLink' more hmore).trans (hplain followLast onLink' more hmore)
  · exact Or.inr ⟨directory, target, rest, hlink, fun followLast onLink' more hmore =>
      (hstep followLast onLink' more hmore).trans (hrest followLast onLink' more hmore)⟩

/-- Going along names that lead to a file other than a link, and then along more names, is going on
from the file. It does not matter whether the first names demand a directory in the end. -/
theorem goesOn_of_descend {onLink : OnLink} {current names tail found : List Name}
    (h : host.descend false onLink current (names ++ tail) = .ok found)
    (htail : tail = [] ∧ (∀ target, host.kindAt found ≠ some (.link target)) ∨ tail = [dot]) :
    host.GoesOn onLink tail current names found := by
  induction names generalizing current with
  | nil =>
    have hfound : current = found := by
      rcases htail with ⟨rfl, -⟩ | rfl
      · exact Except.ok.inj h
      · simp only [List.nil_append, descend, if_true] at h
        split at h
        · exact Except.ok.inj h
        · cases h
    subst hfound
    exact Or.inl fun _ _ _ _ => rfl
  | cons name rest ih =>
    rw [List.cons_append, descend] at h
    split at h
    · rename_i hkind
      by_cases hdot : name = dot
      · rw [if_pos hdot] at h
        refine (ih h).cons fun followLast onLink' more _ => ?_
        rw [List.cons_append, descend, hkind]
        simp only [if_pos hdot]
      · rw [if_neg hdot] at h
        by_cases hdotDot : name = dotDot
        · rw [if_pos hdotDot] at h
          refine (ih h).cons fun followLast onLink' more _ => ?_
          rw [List.cons_append, descend, hkind]
          simp only [if_neg hdot, if_pos hdotDot]
        · rw [if_neg hdotDot] at h
          by_cases hlength : maxNameLength < name.length
          · rw [if_pos hlength] at h
            cases h
          · rw [if_neg hlength] at h
            simp only at h
            cases hnext : host.kindAt (current ++ [name]) with
            | none => rw [hnext] at h; cases h
            | some kind =>
              cases kind with
              | link target =>
                rw [hnext] at h
                simp only at h
                by_cases hlast : (rest ++ tail).isEmpty = true
                · -- A link in the last place is what the path leads to.
                  rw [hlast] at h
                  obtain rfl := Except.ok.inj h
                  rcases htail with ⟨-, hnever⟩ | rfl
                  · exact absurd hnext (hnever target)
                  · simp at hlast
                · rw [Bool.not_eq_true] at hlast
                  rw [hlast] at h
                  refine Or.inr ⟨current, target, rest, h, fun followLast onLink' more hmore => ?_⟩
                  have hleft : (rest ++ more).isEmpty = false := by
                    rcases hmore with rfl | hmore
                    · simp_all
                    · simp [hmore]
                  rw [List.cons_append, descend_link hkind hdot hdotDot hlength hnext, hleft]
                  rfl
              | directory | regular =>
                rw [hnext] at h
                exact (ih h).cons fun followLast onLink' more _ =>
                  descend_plain hkind hdot hdotDot hlength hnext (by simp) followLast onLink'
    · cases h

/-- Following a path that leads to a file other than a link, and then more names, is going on from
the file with some of the links left. -/
theorem resolve_append {links : Nat} {current names tail found : List Name}
    (h : host.resolve false links current (names ++ tail) = .ok found)
    (htail : tail = [] ∧ (∀ target, host.kindAt found ≠ some (.link target)) ∨ tail = [dot]) :
    ∃ left, ∀ followLast more, tail = [] ∨ more ≠ [] →
      host.resolve followLast links current (names ++ more) =
        host.resolve followLast left found more := by
  induction links generalizing current names with
  | zero =>
    rcases goesOn_of_descend h htail with hplain | ⟨_, _, _, hlink, -⟩
    · exact ⟨0, fun followLast more hmore => hplain followLast _ more hmore⟩
    · cases hlink
  | succ links ih =>
    rcases goesOn_of_descend h htail with hplain | ⟨directory, target, rest, hlink, hrest⟩
    · exact ⟨links + 1, fun followLast more hmore => hplain followLast _ more hmore⟩
    · simp only [← List.append_assoc] at hlink
      obtain ⟨left, hleft⟩ := ih hlink
      refine ⟨left, fun followLast more hmore => ?_⟩
      rw [resolve, hrest followLast _ more hmore]
      simp only [← List.append_assoc]
      exact hleft followLast more hmore

/-- A file other than a link is found in the same place if links are followed. -/
theorem resolve_follow {links : Nat} {current names found : List Name}
    (h : host.resolve false links current names = .ok found)
    (hkind : ∀ target, host.kindAt found ≠ some (.link target)) (followLast : Bool) :
    host.resolve followLast links current names = .ok found := by
  rw [← List.append_nil names] at h ⊢
  obtain ⟨left, hleft⟩ := resolve_append h (Or.inl ⟨rfl, hkind⟩)
  rw [hleft followLast [] (Or.inl rfl)]
  cases left <;> rfl

/-- A file in a directory is found where the directory is, under its name. -/
theorem resolve_concat {links : Nat} {current names tail found : List Name} {name : Name}
    (h : host.resolve false links current (names ++ tail) = .ok found)
    (htail : tail = [] ∨ tail = [dot]) (hdirectory : host.kindAt found = some .directory)
    (hname : name.IsFileName) {kind : FileKind}
    (hkind : host.kindAt (found ++ [name]) = some kind) :
    host.resolve false links current (names ++ [name]) = .ok (found ++ [name]) := by
  have hnever : ∀ target, host.kindAt found ≠ some (.link target) := by
    intro target hlink
    rw [hdirectory] at hlink
    cases hlink
  obtain ⟨left, hleft⟩ := resolve_append h (htail.imp_left fun hnil => ⟨hnil, hnever⟩)
  have hstep : ∀ onLink, host.descend false onLink found [name] = .ok (found ++ [name]) := by
    intro onLink
    have hlength := Nat.not_lt_of_le hname.length_le
    cases kind with
    | link target =>
      rw [descend_link hdirectory hname.ne_dot hname.ne_dotDot hlength hkind]
      rfl
    | directory | regular =>
      rw [descend_plain hdirectory hname.ne_dot hname.ne_dotDot hlength hkind (by simp)]
      rfl
  rw [hleft false [name] (Or.inr (List.cons_ne_nil _ _))]
  cases left <;> exact hstep _

/-- A file other than a link is located in the same way if links are followed. -/
theorem locate_follow {path : Path} {names : List Name} {inode : Inode}
    (h : host.locate false path = .ok (names, inode)) (hkind : ∀ target, inode.kind ≠ .link target)
    (followLast : Bool) : host.locate followLast path = .ok (names, inode) := by
  obtain ⟨hzero, hempty, hlength, hresolve, hinode⟩ := locate_eq_ok_iff.mp h
  refine locate_eq_ok_iff.mpr ⟨hzero, hempty, hlength, resolve_follow hresolve ?_ _, hinode⟩
  intro target hlink
  rw [kindAt, hinode] at hlink
  exact hkind target (Option.some.inj hlink)

/-- A file in a directory is located by the path that is made from that of the directory, as long as
it is not too long. -/
theorem locate_child {path : Path} {names : List Name} {directory inode : Inode} {name : Name}
    (h : host.locate false path = .ok (names, directory))
    (hdirectory : directory.kind = .directory) (hname : name.IsFileName)
    (hinode : host.inodes.get? (names ++ [name]) = some inode)
    (hlength : (path.child name).bytes.length < pathLimit) :
    host.locate false (path.child name) = .ok (names ++ [name], inode) := by
  obtain ⟨hzero, hempty, -, hresolve, hfound⟩ := locate_eq_ok_iff.mp h
  have hbytes : path.bytes ≠ [] := by simpa using hempty
  have hzero' : 0 ∉ path.bytes := by simpa using hzero
  have hresolved : host.resolve false maxLinks
      (if path.isAbsolute then [] else host.workingDirectory)
      (path.plainComponents ++ [name]) = .ok (names ++ [name]) := by
    have hkindOf : host.kindAt names = some .directory := by simp [kindAt, hfound, hdirectory]
    have hkind : host.kindAt (names ++ [name]) = some inode.kind := by simp [kindAt, hinode]
    rcases path.components_eq with hplain | hdot
    · rw [hplain, ← List.append_nil path.plainComponents] at hresolve
      exact resolve_concat hresolve (Or.inl rfl) hkindOf hname hkind
    · rw [hdot] at hresolve
      exact resolve_concat hresolve (Or.inr rfl) hkindOf hname hkind
  refine locate_eq_ok_iff.mpr ⟨?_, ?_, hlength, ?_, hinode⟩
  · simpa using Path.zero_not_mem_child hbytes hzero' hname
  · have hlonger := Path.length_lt_child hbytes hname
    rw [List.isEmpty_eq_false_iff]
    exact List.ne_nil_of_length_pos (Nat.zero_lt_of_lt hlonger)
  · rw [Path.isAbsolute_child hbytes, Path.components_child hbytes hname]
    exact hresolved

end Host

end PosixAcl
