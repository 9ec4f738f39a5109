import PosixAcl.Proofs.Text.Escapes
import PosixAcl.Tool.Error

/-!
# Failures, their codes and their texts

A store takes over a failure of the system without losing anything. The exit code of
a failure depends on whether the file exists and on whether there is a further
failure behind it. The numbers of the codes differ, and a process can return each of
them as it is. A wrong command line is reported on one line and without escape
sequences, whatever was written on it.
-/

namespace PosixAcl

/-! ## Failures of the system -/

namespace StoreError

variable {path other : Path} {error failure : SystemError}

/-- Both the path and the failure of the system can be told from what the store makes of them. -/
theorem ofSystem_inj :
    ofSystem path error = ofSystem other failure ↔ path = other ∧ error = failure := by
  refine ⟨fun h => ?_, by rintro ⟨rfl, rfl⟩; rfl⟩
  cases error <;> cases failure <;> simp_all [ofSystem]

/-- A failure of the system is that there is no such file exactly if it is for the store. -/
theorem isNotFound_ofSystem : (ofSystem path error).isNotFound = true ↔ error = .notFound := by
  cases error <;> simp [ofSystem, isNotFound]

/-- There is a further failure behind one that was taken over exactly if it is of no kind that the
store knows, and then it is the one of the system. -/
theorem hasSource_ofSystem :
    (ofSystem path error).hasSource = true ↔ (ofSystem path error).cause = .system error := by
  cases error <;> simp [ofSystem, hasSource]

end StoreError

/-! ## Codes -/

namespace ExitCode

/-- Among the failures of a store, that there is no such file has a code of its own. -/
theorem ofStoreError_eq_notFound_iff {error : StoreError} :
    ofStoreError error = .notFound ↔ error.isNotFound = true := by
  unfold ofStoreError StoreError.isNotFound
  cases error.cause <;> simp

/-- With a further failure behind it, a failure of a store has the general code. -/
theorem ofStoreError_of_hasSource {error : StoreError} (h : error.hasSource = true) :
    ofStoreError error = .failure := by
  unfold StoreError.hasSource at h
  unfold ofStoreError
  cases hcause : error.cause with
  | invalidAcl rule | system failure => rfl
  | notFound | permissionDenied | notADirectory | unsupported feature => simp [hcause] at h

/-- Different codes have different numbers. -/
theorem value_inj {code other : ExitCode} : code.value = other.value ↔ code = other := by
  refine ⟨fun h => ?_, congrArg value⟩
  cases code <;> cases other <;> first | rfl | cases h

/-- A process can return the number of a code. -/
theorem value_le (code : ExitCode) : code.value ≤ 255 := by
  cases code <;> decide

/-- A process can return what is made of any integer. -/
theorem clamp_le (status : Int) : clamp status ≤ 255 :=
  Nat.min_le_right _ _

/-- Of the numbers that a process can return, none is nearer to the integer. -/
theorem clamp_nearest (status : Int) {number : Nat} (h : number ≤ 255) :
    (status - clamp status).natAbs ≤ (status - number).natAbs := by
  unfold clamp
  omega

/-- A number that a process can return stays as it is. -/
theorem clamp_eq_self {number : Nat} (h : number ≤ 255) : clamp number = number := by
  rw [clamp, Int.toNat_natCast, Nat.min_eq_left h]

/-- The numbers of the codes are returned as they are. -/
theorem clamp_value (code : ExitCode) : clamp code.value = code.value :=
  clamp_eq_self code.value_le

end ExitCode

/-! ## Texts -/

/-- The first line of a text is its beginning. -/
theorem firstLine_isPrefix (s : Text) : firstLine s <+: s := by
  induction s using firstLine.induct with
  | case1 => exact List.nil_prefix
  | case2 rest => exact List.nil_prefix
  | case3 rest => exact List.nil_prefix
  | case4 c rest hnewline hreturn ih =>
    rw [firstLine]
    · exact (List.prefix_cons_inj c).mpr ih
    · exact hnewline
    · exact hreturn

/-- The first line has no newline. -/
theorem newline_not_mem_firstLine (s : Text) : '\n' ∉ firstLine s := by
  induction s using firstLine.induct with
  | case1 => exact List.not_mem_nil
  | case2 rest => exact List.not_mem_nil
  | case3 rest => exact List.not_mem_nil
  | case4 c rest hnewline hreturn ih =>
    rw [firstLine]
    · exact List.not_mem_cons_of_ne_of_not_mem (fun h => hnewline h.symm) ih
    · exact hnewline
    · exact hreturn

/-- The text of an error is shown as it is, whatever was written. -/
theorem ArgumentError.visible_message (error : ArgumentError) :
    Escapes.visible error.message = error.message := by
  have hflag : ∀ flag : Flag, flag.text.all (Escapes.shows .outside) = true := by
    intro flag
    cases flag <;> rfl
  have hwritten : ∀ written, (Escapes.visible written).all (Escapes.shows .outside) = true :=
    fun _ => List.all_eq_true.mpr fun _ hc => Escapes.shows_of_mem_visibleFrom hc
  have happend : ∀ {first second : Text}, first.all (Escapes.shows .outside) = true →
      second.all (Escapes.shows .outside) = true →
      (first ++ second).all (Escapes.shows .outside) = true := by
    intro first second hfirst hsecond
    rw [List.all_append, hfirst, hsecond, Bool.and_self]
  rw [Escapes.visible_eq_self_iff, ← List.all_eq_true]
  cases error with
  | unknownFlag written =>
    exact happend (happend (by decide +kernel) (hwritten written)) (by decide +kernel)
  | unexpectedValue flag value =>
    exact happend (happend (happend (happend (by decide +kernel) (hwritten value))
      (by decide +kernel)) (hflag flag)) (by decide +kernel)
  | repeatedFlag flag =>
    exact happend (happend (by decide +kernel) (hflag flag)) (by decide +kernel)

/-- A wrong command line is reported on one line, and the text of the report is shown as it is. -/
theorem UsageError.message_on_one_line (error : UsageError) :
    '\n' ∉ error.message ∧ Escapes.visible error.message = error.message := by
  cases error with
  | arguments error =>
    refine ⟨newline_not_mem_firstLine _, Escapes.visible_eq_self_iff.mpr fun c hc => ?_⟩
    exact Escapes.visible_eq_self_iff.mp error.visible_message c ((firstLine_isPrefix _).mem hc)
  | missingOperand operand | malformedText operand => cases operand <;> decide +kernel
  | tooManyArguments | conflictingFlags | missingOperation => decide +kernel

end PosixAcl
