import Mathlib.Algebra.Group.Nat.Defs
import PosixAcl.Proofs.Text.Utf8

/-!
# Newlines

Whether a listing can be taken apart into its lines depends on where newlines can come
from. Bytes without a newline show as a text without one, since every character that
several bytes make up lies beyond the ASCII range.
-/

namespace PosixAcl

/-- The byte of a newline. -/
def newline : UInt8 := 0x0A

namespace Utf8

/-- Only the number of the newline gives the newline. -/
private theorem ofNat_ne_newline {n : Nat} (h : n ≠ 0x0A) : Char.ofNat n ≠ '\n' := by
  intro heq
  by_cases hvalid : n.isValidChar
  · rw [Char.ofNat, dif_pos hvalid] at heq
    have hvalue : (Char.ofNatAux n hvalid).toNat = n := rfl
    rw [heq] at hvalue
    exact h hvalue.symm
  · rw [Char.ofNat, dif_neg hvalid] at heq
    exact absurd heq (by decide)

/-- Every value that the reader can still complete lies beyond the ASCII range. -/
def State.Beyond : State → Prop
  | .start => True
  | .inside value low _ more => 0x80 ≤ low ∧ 0x80 ≤ (value * 0x40 + (low - 0x80)) * 0x40 ^ more

/-- A first byte other than a newline completes no newline, and begins a character beyond the ASCII
range. -/
theorem first_beyond {b : Nat} (hb : b ≠ newline.toNat) :
    some '\n' ∉ (first b).1 ∧ (first b).2.Beyond := by
  have hne : Char.ofNat b ≠ '\n' := ofNat_ne_newline hb
  unfold first
  split
  · exact ⟨by simpa using hne.symm, trivial⟩
  split
  · exact ⟨by simp, trivial⟩
  split
  · refine ⟨by simp, ?_⟩
    simp only [State.Beyond]
    omega
  split
  · refine ⟨by simp, ?_⟩
    simp only [State.Beyond]
    split <;> omega
  split
  · refine ⟨by simp, ?_⟩
    simp only [State.Beyond]
    split <;> omega
  · exact ⟨by simp, trivial⟩

/-- A byte other than a newline completes no newline, and what it leaves unfinished still lies
beyond the ASCII range. -/
theorem step_beyond {state : State} (h : state.Beyond) {b : Nat} (hb : b ≠ newline.toNat) :
    some '\n' ∉ (step state b).1 ∧ (step state b).2.Beyond := by
  obtain ⟨hpieces, hnext⟩ := first_beyond hb
  cases state with
  | start => exact ⟨hpieces, hnext⟩
  | inside value low high more =>
    obtain ⟨hlow, hvalue⟩ := h
    rw [step]
    split
    · rename_i hrange
      have hgrown : value * 0x40 + (low - 0x80) ≤ value * 0x40 + (b - 0x80) := by omega
      cases more with
      | zero =>
        refine ⟨?_, trivial⟩
        have hne : Char.ofNat (value * 0x40 + (b - 0x80)) ≠ '\n' :=
          ofNat_ne_newline (by omega)
        simpa using hne.symm
      | succ more =>
        refine ⟨List.not_mem_nil, Nat.le_refl _, ?_⟩
        calc 0x80 ≤ (value * 0x40 + (low - 0x80)) * 0x40 ^ (more + 1) := hvalue
          _ ≤ (value * 0x40 + (b - 0x80)) * 0x40 ^ (more + 1) := Nat.mul_le_mul_right _ hgrown
          _ = ((value * 0x40 + (b - 0x80)) * 0x40 + (0x80 - 0x80)) * 0x40 ^ more := by
            rw [Nat.pow_succ']
            simp only [Nat.sub_self, Nat.add_zero, Nat.mul_assoc]
    · exact ⟨by simpa using hpieces, hnext⟩

/-- Reading on without a newline yields none. -/
theorem not_mem_scanFrom {state : State} (h : state.Beyond) {bytes : Bytes}
    (hbytes : newline ∉ bytes) : some '\n' ∉ scanFrom state bytes := by
  induction bytes generalizing state with
  | nil => cases state <;> simp [scanFrom]
  | cons b rest ih =>
    have hb : b.toNat ≠ newline.toNat := by
      intro heq
      exact hbytes (UInt8.toNat_inj.mp heq ▸ List.mem_cons_self)
    obtain ⟨hpieces, hnext⟩ := step_beyond h hb
    rw [scanFrom_cons, List.mem_append]
    rintro (hmem | hmem)
    · exact hpieces hmem
    · exact ih hnext (fun hin => hbytes (List.mem_cons_of_mem _ hin)) hmem

/-- Bytes without a newline show as a text without one. -/
theorem newline_not_mem_decodeLossy {bytes : Bytes} (hbytes : newline ∉ bytes) :
    '\n' ∉ decodeLossy bytes := by
  intro hmem
  obtain ⟨piece, hpiece, hshown⟩ := List.mem_map.mp hmem
  cases piece with
  | none => exact absurd hshown (by decide)
  | some c =>
    have hc : c = '\n' := hshown
    have hstart : State.Beyond .start := trivial
    rw [hc] at hpiece
    exact not_mem_scanFrom hstart hbytes hpiece

end Utf8

end PosixAcl
