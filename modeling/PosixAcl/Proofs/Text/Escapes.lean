import PosixAcl.Text.Escapes

/-!
# What is shown of a text

Leaving out escape sequences shows a part of the text, without control characters apart
from layout. A text that has none of them is shown as it is, so that leaving out
sequences a second time changes nothing. Whole sequences leave nothing behind.
-/

namespace PosixAcl.Escapes

variable {state : State} {text rest : Text} {c : Char}

/-- What is shown inside a sequence is shown outside of it as well. -/
theorem shows_outside (h : shows state c = true) : shows .outside c = true := by
  cases state with
  | outside => exact h
  | escape | short | control =>
    rw [shows, Bool.or_eq_true]
    exact Or.inr h
  | device | deviceParameters | deviceIntermediate | string | command => cases h

/-- Outside of sequences a character that is shown leads nowhere else. -/
theorem next_outside (h : shows .outside c = true) : next .outside c = .outside := by
  have hescape : c ≠ '\x1B' := by
    rintro rfl
    exact absurd h (by decide)
  rw [next, if_neg hescape, if_pos (by simp [h])]

/-- Characters that are shown outside of sequences are shown as they are, and so is what is shown of
the text after them. -/
theorem visible_append_of_shows (h : ∀ c ∈ text, shows .outside c = true) (rest : Text) :
    visible (text ++ rest) = text ++ visible rest := by
  induction text with
  | nil => rfl
  | cons c text ih =>
    have hfirst := h c List.mem_cons_self
    rw [visible, List.cons_append, visibleFrom, if_pos hfirst, next_outside hfirst, ← visible,
      ih fun other hother => h other (List.mem_cons_of_mem _ hother), List.cons_append]

/-- From every state on, what is shown is a part of the text. -/
theorem visibleFrom_sublist (state : State) (text : Text) : (visibleFrom state text).Sublist text := by
  induction text generalizing state with
  | nil => exact .slnil
  | cons c text ih =>
    rw [visibleFrom]
    split
    · exact (ih _).cons_cons c
    · exact (ih _).cons c

/-- From every state on, only characters that are shown outside of sequences are shown. -/
theorem shows_of_mem_visibleFrom (h : c ∈ visibleFrom state text) : shows .outside c = true := by
  induction text generalizing state with
  | nil => cases h
  | cons first text ih =>
    rw [visibleFrom] at h
    split at h
    · rename_i hfirst
      rcases List.mem_cons.mp h with rfl | hrest
      · exact shows_outside hfirst
      · exact ih hrest
    · exact ih h

/-- What is shown of a text is a part of it. -/
theorem visible_sublist (text : Text) : (visible text).Sublist text :=
  visibleFrom_sublist .outside text

/-- A text is shown as it is exactly if it has no control characters apart from layout. -/
theorem visible_eq_self_iff : visible text = text ↔ ∀ c ∈ text, shows .outside c = true := by
  constructor
  · intro h c hc
    rw [← h] at hc
    exact shows_of_mem_visibleFrom hc
  · intro h
    have happend := visible_append_of_shows h []
    rwa [List.append_nil, show visible [] = [] from rfl, List.append_nil] at happend

/-- Nothing is left out of what is shown. -/
theorem visible_visible (text : Text) : visible (visible text) = visible text :=
  visible_eq_self_iff.mpr fun _ hc => shows_of_mem_visibleFrom hc

/-! ## Whole sequences -/

/-- A character lies between two others if it is not below the first and not above the second. -/
theorem isWithin_iff {low high : Char} : isWithin c low high = true ↔ low ≤ c ∧ c ≤ high := by
  rw [isWithin, Bool.and_eq_true, decide_eq_true_eq, decide_eq_true_eq]

/-- Inside a sequence no character from the blank on is shown, and none of them begins or cancels a
sequence. -/
theorem hidden_of_blank_le (hstate : state ≠ .outside) (h : ' ' ≤ c) :
    shows state c = false ∧ next state c = inside c state := by
  have hne : ∀ d : Char, d < ' ' → c ≠ d := by
    rintro d hd rfl
    exact absurd h (Char.not_le.mpr hd)
  have hlayout : isLayout c = false := by
    simp [isLayout, hne '\t' (by decide), hne '\n' (by decide), hne '\x0C' (by decide),
      hne '\r' (by decide)]
  have hhidden : shows state c = false := by
    cases state with
    | outside => exact absurd rfl hstate
    | escape | short | control => exact hlayout
    | device | deviceParameters | deviceIntermediate | string | command => rfl
  refine ⟨hhidden, ?_⟩
  simp [next, hhidden, hne '\x1B' (by decide), hne '\x18' (by decide), hne '\x1A' (by decide)]

/-- Characters that do not lead on from inside a sequence leave nothing behind. -/
theorem visibleFrom_append_of_stays (hstate : state ≠ .outside) {run : Text}
    (h : ∀ c ∈ run, ' ' ≤ c ∧ inside c state = state) (rest : Text) :
    visibleFrom state (run ++ rest) = visibleFrom state rest := by
  induction run with
  | nil => rfl
  | cons c run ih =>
    obtain ⟨hblank, hstays⟩ := h c List.mem_cons_self
    obtain ⟨hhidden, hnext⟩ := hidden_of_blank_le hstate hblank
    rw [List.cons_append, visibleFrom, if_neg (by simp [hhidden]), hnext, hstays]
    exact ih fun other hother => h other (List.mem_cons_of_mem _ hother)

/-- A control sequence, such as one that sets a colour, leaves nothing behind. -/
theorem visible_control {parameters : Text}
    (hparameters : ∀ c ∈ parameters, isWithin c ' ' '?' = true) {final : Char}
    (hfinal : isWithin final '@' '~' = true) (rest : Text) :
    visible ('\x1B' :: '[' :: (parameters ++ final :: rest)) = visible rest := by
  have hstays : ∀ c ∈ parameters, ' ' ≤ c ∧ inside c .control = .control := by
    intro c hc
    obtain ⟨hblank, hlast⟩ := isWithin_iff.mp (hparameters c hc)
    have houtside : ¬ isWithin c '@' '~' = true :=
      fun hin => absurd (Char.le_trans (isWithin_iff.mp hin).1 hlast) (by decide)
    exact ⟨hblank, if_neg houtside⟩
  have hbegun : visible ('\x1B' :: '[' :: (parameters ++ final :: rest)) =
      visibleFrom .control (parameters ++ final :: rest) := rfl
  have hblank : ' ' ≤ final := Char.le_trans (by decide) (isWithin_iff.mp hfinal).1
  have hcontrol : State.control ≠ .outside := by decide
  obtain ⟨hhidden, hnext⟩ := hidden_of_blank_le hcontrol hblank
  rw [hbegun, visibleFrom_append_of_stays hcontrol hstays, visibleFrom,
    if_neg (by simp [hhidden]), hnext, inside, if_pos hfinal, visible]

/-- A command for the operating system, such as one that sets a title, leaves nothing behind. -/
theorem visible_command {body : Text} (hbody : ∀ c ∈ body, ' ' ≤ c) (rest : Text) :
    visible ('\x1B' :: ']' :: (body ++ '\x07' :: rest)) = visible rest := by
  have hstays : ∀ c ∈ body, ' ' ≤ c ∧ inside c .command = .command := by
    intro c hc
    have hbell : c ≠ '\x07' := by
      rintro rfl
      exact absurd (hbody _ hc) (by decide)
    exact ⟨hbody c hc, if_neg hbell⟩
  have hbegun : visible ('\x1B' :: ']' :: (body ++ '\x07' :: rest)) =
      visibleFrom .command (body ++ '\x07' :: rest) := rfl
  rw [hbegun, visibleFrom_append_of_stays (by simp) hstays]
  rfl

/-- A red word is shown without its colour, and an unfinished sequence ends with the line. -/
example : visible "\x1b[31mred\x1b[0m \x1b[1\nnext".toList = "red \nnext".toList := by decide

end PosixAcl.Escapes
