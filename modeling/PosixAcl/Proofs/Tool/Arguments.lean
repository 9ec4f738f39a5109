import Mathlib.Data.List.Forall2
import Mathlib.Data.List.Nodup
import Mathlib.Data.List.TakeWhile
import PosixAcl.Proofs.Text.Decoding
import PosixAcl.Tool.Arguments

/-!
# Command lines give back what was written

Flags are written as words and clusters in any order and grouping, and the operands
follow, after two dashes where the first of them could pass for a flag. The reader
finds exactly the flags and operands that were written this way. Any other command
line has a first argument that offends, and the error is the one of this argument,
whatever follows it.
-/

namespace PosixAcl

/-- A tool knows a flag by a letter. -/
def Tool.HasLetter (tool : Tool) (flag : Flag) (letter : Char) : Prop :=
  flag ∈ tool.flags ∧ flag.letter? = some letter

/-- A tool knows a flag by a word. -/
def Tool.HasWord (tool : Tool) (flag : Flag) (word : Text) : Prop :=
  flag ∈ tool.flags ∧ flag.word? = some word

namespace Arguments

variable {tool : Tool} {seen found flags : List Flag} {written operands : List Bytes}

/-! ## How flags are written -/

/-- Arguments that write flags of a tool, in this order: words after two dashes, and clusters of
letters after one dash. -/
inductive Writes (tool : Tool) : List Flag → List Bytes → Prop where
  | nothing : Writes tool [] []
  | word {flag : Flag} {word : Text} {flags : List Flag} {rest : List Bytes}
      (hword : tool.HasWord flag word) (hrest : Writes tool flags rest) :
      Writes tool (flag :: flags) ((dash :: dash :: Utf8.encode word) :: rest)
  | cluster {found flags : List Flag} {letters : Text} {rest : List Bytes} (hne : found ≠ [])
      (hletters : List.Forall₂ tool.HasLetter found letters) (hrest : Writes tool flags rest) :
      Writes tool (found ++ flags) ((dash :: Utf8.encode letters) :: rest)

/-- How operands follow the flags: two dashes are dropped, and an argument that cannot be a flag is
the first operand. -/
inductive Ends : List Bytes → List Bytes → Prop where
  | nothing : Ends [] []
  | dashes (operands : List Bytes) : Ends ([dash, dash] :: operands) operands
  | operand {first : Bytes} (rest : List Bytes)
      (hfirst : first = [dash] ∨ first.head? ≠ some dash) : Ends (first :: rest) (first :: rest)

/-- An argument offends after the flags that were seen. Its word is unknown, has a value or was seen
before, or the letter after those that are fine is unknown or malformed or was seen before. -/
inductive Offends (tool : Tool) (seen : List Flag) : Bytes → ArgumentError → Prop where
  | unknownWord {name after : Bytes} (hne : name ++ after ≠ []) (hname : equalsSign ∉ name)
      (hafter : after = [] ∨ after.head? = some equalsSign)
      (hunknown : ∀ flag word, tool.HasWord flag word → name ≠ Utf8.encode word) :
      Offends tool seen (dash :: dash :: (name ++ after))
        (.unknownFlag ('-' :: '-' :: Utf8.decodeLossy name))
  | value {flag : Flag} {word : Text} (value : Bytes) (hword : tool.HasWord flag word) :
      Offends tool seen (dash :: dash :: (Utf8.encode word ++ equalsSign :: value))
        (.unexpectedValue flag (Utf8.decodeLossy value))
  | repeatedWord {flag : Flag} {word : Text} (hword : tool.HasWord flag word)
      (hseen : flag ∈ seen) :
      Offends tool seen (dash :: dash :: Utf8.encode word) (.repeatedFlag flag)
  | unknownLetter {found : List Flag} {letters : Text} {c : Char} (after : Bytes)
      (hletters : List.Forall₂ tool.HasLetter found letters) (hnew : (seen ++ found).Nodup)
      (hunknown : ∀ flag, ¬ tool.HasLetter flag c) (hfirst : found = [] → c ≠ '-') :
      Offends tool seen (dash :: (Utf8.encode letters ++ (Utf8.encodeChar c ++ after)))
        (.unknownFlag ['-', c])
  | malformed {found : List Flag} {letters : Text} {after : Bytes}
      (hletters : List.Forall₂ tool.HasLetter found letters) (hnew : (seen ++ found).Nodup)
      (hafter : Utf8.BeginsMalformed after) :
      Offends tool seen (dash :: (Utf8.encode letters ++ after))
        (.unknownFlag ('-' :: Utf8.decodeLossy after))
  | repeatedLetter {found : List Flag} {letters : Text} {flag : Flag} {c : Char} (after : Bytes)
      (hletters : List.Forall₂ tool.HasLetter found letters) (hnew : (seen ++ found).Nodup)
      (hletter : tool.HasLetter flag c) (hseen : flag ∈ seen ++ found) :
      Offends tool seen (dash :: (Utf8.encode letters ++ (Utf8.encodeChar c ++ after)))
        (.repeatedFlag flag)

/-! ## Words and letters of flags -/

/-- No two flags have the same letter. -/
theorem eq_of_letter? {flag other : Flag} {c : Char} (hflag : flag.letter? = some c)
    (hother : other.letter? = some c) : flag = other := by
  rw [← hflag] at hother
  cases flag <;> cases other <;> simp [Flag.letter?] at hflag hother ⊢

/-- No two flags have the same word. -/
theorem eq_of_word? {flag other : Flag} {word : Text} (hflag : flag.word? = some word)
    (hother : other.word? = some word) : flag = other := by
  rw [← hflag] at hother
  cases flag <;> cases other <;> simp [Flag.word?] at hflag hother ⊢

/-- An element that is alone with a property is the one that is found by it. -/
private theorem find?_eq_some_iff_of_unique {α : Type} {p : α → Bool} {l : List α} {a : α}
    (hunique : ∀ b, p a = true → p b = true → b = a) :
    l.find? p = some a ↔ a ∈ l ∧ p a = true := by
  constructor
  · exact fun h => ⟨List.mem_of_find?_eq_some h, List.find?_some h⟩
  · rintro ⟨hmem, ha⟩
    obtain ⟨b, hb⟩ := Option.isSome_iff_exists.mp (List.find?_isSome.mpr ⟨a, hmem, ha⟩)
    rw [hb, hunique b ha (List.find?_some hb)]

/-- A letter finds the flag that a tool knows by it. -/
theorem find?_letter_eq_some_iff {flag : Flag} {c : Char} :
    (tool.flags.find? fun flag => flag.letter? = some c) = some flag ↔ tool.HasLetter flag c := by
  rw [find?_eq_some_iff_of_unique, Tool.HasLetter, decide_eq_true_iff]
  intro other hflag hother
  exact eq_of_letter? (of_decide_eq_true hother) (of_decide_eq_true hflag)

/-- A letter finds nothing if a tool knows no flag by it. -/
theorem find?_letter_eq_none_iff {c : Char} :
    (tool.flags.find? fun flag => flag.letter? = some c) = none ↔
      ∀ flag, ¬ tool.HasLetter flag c := by
  simp only [Option.eq_none_iff_forall_ne_some, ne_eq, find?_letter_eq_some_iff]

/-- The bytes of a word find the flag that a tool knows by it. -/
theorem find?_word_eq_some_iff {flag : Flag} {name : Bytes} :
    (tool.flags.find? fun flag => flag.word?.map Utf8.encode = some name) = some flag ↔
      ∃ word, tool.HasWord flag word ∧ name = Utf8.encode word := by
  rw [find?_eq_some_iff_of_unique]
  · simp only [decide_eq_true_eq, Option.map_eq_some_iff, Tool.HasWord]
    constructor
    · rintro ⟨hmem, word, hword, rfl⟩
      exact ⟨word, ⟨hmem, hword⟩, rfl⟩
    · rintro ⟨word, ⟨hmem, hword⟩, rfl⟩
      exact ⟨hmem, word, hword, rfl⟩
  · intro other hflag hother
    simp only [decide_eq_true_eq, Option.map_eq_some_iff] at hflag hother
    obtain ⟨word, hword, rfl⟩ := hflag
    obtain ⟨word', hword', hsame⟩ := hother
    exact eq_of_word? (Utf8.encode_injective hsame ▸ hword') hword

/-- The bytes of a word find nothing if a tool knows no flag by it. -/
theorem find?_word_eq_none_iff {name : Bytes} :
    (tool.flags.find? fun flag => flag.word?.map Utf8.encode = some name) = none ↔
      ∀ flag word, tool.HasWord flag word → name ≠ Utf8.encode word := by
  simp only [Option.eq_none_iff_forall_ne_some, ne_eq, find?_word_eq_some_iff, not_exists, not_and]

/-! ## What arguments are -/

/-- A name without an equals sign is split off from the equals sign that follows it. -/
theorem splitValue_append {name after : Bytes} (hname : equalsSign ∉ name)
    (hafter : after = [] ∨ after.head? = some equalsSign) :
    splitValue (name ++ after) = (name, if after = [] then none else some after.tail) := by
  have hall : ∀ b ∈ name, decide (b ≠ equalsSign) = true :=
    fun b hb => decide_eq_true fun heq => hname (heq ▸ hb)
  rw [splitValue, List.dropWhile_append_of_pos hall, List.takeWhile_append_of_pos hall]
  cases after with
  | nil => simp
  | cons first value =>
    have hfirst : first = equalsSign := by simpa using hafter
    simp [hfirst]

/-- No word of a flag contains an equals sign. -/
theorem equalsSign_not_mem_word {flag : Flag} {word : Text} (h : flag.word? = some word) :
    equalsSign ∉ Utf8.encode word := by
  cases flag with
  | help | replace => cases h; decide
  | _ => cases h

/-- A dash reads as its character. -/
theorem scan_dash (bytes : Bytes) : Utf8.scan (dash :: bytes) = some '-' :: Utf8.scan bytes :=
  Utf8.scanFrom_encodeChar '-' bytes

/-- After a dash, bytes that do not begin with another one are read as a cluster. -/
theorem ofBytes_cluster {bytes : Bytes} {piece : Option Char} {pieces : List (Option Char)}
    (hscan : Utf8.scan bytes = piece :: pieces) (hpiece : piece ≠ some '-') :
    Token.ofBytes (dash :: bytes) = .cluster (piece :: pieces) := by
  cases bytes with
  | nil => cases hscan
  | cons first rest =>
    have hfirst : first ≠ dash := by
      rintro rfl
      rw [scan_dash] at hscan
      exact hpiece (List.cons.inj hscan).1.symm
    rw [Token.ofBytes, if_neg (not_not.mpr rfl), if_pos hfirst, hscan]

/-- After two dashes, bytes are read as a word. -/
theorem ofBytes_word {name after : Bytes} (hne : name ++ after ≠ []) (hname : equalsSign ∉ name)
    (hafter : after = [] ∨ after.head? = some equalsSign) :
    Token.ofBytes (dash :: dash :: (name ++ after)) =
      .word name (if after = [] then none else some after.tail) := by
  have hsome : (name ++ after).isEmpty = false := by rwa [List.isEmpty_eq_false_iff]
  simp only [Token.ofBytes, hsome, splitValue_append hname hafter, ne_eq, not_true_eq_false,
    Bool.false_eq_true, if_false]

/-- After two dashes, the word of a flag is read as such. -/
theorem ofBytes_flag {flag : Flag} {word : Text} (h : flag.word? = some word) :
    Token.ofBytes (dash :: dash :: Utf8.encode word) = .word (Utf8.encode word) none := by
  cases flag with
  | help | replace => cases h; decide
  | _ => cases h

/-- What cannot be a flag is an operand. -/
theorem ofBytes_operand {first : Bytes} (hfirst : first = [dash] ∨ first.head? ≠ some dash) :
    Token.ofBytes first = .operand := by
  rcases hfirst with rfl | hhead
  · rfl
  · match first with
    | [] | [_] => rfl
    | b :: c :: rest => rw [Token.ofBytes, if_pos fun heq => hhead (congrArg some heq)]

/-! ## Reading what was written -/

/-- A flag that was not seen can be added. -/
theorem nodup_append_flag {flag : Flag} (hseen : seen.Nodup) (hnew : flag ∉ seen) :
    (seen ++ [flag]).Nodup :=
  hseen.append (List.nodup_singleton flag) (by simpa using hnew)

/-- A flag that was not seen is added. -/
theorem addFlag_of_nodup {flag : Flag} (h : (seen ++ [flag]).Nodup) :
    addFlag seen flag = .ok (seen ++ [flag]) := by
  have hnew : flag ∉ seen := fun hmem =>
    (List.nodup_append.mp h).2.2 flag hmem flag (List.mem_singleton_self flag) rfl
  rw [addFlag, if_neg hnew]

/-- Letters of flags that were not seen are read one by one. -/
theorem readCluster_append {letters : Text} {more : List (Option Char)}
    (hletters : List.Forall₂ tool.HasLetter found letters) (hnew : (seen ++ found).Nodup) :
    readCluster tool seen (letters.map some ++ more) = readCluster tool (seen ++ found) more := by
  induction hletters generalizing seen with
  | nil => rw [List.append_nil]; rfl
  | @cons flag c found letters hletter _ ih =>
    rw [List.append_cons] at hnew ⊢
    rw [← ih hnew, List.map_cons, List.cons_append, readCluster,
      find?_letter_eq_some_iff.mpr hletter]
    simp only [addFlag_of_nodup (List.nodup_append.mp hnew).1]

/-- No letter of a flag is a dash. -/
theorem letter_ne_dash {flag : Flag} {c : Char} (h : tool.HasLetter flag c) : c ≠ '-' := by
  rintro rfl
  cases flag <;> cases h.2

/-- After a dash, letters of flags and what follows them are read as a cluster. -/
theorem readAfter_cluster {letters : Text} {after : Bytes}
    (hletters : List.Forall₂ tool.HasLetter found letters)
    (hfirst : found = [] → ∃ piece pieces, Utf8.scan after = piece :: pieces ∧ piece ≠ some '-')
    (rest : List Bytes) :
    readAfter tool seen ((dash :: (Utf8.encode letters ++ after)) :: rest) =
      match readCluster tool seen (letters.map some ++ Utf8.scan after) with
      | .error error => .error error
      | .ok seen => readAfter tool seen rest := by
  have hscan := Utf8.scan_encode_append letters after
  cases hletters with
  | nil =>
    obtain ⟨piece, pieces, hpieces, hpiece⟩ := hfirst rfl
    simp only [readAfter]
    rw [ofBytes_cluster (hscan.trans hpieces) hpiece, hpieces]
    rfl
  | cons hletter _ =>
    simp only [readAfter]
    rw [ofBytes_cluster hscan (by simpa using letter_ne_dash hletter)]
    rfl

/-- Flags that were written are read in their order, if none of them was seen before. -/
theorem Writes.readAfter_eq (h : Writes tool flags written) (hnew : (seen ++ flags).Nodup)
    (rest : List Bytes) :
    readAfter tool seen (written ++ rest) = readAfter tool (seen ++ flags) rest := by
  induction h generalizing seen with
  | nothing => simp
  | @word flag word flags written hword _ ih =>
    rw [List.append_cons] at hnew ⊢
    rw [← ih hnew, List.cons_append]
    simp only [readAfter, ofBytes_flag hword.2, readWord,
      find?_word_eq_some_iff.mpr ⟨word, hword, rfl⟩,
      addFlag_of_nodup (List.nodup_append.mp hnew).1]
  | @cluster found flags letters written hne hletters _ ih =>
    rw [← List.append_assoc] at hnew ⊢
    have hread : readAfter tool seen ((dash :: (Utf8.encode letters ++ [])) :: (written ++ rest)) =
        _ := readAfter_cluster hletters (fun hnil => absurd hnil hne) (written ++ rest)
    rw [List.append_nil] at hread
    rw [← ih hnew, List.cons_append, hread,
      readCluster_append hletters (List.nodup_append.mp hnew).1]
    rfl

/-- Where the flags end, the operands are what is left. -/
theorem Ends.readAfter_eq {rest : List Bytes} (h : Ends rest operands) :
    readAfter tool seen rest = .ok ⟨seen, operands⟩ := by
  cases h with
  | nothing => rfl
  | dashes operands => rfl
  | operand rest hfirst => simp only [readAfter, ofBytes_operand hfirst]

/-- An argument that offends is refused, whatever follows it. -/
theorem Offends.readAfter_eq {argument : Bytes} {error : ArgumentError}
    (h : Offends tool seen argument error) (rest : List Bytes) :
    readAfter tool seen (argument :: rest) = .error error := by
  cases h with
  | unknownWord hne hname hafter hunknown =>
    simp only [readAfter, ofBytes_word hne hname hafter, readWord,
      find?_word_eq_none_iff.mpr hunknown]
  | @value flag word value hword =>
    have hne : Utf8.encode word ++ equalsSign :: value ≠ [] := by simp
    have htoken := ofBytes_word hne (equalsSign_not_mem_word hword.2) (Or.inr rfl)
    have hafter : equalsSign :: value ≠ [] := List.cons_ne_nil _ _
    simp only [readAfter, htoken, readWord, find?_word_eq_some_iff.mpr ⟨word, hword, rfl⟩, hafter,
      if_false, List.tail_cons]
  | repeatedWord hword hseen =>
    simp only [readAfter, ofBytes_flag hword.2, readWord,
      find?_word_eq_some_iff.mpr ⟨_, hword, rfl⟩, addFlag, if_pos hseen]
  | @unknownLetter found letters c after hletters hnew hunknown hfirst =>
    have hscan : Utf8.scan (Utf8.encodeChar c ++ after) = some c :: Utf8.scan after :=
      Utf8.scanFrom_encodeChar c after
    rw [readAfter_cluster hletters fun hnil => ⟨_, _, hscan, by simpa using hfirst hnil⟩, hscan,
      readCluster_append hletters hnew, readCluster, find?_letter_eq_none_iff.mpr hunknown]
  | malformed hletters hnew hafter =>
    obtain ⟨pieces, hscan⟩ := Utf8.beginsMalformed_iff.mp hafter
    rw [readAfter_cluster hletters fun _ => ⟨_, _, hscan, nofun⟩, hscan,
      readCluster_append hletters hnew, readCluster, Utf8.decodeLossy, hscan]
  | @repeatedLetter found letters flag c after hletters hnew hletter hseen =>
    have hscan : Utf8.scan (Utf8.encodeChar c ++ after) = some c :: Utf8.scan after :=
      Utf8.scanFrom_encodeChar c after
    rw [readAfter_cluster hletters fun _ => ⟨_, _, hscan, by simpa using letter_ne_dash hletter⟩,
      hscan, readCluster_append hletters hnew, readCluster, find?_letter_eq_some_iff.mpr hletter]
    simp only [addFlag, if_pos hseen]

/-- Different flags that were written and the operands after them are read. -/
theorem Writes.read_eq_ok {rest : List Bytes} (h : Writes tool flags written)
    (hnew : flags.Nodup) (hends : Ends rest operands) :
    read tool (written ++ rest) = .ok ⟨flags, operands⟩ :=
  (h.readAfter_eq (show ([] ++ flags).Nodup from hnew) rest).trans hends.readAfter_eq

/-- After different flags that were written, an argument that offends is refused. -/
theorem Writes.read_eq_error {argument : Bytes} {error : ArgumentError}
    (h : Writes tool flags written) (hnew : flags.Nodup)
    (hoffends : Offends tool flags argument error) (after : List Bytes) :
    read tool (written ++ argument :: after) = .error error :=
  (h.readAfter_eq (show ([] ++ flags).Nodup from hnew) _).trans (hoffends.readAfter_eq after)

/-! ## Every command line is written in this way or offends -/

/-- Arguments that write flags go on with others that do. -/
theorem Writes.append {more : List Flag} {rest : List Bytes} (h : Writes tool flags written)
    (hrest : Writes tool more rest) : Writes tool (flags ++ more) (written ++ rest) := by
  induction h with
  | nothing => exact hrest
  | word hword _ ih => exact .word hword ih
  | cluster hne hletters _ ih =>
    rw [List.append_assoc]
    exact .cluster hne hletters ih

/-- The letters of flags that were not seen go on to the end of the bytes, or up to a malformed
piece, or up to a letter of no flag or of one that was seen. -/
theorem exists_letters (tool : Tool) (hseen : seen.Nodup) (bytes : Bytes) :
    ∃ found letters after, bytes = Utf8.encode letters ++ after ∧
      List.Forall₂ tool.HasLetter found letters ∧ (seen ++ found).Nodup ∧
      (after = [] ∨ Utf8.BeginsMalformed after ∨ ∃ c rest, after = Utf8.encodeChar c ++ rest ∧
        ∀ flag, tool.HasLetter flag c → flag ∈ seen ++ found) := by
  -- The pieces are taken one by one, and the bytes of each character come off the front.
  generalize hscan : Utf8.scan bytes = pieces
  induction pieces generalizing seen bytes with
  | nil =>
    refine ⟨[], [], bytes, rfl, .nil, by simpa using hseen, Or.inl ?_⟩
    exact Utf8.scan_eq_nil_iff.mp hscan
  | cons piece pieces ih =>
    cases piece with
    | none =>
      refine ⟨[], [], bytes, rfl, .nil, by simpa using hseen, Or.inr (Or.inl ?_)⟩
      exact Utf8.beginsMalformed_iff.mpr ⟨pieces, hscan⟩
    | some c =>
      obtain ⟨rest, rfl, hrest⟩ := Utf8.exists_of_scan_eq_cons hscan
      by_cases hknown : ∃ flag, tool.HasLetter flag c ∧ flag ∉ seen
      · obtain ⟨flag, hletter, hnew⟩ := hknown
        obtain ⟨found, letters, after, rfl, hletters, hfound, hafter⟩ :=
          ih (nodup_append_flag hseen hnew) rest hrest
        rw [← List.append_cons] at hfound hafter
        refine ⟨flag :: found, c :: letters, after, ?_, .cons hletter hletters, hfound, hafter⟩
        exact (List.append_assoc _ _ _).symm
      · refine ⟨[], [], _, rfl, .nil, by simpa using hseen, Or.inr (Or.inr ⟨c, rest, rfl, ?_⟩)⟩
        intro flag hletter
        rw [List.append_nil]
        by_contra hnew
        exact hknown ⟨flag, hletter, hnew⟩

/-- A word after two dashes is one of a flag that was not seen, or it offends. -/
private theorem word_cases (tool : Tool) (hseen : seen.Nodup) {bytes : Bytes} (hne : bytes ≠ []) :
    (∃ flags, Writes tool flags [dash :: dash :: bytes] ∧ (seen ++ flags).Nodup) ∨
      ∃ error, Offends tool seen (dash :: dash :: bytes) error := by
  obtain ⟨name, after, rfl, hname, hafter⟩ : ∃ name after, bytes = name ++ after ∧
      equalsSign ∉ name ∧ (after = [] ∨ after.head? = some equalsSign) := by
    refine ⟨bytes.takeWhile (· ≠ equalsSign), bytes.dropWhile (· ≠ equalsSign),
      List.takeWhile_append_dropWhile.symm, fun hmem => ?_, ?_⟩
    · simpa using List.mem_takeWhile_imp hmem
    · cases hdrop : bytes.dropWhile (· ≠ equalsSign) with
      | nil => exact Or.inl rfl
      | cons first rest =>
        have hfirst := List.head?_dropWhile_not (· ≠ equalsSign) bytes
        rw [hdrop] at hfirst
        exact Or.inr (by simpa using hfirst)
  -- An unknown word offends with any value, and a known one offends with every value.
  by_cases hknown : ∃ flag word, tool.HasWord flag word ∧ name = Utf8.encode word
  · obtain ⟨flag, word, hword, rfl⟩ := hknown
    match after, hafter with
    | [], _ =>
      rw [List.append_nil]
      by_cases hmem : flag ∈ seen
      · exact Or.inr ⟨_, .repeatedWord hword hmem⟩
      · exact Or.inl ⟨[flag], .word hword .nothing, nodup_append_flag hseen hmem⟩
    | first :: value, hafter =>
      obtain rfl : first = equalsSign := by simpa using hafter
      exact Or.inr ⟨_, .value value hword⟩
  · refine Or.inr ⟨_, .unknownWord hne hname hafter fun flag word hword heq => ?_⟩
    exact hknown ⟨flag, word, hword, heq⟩

/-- What follows one dash is letters of flags that were not seen, or it offends. -/
private theorem cluster_cases (tool : Tool) (hseen : seen.Nodup) {bytes : Bytes} (hne : bytes ≠ [])
    (hdash : bytes.head? ≠ some dash) :
    (∃ flags, Writes tool flags [dash :: bytes] ∧ (seen ++ flags).Nodup) ∨
      ∃ error, Offends tool seen (dash :: bytes) error := by
  obtain ⟨found, letters, after, rfl, hletters, hnew, rfl | hmalformed | ⟨c, rest, rfl, hseen'⟩⟩ :=
    exists_letters tool hseen bytes
  · have hfound : found ≠ [] := by
      rintro rfl
      cases hletters
      exact hne rfl
    refine Or.inl ⟨found ++ [], ?_, by rwa [List.append_nil]⟩
    exact (List.append_nil (Utf8.encode letters)).symm ▸ .cluster hfound hletters .nothing
  · exact Or.inr ⟨_, .malformed hletters hnew hmalformed⟩
  · by_cases hknown : ∃ flag, tool.HasLetter flag c
    · obtain ⟨flag, hletter⟩ := hknown
      exact Or.inr ⟨_, .repeatedLetter rest hletters hnew hletter (hseen' flag hletter)⟩
    · refine Or.inr ⟨_, .unknownLetter rest hletters hnew (not_exists.mp hknown) ?_⟩
      rintro rfl rfl
      cases hletters
      exact hdash rfl

/-- Every argument ends the flags, or writes flags that were not seen, or offends. -/
theorem argument_cases (tool : Tool) (hseen : seen.Nodup) (argument : Bytes) :
    (∀ rest, ∃ operands, Ends (argument :: rest) operands) ∨
      (∃ flags, Writes tool flags [argument] ∧ (seen ++ flags).Nodup) ∨
      ∃ error, Offends tool seen argument error := by
  by_cases hfirst : argument = [dash] ∨ argument.head? ≠ some dash
  · exact Or.inl fun rest => ⟨_, .operand rest hfirst⟩
  · rw [not_or, not_not] at hfirst
    obtain ⟨hlong, hhead⟩ := hfirst
    obtain ⟨bytes, rfl⟩ := List.head?_eq_some_iff.mp hhead
    have hne : bytes ≠ [] := fun hnil => hlong (hnil ▸ rfl)
    by_cases hdash : bytes.head? = some dash
    · obtain ⟨rest, rfl⟩ := List.head?_eq_some_iff.mp hdash
      by_cases hrest : rest = []
      · exact Or.inl fun operands => ⟨operands, hrest ▸ .dashes operands⟩
      · exact Or.inr (word_cases tool hseen hrest)
    · exact Or.inr (cluster_cases tool hseen hne hdash)

/-- Every command line writes flags that were not seen, up to where they end or to an argument that
offends. -/
theorem writes_and_ends_or_offends (tool : Tool) (hseen : seen.Nodup) (arguments : List Bytes) :
    ∃ flags written rest, arguments = written ++ rest ∧ Writes tool flags written ∧
      (seen ++ flags).Nodup ∧ ((∃ operands, Ends rest operands) ∨
        ∃ argument after error, rest = argument :: after ∧
          Offends tool (seen ++ flags) argument error) := by
  induction arguments generalizing seen with
  | nil => exact ⟨[], [], [], rfl, .nothing, by simpa using hseen, Or.inl ⟨[], .nothing⟩⟩
  | cons argument after ih =>
    rcases argument_cases tool hseen argument with hends | ⟨found, hfound, hnew⟩ | ⟨error, hoffends⟩
    · exact ⟨[], [], _, rfl, .nothing, by simpa using hseen, Or.inl (hends after)⟩
    · obtain ⟨flags, written, rest, rfl, hwrites, hflags, hrest⟩ := ih hnew
      rw [List.append_assoc] at hflags hrest
      exact ⟨_, _, rest, rfl, hfound.append hwrites, hflags, hrest⟩
    · refine ⟨[], [], _, rfl, .nothing, by simpa using hseen, Or.inr ⟨_, _, error, rfl, ?_⟩⟩
      rwa [List.append_nil]

/-- Accepted are the command lines that write different flags and then the operands. -/
theorem read_eq_ok_iff {arguments : List Bytes} {parsed : Arguments} :
    read tool arguments = .ok parsed ↔
      ∃ written rest, arguments = written ++ rest ∧ Writes tool parsed.flags written ∧
        parsed.flags.Nodup ∧ Ends rest parsed.operands := by
  constructor
  · intro h
    obtain ⟨flags, written, rest, rfl, hwrites, hnew, ⟨operands, hends⟩ |
      ⟨argument, after, error, rfl, hoffends⟩⟩ :=
      writes_and_ends_or_offends tool List.nodup_nil arguments
    · obtain rfl := Except.ok.inj ((hwrites.read_eq_ok hnew hends).symm.trans h)
      exact ⟨written, rest, rfl, hwrites, hnew, hends⟩
    · rw [hwrites.read_eq_error hnew hoffends after] at h
      cases h
  · rintro ⟨written, rest, rfl, hwrites, hnew, hends⟩
    exact hwrites.read_eq_ok hnew hends

/-- Refused are the command lines with an argument that offends after different flags. -/
theorem read_eq_error_iff {arguments : List Bytes} {error : ArgumentError} :
    read tool arguments = .error error ↔
      ∃ flags written argument after, arguments = written ++ argument :: after ∧
        Writes tool flags written ∧ flags.Nodup ∧ Offends tool flags argument error := by
  constructor
  · intro h
    obtain ⟨flags, written, rest, rfl, hwrites, hnew, ⟨operands, hends⟩ |
      ⟨argument, after, error, rfl, hoffends⟩⟩ :=
      writes_and_ends_or_offends tool List.nodup_nil arguments
    · rw [hwrites.read_eq_ok hnew hends] at h
      cases h
    · obtain rfl := Except.error.inj ((hwrites.read_eq_error hnew hoffends after).symm.trans h)
      exact ⟨flags, written, argument, after, rfl, hwrites, hnew, hoffends⟩
  · rintro ⟨flags, written, argument, after, rfl, hwrites, hnew, hoffends⟩
    exact hwrites.read_eq_error hnew hoffends after

/-! ## Flags that are written twice -/

/-- Among letters of which one stands for a flag that was seen there is a first one that does. -/
private theorem exists_repeated_letter {letters : Text}
    (hletters : List.Forall₂ tool.HasLetter found letters) (hseen : seen.Nodup)
    (hrepeats : ¬ (seen ++ found).Nodup) :
    ∃ before flag after spelled c rest, found = before ++ flag :: after ∧
      letters = spelled ++ c :: rest ∧ List.Forall₂ tool.HasLetter before spelled ∧
      tool.HasLetter flag c ∧ (seen ++ before).Nodup ∧ flag ∈ seen ++ before := by
  induction hletters generalizing seen with
  | nil => exact absurd (by simpa using hseen) hrepeats
  | @cons flag c found letters hletter _ ih =>
    by_cases hmem : flag ∈ seen
    · exact ⟨[], flag, found, [], c, letters, rfl, rfl, .nil, hletter, by simpa using hseen,
        by simpa using hmem⟩
    · have hnodup := nodup_append_flag hseen hmem
      rw [List.append_cons] at hrepeats
      obtain ⟨before, again, after, spelled, d, rest, rfl, rfl, hspelled, hagain, hnew, hthere⟩ :=
        ih hnodup hrepeats
      rw [← List.append_cons] at hnew hthere
      exact ⟨flag :: before, again, after, c :: spelled, d, rest, rfl, rfl, .cons hletter hspelled,
        hagain, hnew, hthere⟩

/-- Where written flags repeat one that was seen, the first of them that does is refused, whatever
follows. -/
theorem Writes.exists_repeated (h : Writes tool flags written) (hseen : seen.Nodup)
    (hrepeats : ¬ (seen ++ flags).Nodup) :
    ∃ before flag after, flags = before ++ flag :: after ∧ (seen ++ before).Nodup ∧
      flag ∈ seen ++ before ∧
      ∀ rest, readAfter tool seen (written ++ rest) = .error (.repeatedFlag flag) := by
  induction h generalizing seen with
  | nothing => exact absurd (by simpa using hseen) hrepeats
  | @word flag word flags written hword _ ih =>
    by_cases hmem : flag ∈ seen
    · refine ⟨[], flag, flags, rfl, by simpa using hseen, by simpa using hmem, fun rest => ?_⟩
      exact (Offends.repeatedWord hword hmem).readAfter_eq (written ++ rest)
    · have hnodup := nodup_append_flag hseen hmem
      rw [List.append_cons] at hrepeats
      obtain ⟨before, again, after, rfl, hnew, hthere, hread⟩ := ih hnodup hrepeats
      rw [← List.append_cons] at hnew hthere
      refine ⟨flag :: before, again, after, rfl, hnew, hthere, fun rest => ?_⟩
      exact ((Writes.word hword .nothing).readAfter_eq hnodup (written ++ rest)).trans (hread rest)
  | @cluster found flags letters written hne hletters _ ih =>
    by_cases hfound : (seen ++ found).Nodup
    · rw [← List.append_assoc] at hrepeats
      obtain ⟨before, again, after, rfl, hnew, hthere, hread⟩ := ih hfound hrepeats
      rw [List.append_assoc] at hnew hthere
      refine ⟨found ++ before, again, after, (List.append_assoc _ _ _).symm, hnew, hthere,
        fun rest => ?_⟩
      have htoken : Writes tool (found ++ []) [dash :: Utf8.encode letters] :=
        .cluster hne hletters .nothing
      rw [List.append_nil] at htoken
      exact (htoken.readAfter_eq hfound (written ++ rest)).trans (hread rest)
    · obtain ⟨before, again, after, spelled, c, rest, rfl, rfl, hspelled, hagain, hnew, hthere⟩ :=
        exists_repeated_letter hletters hseen hfound
      refine ⟨before, again, after ++ flags, by simp, hnew, hthere, fun more => ?_⟩
      have hoffends := Offends.repeatedLetter (Utf8.encode rest) hspelled hnew hagain hthere
      have hbytes : Utf8.encode (spelled ++ c :: rest) =
          Utf8.encode spelled ++ (Utf8.encodeChar c ++ Utf8.encode rest) :=
        List.flatMap_append
      rw [← hbytes] at hoffends
      exact hoffends.readAfter_eq (written ++ more)

/-! ## What is read from a command line -/

/-- The reader of command lines gives back what was written. It accepts exactly the command lines
that write different flags and then the operands. It refuses exactly those with an argument that
offends after flags that are fine, with the error of this argument, whatever follows. In particular
the operands come back byte for byte after two dashes, which can be left out where the first operand
cannot be a flag, and a flag that is written twice is refused. -/
theorem read_recovers (tool : Tool) :
    (∀ arguments parsed, read tool arguments = .ok parsed ↔
      ∃ written rest, arguments = written ++ rest ∧ Writes tool parsed.flags written ∧
        parsed.flags.Nodup ∧ Ends rest parsed.operands) ∧
    (∀ arguments error, read tool arguments = .error error ↔
      ∃ flags written argument after, arguments = written ++ argument :: after ∧
        Writes tool flags written ∧ flags.Nodup ∧ Offends tool flags argument error) ∧
    ∀ flags written, Writes tool flags written →
      (flags.Nodup → ∀ operands : List Bytes,
        read tool (written ++ [dash, dash] :: operands) = .ok ⟨flags, operands⟩ ∧
        ((∀ first ∈ operands.head?, first = [dash] ∨ first.head? ≠ some dash) →
          read tool (written ++ operands) = .ok ⟨flags, operands⟩)) ∧
      (¬ flags.Nodup → ∃ before flag after, flags = before ++ flag :: after ∧ before.Nodup ∧
        flag ∈ before ∧
        ∀ rest, read tool (written ++ rest) = .error (.repeatedFlag flag)) := by
  refine ⟨fun _ _ => read_eq_ok_iff, fun _ _ => read_eq_error_iff, fun flags written hwrites =>
    ⟨fun hnew operands => ⟨hwrites.read_eq_ok hnew (.dashes operands), fun hfirst => ?_⟩,
      hwrites.exists_repeated List.nodup_nil⟩⟩
  cases operands with
  | nil => exact hwrites.read_eq_ok hnew .nothing
  | cons first rest => exact hwrites.read_eq_ok hnew (.operand rest (hfirst first rfl))

/-- Such a case: a cluster and a word are read, and the operands that look like flags come back. The
same cluster is refused after its first letter. -/
theorem read_recovers_cluster_and_word :
    let written := [dash :: Utf8.encode ['R', 'm'], dash :: dash :: Utf8.encode ['s', 'e', 't']]
    let operands := [[dash, dash], dash :: Utf8.encode ['x'], [0xFF]]
    Writes .setfacl [.recursive, .merge, .replace] written ∧
      read .setfacl (written ++ [dash, dash] :: operands) =
        .ok ⟨[.recursive, .merge, .replace], operands⟩ ∧
      ∃ flag, ∀ rest,
        read .setfacl (((dash :: Utf8.encode ['R']) :: written) ++ rest) =
          .error (.repeatedFlag flag) := by
  intro written operands
  have hrecursive : Tool.setfacl.HasLetter .recursive 'R' := ⟨by decide, rfl⟩
  have hmerge : Tool.setfacl.HasLetter .merge 'm' := ⟨by decide, rfl⟩
  have hreplace : Tool.setfacl.HasWord .replace ['s', 'e', 't'] := ⟨by decide, rfl⟩
  have hwritten : Writes .setfacl [.recursive, .merge, .replace] written :=
    .cluster (List.cons_ne_nil _ _) (.cons hrecursive (.cons hmerge .nil)) (.word hreplace .nothing)
  have htwice : Writes .setfacl [.recursive, .recursive, .merge, .replace]
      ((dash :: Utf8.encode ['R']) :: written) :=
    .cluster (List.cons_ne_nil _ _) (.cons hrecursive .nil) hwritten
  obtain ⟨before, flag, after, -, -, -, hread⟩ :=
    ((read_recovers .setfacl).2.2 _ _ htwice).2 (by decide)
  exact ⟨hwritten, (((read_recovers .setfacl).2.2 _ _ hwritten).1 (by decide) operands).1, flag,
    hread⟩

end Arguments

end PosixAcl
