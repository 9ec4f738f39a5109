import PosixAcl.Proofs.Text.Utf8

/-!
# Reading UTF-8 is undone by writing it

Bytes that read as a text are the bytes of this text, so each text has one form in
bytes. It is enough to see that a character which the reader completes at the front
was written there. What does not begin with the bytes of a character begins with a
malformed piece.
-/

namespace PosixAcl.Utf8

variable {bytes : Bytes} {c : Char} {pieces : List (Option Char)}

/-! ## Characters of known numbers -/

/-- A number in the range of Unicode that is no surrogate is the value of its character. -/
private theorem toNat_charOfNat {n : Nat} (h : n < 0xD800 ∨ 0xDFFF < n ∧ n < 0x110000) :
    (Char.ofNat n).toNat = n := by
  have hvalid : n.isValidChar := h
  rw [Char.ofNat, dif_pos hvalid]
  rfl

/-- The byte of a number is the byte with this value. -/
private theorem ofNat_eq {n : Nat} {b : UInt8} (h : n = b.toNat) : UInt8.ofNat n = b := by
  rw [h, UInt8.ofNat_toNat]

/-- A byte below 128 is written for its own number. -/
private theorem encodeChar_one {a : UInt8} (ha : a.toNat < 0x80) :
    encodeChar (Char.ofNat a.toNat) = [a] := by
  have hvalue := toNat_charOfNat (n := a.toNat) (by omega)
  simp only [encodeChar, hvalue]
  rw [if_pos ha, ofNat_eq rfl]

/-- Two bytes are written for the number that is read from them. -/
private theorem encodeChar_two {a b : UInt8} (ha : 0xC2 ≤ a.toNat) (ha' : a.toNat < 0xE0)
    (hb : 0x80 ≤ b.toNat) (hb' : b.toNat ≤ 0xBF) :
    encodeChar (Char.ofNat ((a.toNat - 0xC0) * 0x40 + (b.toNat - 0x80))) = [a, b] := by
  generalize hn : (a.toNat - 0xC0) * 0x40 + (b.toNat - 0x80) = n
  have hvalue := toNat_charOfNat (n := n) (by omega)
  simp only [encodeChar, hvalue]
  rw [if_neg (by omega), if_pos (by omega), ofNat_eq (b := a) (by omega),
    ofNat_eq (b := b) (by omega)]

/-- Three bytes are written for the number that is read from them. -/
private theorem encodeChar_three {a b d : UInt8} (ha : 0xE0 ≤ a.toNat) (ha' : a.toNat < 0xF0)
    (hb : (if a.toNat = 0xE0 then 0xA0 else 0x80) ≤ b.toNat)
    (hb' : b.toNat ≤ if a.toNat = 0xED then 0x9F else 0xBF) (hd : 0x80 ≤ d.toNat)
    (hd' : d.toNat ≤ 0xBF) :
    encodeChar (Char.ofNat (((a.toNat - 0xE0) * 0x40 + (b.toNat - 0x80)) * 0x40 +
      (d.toNat - 0x80))) = [a, b, d] := by
  have hb_ge : 0x80 ≤ b.toNat ∧ (a.toNat = 0xE0 → 0xA0 ≤ b.toNat) := by split at hb <;> omega
  have hb_le : b.toNat ≤ 0xBF ∧ (a.toNat = 0xED → b.toNat ≤ 0x9F) := by split at hb' <;> omega
  generalize hn : ((a.toNat - 0xE0) * 0x40 + (b.toNat - 0x80)) * 0x40 + (d.toNat - 0x80) = n
  have hvalue := toNat_charOfNat (n := n) (by omega)
  simp only [encodeChar, hvalue]
  rw [if_neg (by omega), if_neg (by omega), if_pos (by omega), ofNat_eq (b := a) (by omega),
    ofNat_eq (b := b) (by omega), ofNat_eq (b := d) (by omega)]

/-- Four bytes are written for the number that is read from them. -/
private theorem encodeChar_four {a b d e : UInt8} (ha : 0xF0 ≤ a.toNat) (ha' : a.toNat < 0xF5)
    (hb : (if a.toNat = 0xF0 then 0x90 else 0x80) ≤ b.toNat)
    (hb' : b.toNat ≤ if a.toNat = 0xF4 then 0x8F else 0xBF) (hd : 0x80 ≤ d.toNat)
    (hd' : d.toNat ≤ 0xBF) (he : 0x80 ≤ e.toNat) (he' : e.toNat ≤ 0xBF) :
    encodeChar (Char.ofNat ((((a.toNat - 0xF0) * 0x40 + (b.toNat - 0x80)) * 0x40 +
      (d.toNat - 0x80)) * 0x40 + (e.toNat - 0x80))) = [a, b, d, e] := by
  have hb_ge : 0x80 ≤ b.toNat ∧ (a.toNat = 0xF0 → 0x90 ≤ b.toNat) := by split at hb <;> omega
  have hb_le : b.toNat ≤ 0xBF ∧ (a.toNat = 0xF4 → b.toNat ≤ 0x8F) := by split at hb' <;> omega
  generalize hn : (((a.toNat - 0xF0) * 0x40 + (b.toNat - 0x80)) * 0x40 + (d.toNat - 0x80)) *
    0x40 + (e.toNat - 0x80) = n
  have hvalue := toNat_charOfNat (n := n) (by omega)
  simp only [encodeChar, hvalue]
  rw [if_neg (by omega), if_neg (by omega), if_neg (by omega), ofNat_eq (b := a) (by omega),
    ofNat_eq (b := b) (by omega), ofNat_eq (b := d) (by omega), ofNat_eq (b := e) (by omega)]

/-! ## What the reader has completed -/

/-- The last byte of a character that was completed lies in the range in which it had to. -/
private theorem exists_last {value low high : Nat}
    (h : scanFrom (.inside value low high 0) bytes = some c :: pieces) :
    ∃ b rest, bytes = b :: rest ∧ low ≤ b.toNat ∧ b.toNat ≤ high ∧
      c = Char.ofNat (value * 0x40 + (b.toNat - 0x80)) ∧ scanFrom .start rest = pieces := by
  cases bytes with
  | nil => simp [scanFrom] at h
  | cons b rest =>
    rw [scanFrom_cons] at h
    by_cases hrange : low ≤ b.toNat ∧ b.toNat ≤ high
    · simp only [step, if_pos hrange, List.cons_append, List.nil_append, List.cons.injEq,
        Option.some.injEq] at h
      exact ⟨b, rest, rfl, hrange.1, hrange.2, h.1.symm, h.2⟩
    · simp [step, hrange] at h

/-- Any other byte of a character that was completed lies in its range too, and the character goes
on after it. -/
private theorem exists_more {value low high more : Nat}
    (h : scanFrom (.inside value low high (more + 1)) bytes = some c :: pieces) :
    ∃ b rest, bytes = b :: rest ∧ low ≤ b.toNat ∧ b.toNat ≤ high ∧
      scanFrom (.inside (value * 0x40 + (b.toNat - 0x80)) 0x80 0xBF more) rest =
        some c :: pieces := by
  cases bytes with
  | nil => simp [scanFrom] at h
  | cons b rest =>
    rw [scanFrom_cons] at h
    by_cases hrange : low ≤ b.toNat ∧ b.toNat ≤ high
    · simp only [step, if_pos hrange, List.nil_append] at h
      exact ⟨b, rest, rfl, hrange.1, hrange.2, h⟩
    · simp [step, hrange] at h

/-- A character that was read at the front was written there. -/
theorem exists_of_scan_eq_cons (h : scan bytes = some c :: pieces) :
    ∃ rest, bytes = encodeChar c ++ rest ∧ scan rest = pieces := by
  unfold scan at h ⊢
  cases bytes with
  | nil => simp [scanFrom] at h
  | cons a rest =>
    rw [scanFrom_cons, step, first] at h
    -- The first byte says how many bytes there are, or that it begins no character.
    split at h
    · rename_i hone
      simp only [List.cons_append, List.nil_append, List.cons.injEq, Option.some.injEq] at h
      obtain ⟨rfl, hrest⟩ := h
      exact ⟨rest, (congrArg (· ++ rest) (encodeChar_one hone)).symm, hrest⟩
    split at h
    · simp at h
    split at h
    · rw [List.nil_append] at h
      obtain ⟨b, rest, rfl, hb, hb', hc, hrest⟩ := exists_last h
      have hchar := encodeChar_two (a := a) (by omega) (by omega) hb hb'
      rw [← hc] at hchar
      exact ⟨rest, (congrArg (· ++ rest) hchar).symm, hrest⟩
    split at h
    · rw [List.nil_append] at h
      obtain ⟨b, rest, rfl, hb, hb', h⟩ := exists_more h
      obtain ⟨d, rest, rfl, hd, hd', hc, hrest⟩ := exists_last h
      have hchar := encodeChar_three (a := a) (by omega) (by omega) hb hb' hd hd'
      rw [← hc] at hchar
      exact ⟨rest, (congrArg (· ++ rest) hchar).symm, hrest⟩
    split at h
    · rw [List.nil_append] at h
      obtain ⟨b, rest, rfl, hb, hb', h⟩ := exists_more h
      obtain ⟨d, rest, rfl, hd, hd', h⟩ := exists_more h
      obtain ⟨e, rest, rfl, he, he', hc, hrest⟩ := exists_last h
      have hchar := encodeChar_four (a := a) (by omega) (by omega) hb hb' hd hd' he he'
      rw [← hc] at hchar
      exact ⟨rest, (congrArg (· ++ rest) hchar).symm, hrest⟩
    · simp at h

/-- Reading on inside a character always yields something. -/
private theorem scanFrom_inside_ne_nil (value low high more : Nat) (bytes : Bytes) :
    scanFrom (.inside value low high more) bytes ≠ [] := by
  induction bytes generalizing value low high more with
  | nil => simp [scanFrom]
  | cons b rest ih =>
    rw [scanFrom_cons, step]
    split
    · cases more with
      | zero => simp
      | succ more => exact ih _ _ _ _
    · simp

/-- A first byte yields a piece, or a character is unfinished after it. -/
private theorem first_cases (b : Nat) :
    (first b).1 ≠ [] ∨ ∃ value low high more, (first b).2 = .inside value low high more := by
  unfold first
  split
  · exact Or.inl (List.cons_ne_nil _ _)
  split
  · exact Or.inl (List.cons_ne_nil _ _)
  split
  · exact Or.inr ⟨_, _, _, _, rfl⟩
  split
  · exact Or.inr ⟨_, _, _, _, rfl⟩
  split
  · exact Or.inr ⟨_, _, _, _, rfl⟩
  · exact Or.inl (List.cons_ne_nil _ _)

/-- Only from no bytes nothing is read. -/
theorem scan_eq_nil_iff : scan bytes = [] ↔ bytes = [] := by
  refine ⟨fun h => ?_, fun h => h ▸ rfl⟩
  cases bytes with
  | nil => rfl
  | cons b rest =>
    rw [scan, scanFrom_cons, step, List.append_eq_nil_iff] at h
    rcases first_cases b.toNat with hpieces | ⟨value, low, high, more, hinside⟩
    · exact absurd h.1 hpieces
    · rw [hinside] at h
      exact absurd h.2 (scanFrom_inside_ne_nil _ _ _ _ _)

/-! ## Texts and malformed bytes -/

/-- Bytes that read as the characters of a text are the bytes of this text. -/
theorem eq_encode_of_scan {s : Text} (h : scan bytes = s.map some) : bytes = encode s := by
  induction s generalizing bytes with
  | nil => exact scan_eq_nil_iff.mp h
  | cons c rest ih =>
    obtain ⟨after, rfl, hafter⟩ := exists_of_scan_eq_cons h
    rw [ih hafter]
    rfl

/-- Pieces make up a text if none of them is malformed. -/
theorem mapM_id_eq_some_iff {s : Text} : pieces.mapM id = some s ↔ pieces = s.map some := by
  induction pieces generalizing s with
  | nil => cases s <;> simp
  | cons piece rest ih =>
    cases piece with
    | none => cases s <;> simp [List.mapM_cons]
    | some c =>
      have hfirst : (some c :: rest).mapM id = (rest.mapM id).map (c :: ·) := by
        rw [List.mapM_cons]
        cases rest.mapM id <;> rfl
      rw [hfirst, Option.map_eq_some_iff]
      constructor
      · rintro ⟨found, hfound, rfl⟩
        rw [ih.mp hfound, List.map_cons]
      · intro h
        cases s with
        | nil => cases h
        | cons d others =>
          obtain ⟨hc, hrest⟩ := List.cons.inj h
          cases hc
          exact ⟨others, ih.mpr hrest, rfl⟩

/-- Bytes read as a text exactly if they are the bytes of this text. -/
theorem decode?_eq_some_iff {s : Text} : decode? bytes = some s ↔ bytes = encode s := by
  constructor
  · exact fun h => eq_encode_of_scan (mapM_id_eq_some_iff.mp h)
  · rintro rfl
    exact decode?_encode s

/-- Two texts with the same bytes are the same text. -/
theorem encode_injective {s t : Text} (h : encode s = encode t) : s = t := by
  have hdecoded := congrArg decode? h
  rwa [decode?_encode, decode?_encode, Option.some.injEq] at hdecoded

/-- Bytes read as no text exactly if they are not the bytes of one. -/
theorem decode?_eq_none_iff : decode? bytes = none ↔ ∀ s, bytes ≠ encode s := by
  simp only [Option.eq_none_iff_forall_ne_some, ne_eq, decode?_eq_some_iff]

/-- Some bytes begin with a malformed piece: there are any, and they do not begin with those of a
character. -/
def BeginsMalformed (bytes : Bytes) : Prop :=
  bytes ≠ [] ∧ ∀ c rest, bytes ≠ encodeChar c ++ rest

/-- The reader finds a malformed piece first exactly if the bytes begin with one. -/
theorem beginsMalformed_iff : BeginsMalformed bytes ↔ ∃ pieces, scan bytes = none :: pieces := by
  constructor
  · rintro ⟨hne, hfirst⟩
    match hscan : scan bytes with
    | [] => exact absurd (scan_eq_nil_iff.mp hscan) hne
    | none :: pieces => exact ⟨pieces, rfl⟩
    | some c :: pieces =>
      obtain ⟨rest, heq, -⟩ := exists_of_scan_eq_cons hscan
      exact absurd heq (hfirst c rest)
  · rintro ⟨pieces, hscan⟩
    refine ⟨?_, ?_⟩
    · rintro rfl
      cases hscan
    · rintro c rest rfl
      rw [scan, scanFrom_encodeChar] at hscan
      cases hscan

end PosixAcl.Utf8
