import PosixAcl.Text.Utf8

/-!
# Reading back what was written in UTF-8

The bytes of a text read back as that text. The reader returns to its first state
after each character, so the characters can be taken one at a time.
-/

namespace PosixAcl.Utf8

/-- The bytes of joined texts are the joined bytes of the texts. -/
theorem encode_flatten (texts : List Text) :
    encode texts.flatten = (texts.map encode).flatten := by
  induction texts with
  | nil => rfl
  | cons s rest ih => simpa [encode] using ih

/-- Reading goes on with the pieces and the state after the next byte. -/
theorem scanFrom_cons (state : State) (b : UInt8) (rest : Bytes) :
    scanFrom state (b :: rest) =
      (step state b.toNat).1 ++ scanFrom (step state b.toNat).2 rest := by
  cases state <;> rfl

/-- A small number is the value of its byte. -/
private theorem toNat_ofNat {n : Nat} (h : n < 256) : (UInt8.ofNat n).toNat = n := by
  simp [UInt8.toNat_ofNat', Nat.mod_eq_of_lt h]

/-- The value of a character is in the range of Unicode and not a surrogate. -/
private theorem toNat_valid (c : Char) :
    c.toNat < 0xD800 ∨ (0xDFFF < c.toNat ∧ c.toNat < 0x110000) :=
  c.valid

/-- The last continuation byte completes a character. -/
private theorem scanFrom_last {value low high : Nat} {b : UInt8} (hlow : low ≤ b.toNat)
    (hhigh : b.toNat ≤ high) (rest : Bytes) :
    scanFrom (.inside value low high 0) (b :: rest) =
      some (Char.ofNat (value * 0x40 + (b.toNat - 0x80))) :: scanFrom .start rest := by
  rw [scanFrom_cons]
  simp [step, hlow, hhigh]

/-- Any other continuation byte is counted in and leaves one byte less to come. -/
private theorem scanFrom_more {value low high more : Nat} {b : UInt8} (hlow : low ≤ b.toNat)
    (hhigh : b.toNat ≤ high) (rest : Bytes) :
    scanFrom (.inside value low high (more + 1)) (b :: rest) =
      scanFrom (.inside (value * 0x40 + (b.toNat - 0x80)) 0x80 0xBF more) rest := by
  rw [scanFrom_cons]
  simp [step, hlow, hhigh]

/-- One byte reads as a number below 128. -/
private theorem scanFrom_one {n : Nat} (h : n < 0x80) (rest : Bytes) :
    scanFrom .start (UInt8.ofNat n :: rest) = some (Char.ofNat n) :: scanFrom .start rest := by
  have hbyte : (UInt8.ofNat n).toNat = n := toNat_ofNat (by omega)
  rw [scanFrom_cons, hbyte, step, first, if_pos h]
  rfl

/-- Two bytes read as the number that they were made of. -/
private theorem scanFrom_two {n : Nat} (hlow : 0x80 ≤ n) (hhigh : n < 0x800) (rest : Bytes) :
    scanFrom .start
        (UInt8.ofNat (0xC0 + n / 0x40) :: UInt8.ofNat (0x80 + n % 0x40) :: rest) =
      some (Char.ofNat n) :: scanFrom .start rest := by
  have hlead : (UInt8.ofNat (0xC0 + n / 0x40)).toNat = 0xC0 + n / 0x40 := toNat_ofNat (by omega)
  have hlast : (UInt8.ofNat (0x80 + n % 0x40)).toNat = 0x80 + n % 0x40 := toNat_ofNat (by omega)
  have hfirst : first (0xC0 + n / 0x40) = ([], .inside (n / 0x40) 0x80 0xBF 0) := by
    unfold first
    rw [if_neg (by omega), if_neg (by omega), if_pos (by omega), Nat.add_sub_cancel_left]
  have hvalue : n / 0x40 * 0x40 + (0x80 + n % 0x40 - 0x80) = n := by omega
  rw [scanFrom_cons, step, hlead, hfirst, List.nil_append, scanFrom_last (by omega) (by omega),
    hlast, hvalue]

/-- Three bytes read as the number that they were made of. -/
private theorem scanFrom_three {n : Nat} (hlow : 0x800 ≤ n) (hhigh : n < 0x10000)
    (hvalid : n < 0xD800 ∨ 0xDFFF < n) (rest : Bytes) :
    scanFrom .start (UInt8.ofNat (0xE0 + n / 0x1000) :: UInt8.ofNat (0x80 + n / 0x40 % 0x40) ::
        UInt8.ofNat (0x80 + n % 0x40) :: rest) =
      some (Char.ofNat n) :: scanFrom .start rest := by
  have hlead : (UInt8.ofNat (0xE0 + n / 0x1000)).toNat = 0xE0 + n / 0x1000 :=
    toNat_ofNat (by omega)
  have hmiddle : (UInt8.ofNat (0x80 + n / 0x40 % 0x40)).toNat = 0x80 + n / 0x40 % 0x40 :=
    toNat_ofNat (by omega)
  have hlast : (UInt8.ofNat (0x80 + n % 0x40)).toNat = 0x80 + n % 0x40 := toNat_ofNat (by omega)
  -- The range of the second byte excludes overlong forms and surrogates.
  have hfirst : ∃ low high, first (0xE0 + n / 0x1000) = ([], .inside (n / 0x1000) low high 1) ∧
      low ≤ 0x80 + n / 0x40 % 0x40 ∧ 0x80 + n / 0x40 % 0x40 ≤ high := by
    refine ⟨if 0xE0 + n / 0x1000 = 0xE0 then 0xA0 else 0x80,
      if 0xE0 + n / 0x1000 = 0xED then 0x9F else 0xBF, ?_, ?_, ?_⟩
    · unfold first
      rw [if_neg (by omega), if_neg (by omega), if_neg (by omega), if_pos (by omega),
        Nat.add_sub_cancel_left]
    · split <;> omega
    · split <;> omega
  obtain ⟨low, high, hfirst, hge, hle⟩ := hfirst
  have hvalue : (n / 0x1000 * 0x40 + (0x80 + n / 0x40 % 0x40 - 0x80)) * 0x40 +
      (0x80 + n % 0x40 - 0x80) = n := by omega
  rw [scanFrom_cons, step, hlead, hfirst, List.nil_append, scanFrom_more (by omega) (by omega),
    scanFrom_last (by omega) (by omega), hmiddle, hlast, hvalue]

/-- Four bytes read as the number that they were made of. -/
private theorem scanFrom_four {n : Nat} (hlow : 0x10000 ≤ n) (hhigh : n < 0x110000)
    (rest : Bytes) :
    scanFrom .start (UInt8.ofNat (0xF0 + n / 0x40000) :: UInt8.ofNat (0x80 + n / 0x1000 % 0x40) ::
        UInt8.ofNat (0x80 + n / 0x40 % 0x40) :: UInt8.ofNat (0x80 + n % 0x40) :: rest) =
      some (Char.ofNat n) :: scanFrom .start rest := by
  have hlead : (UInt8.ofNat (0xF0 + n / 0x40000)).toNat = 0xF0 + n / 0x40000 :=
    toNat_ofNat (by omega)
  have hsecond : (UInt8.ofNat (0x80 + n / 0x1000 % 0x40)).toNat = 0x80 + n / 0x1000 % 0x40 :=
    toNat_ofNat (by omega)
  have hthird : (UInt8.ofNat (0x80 + n / 0x40 % 0x40)).toNat = 0x80 + n / 0x40 % 0x40 :=
    toNat_ofNat (by omega)
  have hlast : (UInt8.ofNat (0x80 + n % 0x40)).toNat = 0x80 + n % 0x40 := toNat_ofNat (by omega)
  -- The range of the second byte excludes overlong forms and what is beyond Unicode.
  have hfirst : ∃ low high, first (0xF0 + n / 0x40000) = ([], .inside (n / 0x40000) low high 2) ∧
      low ≤ 0x80 + n / 0x1000 % 0x40 ∧ 0x80 + n / 0x1000 % 0x40 ≤ high := by
    refine ⟨if 0xF0 + n / 0x40000 = 0xF0 then 0x90 else 0x80,
      if 0xF0 + n / 0x40000 = 0xF4 then 0x8F else 0xBF, ?_, ?_, ?_⟩
    · unfold first
      rw [if_neg (by omega), if_neg (by omega), if_neg (by omega), if_neg (by omega),
        if_pos (by omega), Nat.add_sub_cancel_left]
    · split <;> omega
    · split <;> omega
  obtain ⟨low, high, hfirst, hge, hle⟩ := hfirst
  have hvalue : ((n / 0x40000 * 0x40 + (0x80 + n / 0x1000 % 0x40 - 0x80)) * 0x40 +
      (0x80 + n / 0x40 % 0x40 - 0x80)) * 0x40 + (0x80 + n % 0x40 - 0x80) = n := by omega
  rw [scanFrom_cons, step, hlead, hfirst, List.nil_append, scanFrom_more (by omega) (by omega),
    scanFrom_more (by omega) (by omega), scanFrom_last (by omega) (by omega), hsecond, hthird,
    hlast, hvalue]

/-- The bytes of a character read as that character. -/
theorem scanFrom_encodeChar (c : Char) (rest : Bytes) :
    scanFrom .start (encodeChar c ++ rest) = some c :: scanFrom .start rest := by
  have hvalid := toNat_valid c
  have hback : Char.ofNat c.toNat = c := Char.ofNat_toNat c
  unfold encodeChar
  generalize c.toNat = n at hvalid hback
  by_cases hone : n < 0x80
  · rw [if_pos hone, ← hback]
    exact scanFrom_one hone rest
  by_cases htwo : n < 0x800
  · rw [if_neg hone, if_pos htwo, ← hback]
    exact scanFrom_two (by omega) htwo rest
  by_cases hthree : n < 0x10000
  · rw [if_neg hone, if_neg htwo, if_pos hthree, ← hback]
    exact scanFrom_three (by omega) hthree (by omega) rest
  · rw [if_neg hone, if_neg htwo, if_neg hthree, ← hback]
    exact scanFrom_four (by omega) (by omega) rest

/-- The pieces of a text that is followed by other bytes are its characters and the other pieces. -/
theorem scan_encode_append (s : Text) (rest : Bytes) :
    scan (encode s ++ rest) = s.map some ++ scan rest := by
  induction s with
  | nil => rfl
  | cons c others ih =>
    calc scan (encode (c :: others) ++ rest)
        = scan (encodeChar c ++ (encode others ++ rest)) := by
          rw [encode, List.flatMap_cons, List.append_assoc]; rfl
      _ = some c :: scan (encode others ++ rest) := scanFrom_encodeChar c _
      _ = (c :: others).map some ++ scan rest := by rw [ih]; rfl

/-- The pieces of the bytes of a text are its characters. -/
theorem scan_encode (s : Text) : scan (encode s) = s.map some := by
  have hnone : scan [] = [] := rfl
  have hpieces := scan_encode_append s []
  rwa [hnone, List.append_nil, List.append_nil] at hpieces

/-- The bytes of a text read back as that text. -/
theorem decode?_encode (s : Text) : decode? (encode s) = some s := by
  rw [decode?, scan_encode]
  induction s with
  | nil => rfl
  | cons c rest ih => simp [List.mapM_cons, ih]

/-- The bytes of a text show that text. -/
theorem decodeLossy_encode (s : Text) : decodeLossy (encode s) = s := by
  have hkept : (fun piece : Option Char => piece.getD '\uFFFD') ∘ some = id := rfl
  rw [decodeLossy, replaceMalformed, scan_encode, List.map_map, hkept, List.map_id]

end PosixAcl.Utf8
