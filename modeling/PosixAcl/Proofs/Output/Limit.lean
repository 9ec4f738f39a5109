import PosixAcl.Proofs.Output.Unlimited

/-!
# Outputs with a limit

An output with a limit keeps the first bytes of what an output without one keeps.
As long as everything fits there is no other difference. The first piece that does
not fit is cut off, and the write fails.
-/

namespace PosixAcl

namespace Output

/-- The output that keeps only the first bytes of what another one keeps. -/
def limit (out : Output) (n : Nat) : Output :=
  { out with kept := out.kept.take n, capacity := some n }

/-- A later state of an output: it may have kept more, and nothing else is different. -/
structure Grows (out later : Output) : Prop where
  /-- What was kept before is still there. -/
  kept : out.kept <+: later.kept
  /-- The limit is the same. -/
  capacity : later.capacity = out.capacity
  /-- Flushing fails as before. -/
  flushFails : later.flushFails = out.flushFails

/-- A limit that is set twice is set once. -/
theorem limit_limit (out : Output) (n : Nat) : (out.limit n).limit n = out.limit n := by
  simp [limit, List.take_take]

variable {out later last : Output}

theorem Grows.refl (out : Output) : out.Grows out :=
  ⟨List.prefix_rfl, rfl, rfl⟩

theorem Grows.trans (h : out.Grows later) (hlast : later.Grows last) : out.Grows last where
  kept := h.kept.trans hlast.kept
  capacity := hlast.capacity.trans h.capacity
  flushFails := hlast.flushFails.trans h.flushFails

/-- Where flushing works, it works later. -/
theorem Grows.flush_eq_ok (h : out.Grows later) (hflush : out.flushFails = false) :
    later.flush = .ok () := by
  rw [flush, h.flushFails, hflush]
  rfl

/-- A write adds to an output. -/
theorem grows_write (out : Output) (bytes : Bytes) : out.Grows (out.write bytes).2 :=
  ⟨List.prefix_append _ _, rfl, rfl⟩

/-- Several writes add to an output. -/
theorem grows_writeAll (out : Output) (pieces : List Bytes) :
    out.Grows (out.writeAll pieces).2 := by
  induction pieces generalizing out with
  | nil => exact .refl out
  | cons piece rest ih =>
    have hfirst := out.grows_write piece
    rw [writeAll]
    cases hwrite : out.write piece with
    | mk result written =>
      rw [hwrite] at hfirst
      cases result with
      | error error => exact hfirst
      | ok => exact hfirst.trans (ih written)

/-- Texts that are written add to an output. -/
theorem grows_writeTexts (out : Output) (texts : List Text) :
    out.Grows (out.writeTexts texts).2 :=
  out.grows_writeAll _

/-- A write to an output with a limit keeps what is within the limit. -/
theorem write_limit (out : Output) (n : Nat) (bytes : Bytes) :
    ((out.limit n).write bytes).2 = limit { out with kept := out.kept ++ bytes } n := by
  have hroom : n - (out.kept.take n).length = n - out.kept.length := by
    rw [List.length_take]
    omega
  simp only [write, fitting, limit, hroom, List.take_append]

/-- A write to an output with a limit fails if there is no room for all of it. -/
theorem write_limit_fst {n : Nat} (hfits : out.kept.length ≤ n) (bytes : Bytes) :
    ((out.limit n).write bytes).1 =
      if (out.kept ++ bytes).length ≤ n then .ok () else .error .brokenPipe := by
  have hroom : (bytes.take (n - (out.kept.take n).length)).length = bytes.length ↔
      (out.kept ++ bytes).length ≤ n := by
    rw [List.length_take, List.length_take, List.length_append]
    omega
  simp only [write, fitting, limit, hroom]

/-- Several writes to an output with a limit keep what is within the limit. -/
theorem writeAll_limit (out : Output) (n : Nat) (pieces : List Bytes) :
    ((out.limit n).writeAll pieces).2 =
      limit { out with kept := out.kept ++ pieces.flatten } n := by
  induction pieces generalizing out with
  | nil => simp [writeAll]
  | cons piece rest ih =>
    have hfirst := out.write_limit n piece
    rw [writeAll]
    cases hwrite : (out.limit n).write piece with
    | mk result written =>
      rw [hwrite] at hfirst
      obtain rfl : written = _ := hfirst
      cases result with
      | ok =>
        rw [List.flatten_cons, ← List.append_assoc]
        exact ih _
      | error error =>
        -- Nothing after the piece that was cut off is within the limit.
        have hcut : n ≤ (out.kept ++ piece).length := by
          refine (Nat.lt_or_ge (out.kept ++ piece).length n).resolve_left fun hless => ?_
          have hbefore : out.kept.length ≤ n := by
            rw [List.length_append] at hless
            omega
          have hok := write_limit_fst hbefore piece
          rw [hwrite, if_pos (Nat.le_of_lt hless)] at hok
          cases hok
        simp only [limit, List.flatten_cons, ← List.append_assoc,
          List.take_append_of_le_length hcut]

/-- Several writes to an output with a limit fail if there is no room for all of them. -/
theorem writeAll_limit_fst {n : Nat} (hfits : out.kept.length ≤ n) (pieces : List Bytes) :
    ((out.limit n).writeAll pieces).1 =
      if (out.kept ++ pieces.flatten).length ≤ n then .ok () else .error .brokenPipe := by
  induction pieces generalizing out with
  | nil => simp [writeAll, hfits]
  | cons piece rest ih =>
    have hwritten := out.write_limit n piece
    have hresult := write_limit_fst hfits piece
    rw [writeAll, List.flatten_cons, ← List.append_assoc]
    cases hwrite : (out.limit n).write piece with
    | mk result written =>
      rw [hwrite] at hwritten hresult
      obtain rfl : written = _ := hwritten
      obtain rfl : result = _ := hresult
      by_cases hroom : (out.kept ++ piece).length ≤ n
      · rw [if_pos hroom]
        exact ih hroom
      · have hmore : ¬ ((out.kept ++ piece) ++ rest.flatten).length ≤ n := by
          rw [List.length_append]
          omega
        rw [if_neg hroom, if_neg hmore]

/-- Texts written to an output with a limit are cut off at the limit, and then the write fails. -/
theorem writeTexts_limit {n : Nat} (hfits : out.kept.length ≤ n) (texts : List Text) :
    (out.limit n).writeTexts texts =
      (if (out.kept ++ Utf8.encode texts.flatten).length ≤ n then .ok () else .error .brokenPipe,
        limit { out with kept := out.kept ++ Utf8.encode texts.flatten } n) := by
  rw [writeTexts, Utf8.encode_flatten]
  exact Prod.ext (writeAll_limit_fst hfits _) (out.writeAll_limit n _)

/-- Texts written to an output with a limit are cut off at the limit, also if it was passed before.
Unless nothing is written, the write fails from then on. -/
theorem writeTexts_limit_of_ne_nil (out : Output) (n : Nat) {texts : List Text}
    (hne : Utf8.encode texts.flatten ≠ []) :
    (out.limit n).writeTexts texts =
      (if (out.kept ++ Utf8.encode texts.flatten).length ≤ n then .ok () else .error .brokenPipe,
        limit { out with kept := out.kept ++ Utf8.encode texts.flatten } n) := by
  have hkept : (out.limit n).kept.length = min n out.kept.length := List.length_take
  have hpos := List.length_pos_iff.mpr hne
  have hroom : ((out.limit n).kept ++ Utf8.encode texts.flatten).length ≤ n ↔
      (out.kept ++ Utf8.encode texts.flatten).length ≤ n := by
    rw [List.length_append, List.length_append, hkept]
    omega
  have hresult : (((out.limit n).limit n).writeAll (texts.map Utf8.encode)).1 = _ :=
    writeAll_limit_fst (hkept ▸ Nat.min_le_left _ _) _
  have hwritten := out.writeAll_limit n (texts.map Utf8.encode)
  rw [limit_limit] at hresult
  rw [← Utf8.encode_flatten] at hresult hwritten
  simp only [hroom] at hresult
  exact Prod.ext hresult hwritten

end Output

end PosixAcl
