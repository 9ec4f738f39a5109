import PosixAcl.Store.Error

/-!
# Outputs of limited size

An output keeps the bytes that are written to it, in order, up to a capacity. A write that does not
fit keeps what fits and fails, and from then on only empty writes succeed.
-/

namespace PosixAcl

/-- An output with the bytes that it has kept. -/
structure Output where
  /-- The bytes that were written so far, as far as they fitted. -/
  kept : Bytes := []
  /-- The greatest number of bytes that are kept, if there is a limit. -/
  capacity : Option Nat := none
  /-- Whether flushing fails. -/
  flushFails : Bool := false
deriving DecidableEq, Repr

namespace Output

/-- The bytes, out of some that are to be written, that still fit. -/
def fitting (out : Output) (bytes : Bytes) : Bytes :=
  match out.capacity with
  | none => bytes
  | some capacity => bytes.take (capacity - out.kept.length)

/-- Writes some bytes. -/
def write (out : Output) (bytes : Bytes) : Except SystemError Unit × Output :=
  let fitting := out.fitting bytes
  (if fitting.length = bytes.length then .ok () else .error .brokenPipe,
    { out with kept := out.kept ++ fitting })

/-- Writes several pieces one after the other, up to the first one that fails. -/
def writeAll (out : Output) : List Bytes → Except SystemError Unit × Output
  | [] => (.ok (), out)
  | piece :: rest =>
    match out.write piece with
    | (.ok (), out) => out.writeAll rest
    | (.error error, out) => (.error error, out)

/-- Writes several texts one after the other. -/
def writeTexts (out : Output) (texts : List Text) : Except SystemError Unit × Output :=
  out.writeAll (texts.map Utf8.encode)

/-- Writes several lines, each with a newline after it. -/
def writeLines (out : Output) (lines : List Text) : Except SystemError Unit × Output :=
  out.writeTexts (lines.flatMap fun line => [line, ['\n']])

/-- Hands on what was written. -/
def flush (out : Output) : Except SystemError Unit :=
  if out.flushFails then .error .brokenPipe else .ok ()

end Output

end PosixAcl
