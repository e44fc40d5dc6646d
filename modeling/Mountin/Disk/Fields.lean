import Mountin.Detect.Reader

set_option autoImplicit false

/-! # Header fields and tables

What the constructors of the disk readers share: checks, integer fields of a header, tables of
integers and `checked_table_size`. Offsets and sizes are `u64`; a sum or product that the
source does not check is taken modulo `2^64`.
-/

namespace Mountin

/-- A check: the error when the condition fails. -/
def require (p : Prop) [Decidable p] (e : IoError) : Except IoError Unit :=
  if p then .ok () else .error e

theorem require_eq_ok {p : Prop} [Decidable p] {e : IoError} {u : Unit} :
    require p e = .ok u ↔ p := by
  unfold require
  split_ifs with h <;> simp [h]

theorem bind_eq_ok {α β : Type} {x : Except IoError α} {f : α → Except IoError β} {b : β} :
    (x >>= f) = .ok b ↔ ∃ a, x = .ok a ∧ f a = .ok b := by
  cases x <;> simp [bind, Except.bind]

/-- A `u64` result that `checked_add` or `checked_mul` accepts. -/
def checked (n : Nat) (e : IoError) : Except IoError Nat :=
  if n < 2 ^ 64 then .ok n else .error e

theorem checked_eq_ok {n m : Nat} {e : IoError} : checked n e = .ok m ↔ n < 2 ^ 64 ∧ n = m := by
  unfold checked
  split_ifs with h
  · simp only [Except.ok.injEq, h, true_and]
  · simp only [reduceCtorEq, h, false_and]

/-- Unchecked `u64` arithmetic. -/
def wrap (n : Nat) : Nat := n % 2 ^ 64

/-- The bytes of a read that has to come back at its full length. -/
def readExactly (r : Reader) (off len : Nat) (e : IoError) : Except IoError Bytes := do
  let buf ← r.readAt off len
  require (buf.length = len) e
  return buf

/-- A buffer of `len` zeros after a read into it. -/
def readPadded (r : Reader) (off len : Nat) : Except IoError Bytes := do
  let buf ← r.readAt off len
  return buf ++ List.replicate (len - buf.length) 0

/-- The little-endian integer of `width` bytes at an offset. -/
def leField (b : Bytes) (off width : Nat) : Nat := Bytes.le (b.slice off width)

theorem leField_lt (b : Bytes) (off width : Nat) : leField b off width < 256 ^ width := by
  refine (Bytes.le_lt _).trans_le (Nat.pow_le_pow_right (by omega) ?_)
  rw [List.length_slice]
  omega

/-- The big-endian integer of `width` bytes at an offset. -/
def beField (b : Bytes) (off width : Nat) : Nat := Bytes.be (b.slice off width)

theorem beField_lt (b : Bytes) (off width : Nat) : beField b off width < 256 ^ width := by
  refine (Bytes.be_lt _).trans_le (Nat.pow_le_pow_right (by omega) ?_)
  rw [List.length_slice]
  omega

/-- The entries of a table of integers of `width` bytes: `chunks_exact(width)`. -/
def tableOf (field : Bytes → Nat → Nat → Nat) (width : Nat) (data : Bytes) : List Nat :=
  (List.range (data.length / width)).map (fun i => field data (i * width) width)

/-- `is_power_of_two`. -/
def isPowerOfTwo (n : Nat) : Bool := n != 0 && n &&& (n - 1) == 0

/-- `MAX_TABLE_SIZE`. -/
def MAX_TABLE_SIZE : Nat := 64 * 1024 * 1024

/-- `checked_table_size`: the bytes of a table that may be allocated and lies in the image. -/
def checkedTableSize (r : Reader) (offset entries entrySize : Nat) : Except IoError Nat := do
  let bytes := entries * entrySize
  require (bytes < 2 ^ 64 ∧ bytes ≤ MAX_TABLE_SIZE)
    (.invalidData "container metadata table too large")
  let fin ← checked (offset + bytes) (.invalidData "container metadata offset overflow")
  require (∀ size ∈ r.size, fin ≤ size)
    (.unexpectedEof "container metadata table extends past end of image")
  return bytes

/-- A decoder over compressed bytes: `read_exact` of so many bytes of the decoded stream. -/
abbrev ReadExact := Bytes → Nat → Except IoError Bytes

/-- The decompressors that the disk readers call. -/
structure Decoders where
  deflate : ReadExact
  zlib : ReadExact
  bzip2 : ReadExact
  /-- `lzfse::decode_buffer` into a buffer of so many bytes: the bytes it decoded. -/
  lzfse : Bytes → Nat → Option Bytes

/-- `zlib_bound`. -/
def zlibBound (size : Nat) : Nat :=
  size + size / 2 ^ 12 + size / 2 ^ 14 + size / 2 ^ 25 + 13

end Mountin
