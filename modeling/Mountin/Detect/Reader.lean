import Mountin.Basic.Bytes

set_option autoImplicit false

/-! # Positional readers

The `Reader` trait of the detection engine and its three elementary implementations: an
image file, bytes held in memory, and a window of another reader. A read returns the bytes
it stored at the front of the caller's buffer; their number is the count `read_at` returns.
-/

namespace Mountin

/-- The error of a failed operation: `io::ErrorKind` with the message, or a panic of the
operation itself (an index or a length out of range). -/
inductive IoError where
  | unexpectedEof (message : String)
  | invalidData (message : String)
  | invalidInput (message : String)
  | unsupported (message : String)
  | other (message : String)
  | panic
  deriving DecidableEq, Repr

/-- `trait Reader`: `readAt offset len` is `read_at` at `offset` with a buffer of `len` bytes. -/
structure Reader where
  readAt : Nat → Nat → Except IoError Bytes
  size : Option Nat

/-- `BytesReader`: bytes held in memory. -/
def bytesReader (data : Bytes) : Reader where
  readAt offset len :=
    if data.length ≤ offset then .ok []
    else .ok (data.slice offset (min len (data.length - offset)))
  size := some data.length

theorem bytesReader_readAt (data : Bytes) (offset len : Nat) :
    (bytesReader data).readAt offset len = .ok (data.slice offset len) := by
  show (if data.length ≤ offset then Except.ok []
    else Except.ok (data.slice offset (min len (data.length - offset)))) = _
  split_ifs with h
  · rw [List.slice_eq_nil len h]
  · rw [List.slice_min_length]

theorem bytesReader_size (data : Bytes) : (bytesReader data).size = some data.length := rfl

/-- The largest file offset, `i64::MAX`, plus one. -/
def FILE_OFFSET_LIMIT : Nat := 2 ^ 63

/-- An image file: its size is an `off_t`. -/
structure Image where
  bytes : Bytes
  small : bytes.length < FILE_OFFSET_LIMIT

/-- `FileReader`: `seek`, which refuses an offset that is not an `off_t`, then `read`. -/
def fileReader (image : Image) : Reader where
  readAt offset len :=
    if offset < FILE_OFFSET_LIMIT then .ok (image.bytes.slice offset len)
    else .error (.invalidInput "invalid seek offset")
  size := some image.bytes.length

theorem fileReader_readAt (image : Image) {offset : Nat} (len : Nat)
    (h : offset < FILE_OFFSET_LIMIT) :
    (fileReader image).readAt offset len = .ok (image.bytes.slice offset len) :=
  if_pos h

/-- `SliceReader`: the window of `length` bytes of `parent` from `offset` on. The sum of the
two offsets is a `u64`. -/
def sliceReader (parent : Reader) (offset length : Nat) : Reader where
  readAt off len :=
    if length ≤ off then .ok []
    else parent.readAt ((offset + off) % 2 ^ 64) (min len (length - off))
  size := some length

end Mountin
