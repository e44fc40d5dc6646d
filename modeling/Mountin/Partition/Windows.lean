import Mountin.Detect.Tree
import Mountin.Disk.Tracks

set_option autoImplicit false

/-! # Children of a partition table

What the readers of `container/pt` share: integers of the table, and partitions as windows of the
image.
-/

namespace Mountin.Partition

open Tracks (readLe readBe)

/-- `SECTOR_SIZE`. -/
def SECTOR_SIZE : Nat := 512

/-- A partition: the window of so many bytes from an offset on. -/
def window (index offset length : Nat) : Child where
  index := UInt32.ofNat index
  offset := offset
  view := .slice offset length

/-- Partitions, numbered from an index on. -/
def numbered (index : Nat) (windows : List (Nat × Nat)) : List Child :=
  windows.mapIdx fun i w => window (index + i) w.1 w.2

theorem numbered_cons (index : Nat) (w : Nat × Nat) (windows : List (Nat × Nat)) :
    numbered index (w :: windows) = window index w.1 w.2 :: numbered (index + 1) windows := by
  rw [numbered, List.mapIdx_cons, numbered]
  simp only [Nat.add_zero, Nat.add_assoc, Nat.add_comm 1]

/-- Unchecked `u64` subtraction. -/
def wrapSub (a b : Nat) : Nat := wrap (a + 2 ^ 64 - b)

/-- `u64` arithmetic that stays below `2^64` is exact. -/
theorem wrap_of_lt {n : Nat} (h : n < 2 ^ 64) : wrap n = n := Nat.mod_eq_of_lt h

section

variable {r : Reader} {width off n : Nat}

theorem readBytes_eq_ok {buf : Bytes} (h : Tracks.readBytes r off width = .ok buf) :
    buf.length = width := by
  obtain ⟨b, -, h⟩ := bind_eq_ok.mp h
  obtain ⟨_, hlength, h⟩ := bind_eq_ok.mp h
  exact Except.ok.inj h ▸ require_eq_ok.mp hlength

theorem readLe_lt (h : readLe r width off = .ok n) : n < 256 ^ width := by
  obtain ⟨buf, hbuf, h⟩ := bind_eq_ok.mp h
  rw [← Except.ok.inj h, ← readBytes_eq_ok hbuf]
  exact Bytes.le_lt buf

theorem readBe_lt (h : readBe r width off = .ok n) : n < 256 ^ width := by
  obtain ⟨buf, hbuf, h⟩ := bind_eq_ok.mp h
  rw [← Except.ok.inj h, ← readBytes_eq_ok hbuf]
  exact Bytes.be_lt buf

/-- A field of an image file that is there. -/
theorem readLe_fileReader {image : Image} (h : off + width ≤ image.bytes.length) (hwidth : 0 < width) :
    readLe (fileReader image) width off = .ok (leField image.bytes off width) := by
  have hsmall := image.small
  simp only [FILE_OFFSET_LIMIT] at hsmall
  rw [readLe, Tracks.readBytes, wrap_of_lt (by omega), readExactly_slice _ h hwidth]
  rfl

end

end Mountin.Partition
