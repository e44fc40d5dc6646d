import Mathlib.Tactic

set_option autoImplicit false

/-! # Byte strings

Slices of a list by offset and length, as positional reads return them, and the integers a
byte string encodes in little- and big-endian order.
-/

/-- A byte string. -/
abbrev Bytes := List UInt8

namespace List

variable {α : Type}

/-- The at most `len` elements of `d` from position `off` on. -/
def slice (d : List α) (off len : Nat) : List α := (d.drop off).take len

theorem length_slice (d : List α) (off len : Nat) :
    (d.slice off len).length = min len (d.length - off) := by
  simp [slice]

theorem slice_eq_nil {d : List α} {off : Nat} (len : Nat) (h : d.length ≤ off) :
    d.slice off len = [] := by
  simp [slice, List.drop_eq_nil_of_le h]

theorem getElem?_slice (d : List α) (off len i : Nat) :
    (d.slice off len)[i]? = if i < len then d[off + i]? else none := by
  by_cases h : i < len
  · rw [if_pos h, slice, List.getElem?_take_of_lt h, List.getElem?_drop]
  · rw [if_neg h, slice, List.getElem?_take_eq_none (Nat.le_of_not_lt h)]

/-- A slice comes out at its full length exactly when it lies within the list. -/
theorem length_slice_eq_iff {d : List α} {off len : Nat} (hlen : 0 < len) :
    (d.slice off len).length = len ↔ off + len ≤ d.length := by
  rw [length_slice]
  omega

/-- A slice of a slice starts at the sum of the offsets. -/
theorem slice_slice (d : List α) (off len off' len' : Nat) :
    (d.slice off len).slice off' len' = d.slice (off + off') (min len' (len - off')) := by
  simp only [slice, List.drop_take, List.drop_drop, List.take_take]

theorem slice_min_length (d : List α) (off len : Nat) :
    d.slice off (min len (d.length - off)) = d.slice off len := by
  apply List.ext_getElem?
  intro i
  rw [getElem?_slice, getElem?_slice]
  by_cases h : i < len
  · by_cases h' : off + i < d.length
    · rw [if_pos (by omega), if_pos h]
    · rw [if_pos h, List.getElem?_eq_none (Nat.le_of_not_lt h')]
      exact ite_self none
  · rw [if_neg (by omega), if_neg h]

end List

namespace Bytes

/-- The integer a byte string encodes, least significant byte first. -/
def le : Bytes → Nat
  | [] => 0
  | b :: bs => b.toNat + 256 * le bs

/-- The integer a byte string encodes, most significant byte first. -/
def be (bs : Bytes) : Nat := le bs.reverse

theorem le_lt (bs : Bytes) : le bs < 256 ^ bs.length := by
  induction bs with
  | nil => simp [le]
  | cons b bs ih =>
      have hb : b.toNat < 256 := b.toNat_lt
      rw [le, List.length_cons, pow_succ]
      omega

/-- A number below 256 in one byte. -/
theorem le_ofNat {n : Nat} (h : n < 256) : le [UInt8.ofNat n] = n := by
  rw [le, le, UInt8.toNat_ofNat', Nat.mod_eq_of_lt h]
  omega

/-- A number below 65536 in two bytes. -/
theorem le_ofNat_ofNat {n : Nat} (h : n < 65536) :
    le [UInt8.ofNat (n % 256), UInt8.ofNat (n / 256 % 256)] = n := by
  rw [le, le_ofNat (Nat.mod_lt _ (by omega)), UInt8.toNat_ofNat', Nat.mod_mod]
  omega

theorem be_lt (bs : Bytes) : be bs < 256 ^ bs.length := by
  simpa [be] using le_lt bs.reverse

end Bytes
