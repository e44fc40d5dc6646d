import Mountin.Partition.Arithmetic

set_option autoImplicit false

/-! # Erase blocks

What `ubi.rs` makes of the erase blocks of an image: their size is that of the first candidate at
which there is a header.

* `detectPebSize_iff` : when the size that is detected is that of the blocks.
-/

namespace Mountin.Ubi

/-! ## The size of the blocks -/

/-- An image of so many erase blocks: there is a header at the start of each of them, and none at
another boundary that is probed. -/
structure Blocks (image : Image) (size count : Nat) : Prop where
  length : image.bytes.length = count * size
  two : 2 ≤ count
  header : ∀ i < count, beField image.bytes (i * size) 4 = EC_HDR_MAGIC
  nowhere : ∀ boundary ∈ PEB_SIZES, ¬size ∣ boundary →
    beField image.bytes boundary 4 ≠ EC_HDR_MAGIC

section

variable {image : Image} {size count : Nat}

theorem four_le_of_mem {size : Nat} (h : size ∈ PEB_SIZES) : 4 ≤ size := by
  revert size
  decide

/-- The headers at the candidates are those of the blocks. -/
theorem Blocks.hasMagic_iff (h : Blocks image size count) (hsize : size ∈ PEB_SIZES) {boundary : Nat}
    (hboundary : boundary ∈ PEB_SIZES) :
    HasMagic image.bytes EC_HDR_MAGIC boundary ↔ size ∣ boundary ∧ boundary < count * size := by
  have hfour := four_le_of_mem hsize
  constructor
  · rintro ⟨hend, hmagic⟩
    rw [h.length] at hend
    refine ⟨?_, by omega⟩
    by_contra hdvd
    exact h.nowhere boundary hboundary hdvd hmagic
  · rintro ⟨⟨i, rfl⟩, hlt⟩
    rw [Nat.mul_comm size i] at hlt ⊢
    have hi : i < count := Nat.lt_of_mul_lt_mul_right hlt
    have hend := Nat.mul_le_mul_right size (Nat.succ_le_of_lt hi)
    rw [Nat.succ_mul] at hend
    exact ⟨by rw [h.length]; omega, h.header i hi⟩

theorem Blocks.hasMagic_zero (h : Blocks image size count) (hsize : size ∈ PEB_SIZES) :
    HasMagic image.bytes EC_HDR_MAGIC 0 := by
  have hfour := four_le_of_mem hsize
  have htwo := Nat.mul_le_mul_right size h.two
  have hfirst := h.header 0 (Nat.lt_of_lt_of_le Nat.two_pos h.two)
  rw [Nat.zero_mul] at hfirst
  exact ⟨by rw [h.length]; omega, hfirst⟩

/-- What the probe finds: the first candidate that is a boundary of the blocks. -/
theorem Blocks.pebSize_eq (h : Blocks image size count) (hsize : size ∈ PEB_SIZES) {boundary : Nat}
    (before after : List Nat) (hsplit : PEB_SIZES = before ++ boundary :: after)
    (hbefore : ∀ b ∈ before, ¬(size ∣ b ∧ b < count * size))
    (hdvd : size ∣ boundary) (hlt : boundary < count * size) : pebSize image.bytes = boundary := by
  have hmem : ∀ b ∈ before ++ boundary :: after, b ∈ PEB_SIZES := fun b hb => hsplit ▸ hb
  have hfind : PEB_SIZES.find? (fun b => decide (HasMagic image.bytes EC_HDR_MAGIC b)) =
      some boundary := by
    refine List.find?_eq_some_iff_append.mpr ⟨?_, before, after, hsplit, fun b hb => ?_⟩
    · exact decide_eq_true ((h.hasMagic_iff hsize (hmem boundary (by simp))).mpr ⟨hdvd, hlt⟩)
    · rw [Bool.not_eq_true', decide_eq_false_iff_not,
        h.hasMagic_iff hsize (hmem b (List.mem_append_left _ hb))]
      exact hbefore b hb
  rw [pebSize, hfind, Option.getD_some]

/-- A size is found when no candidate before it is a multiple of it. -/
theorem Blocks.pebSize_self (h : Blocks image size count) (before after : List Nat)
    (hsplit : PEB_SIZES = before ++ size :: after) (hbefore : ∀ b ∈ before, ¬size ∣ b) :
    pebSize image.bytes = size := by
  have hsize : size ∈ PEB_SIZES := by
    rw [hsplit]
    exact List.mem_append_right _ List.mem_cons_self
  have hpos := four_le_of_mem hsize
  have hle := Nat.mul_le_mul_right size h.two
  exact h.pebSize_eq hsize before after hsplit (fun b hb hand => hbefore b hb hand.1) dvd_rfl
    (by omega)

end

/-- **The size that is detected** is that of the blocks exactly when it is not 64 KiB, or there are
only two blocks: 128 KiB is probed first, and is a boundary of smaller blocks too. -/
theorem detectPebSize_iff (image : Image) (size count : Nat) (hsize : size ∈ PEB_SIZES)
    (h : Blocks image size count) :
    detectPebSize (fileReader image) = .ok size ↔ size ≠ 64 * 1024 ∨ count = 2 := by
  rw [detectPebSize_eq_ok, and_iff_right (h.hasMagic_zero hsize)]
  have hmem := hsize
  simp only [PEB_SIZES, List.mem_cons, List.not_mem_nil, or_false] at hmem
  rcases hmem with rfl | rfl | rfl | rfl | rfl
  · exact iff_of_true (h.pebSize_self [] _ rfl (by decide)) (.inl (by decide))
  · exact iff_of_true (h.pebSize_self [_] _ rfl (by decide)) (.inl (by decide))
  · exact iff_of_true (h.pebSize_self [_, _] _ rfl (by decide)) (.inl (by decide))
  · -- the candidates before 64 KiB are boundaries too, if there are so many blocks
    have hnever : ¬(64 * 1024 ≠ 64 * 1024) := fun hne => hne rfl
    have htwo := h.two
    by_cases hcount : count = 2
    · subst hcount
      exact iff_of_true (h.pebSize_eq hsize [_, _, _] _ rfl (by decide) dvd_rfl (by decide)) (.inr rfl)
    · have hfound : pebSize image.bytes = 128 * 1024 :=
        h.pebSize_eq hsize [] _ rfl (by simp) (by decide) (by omega)
      rw [hfound]
      exact iff_of_false (by decide) fun hor => hor.elim hnever hcount
  · exact iff_of_true (h.pebSize_self [_, _, _, _] _ rfl (by decide)) (.inl (by decide))

/-- An erased block of 64 KiB, with its header. -/
def erasedBlock : Bytes := [0x55, 0x42, 0x49, 0x23] ++ List.replicate (64 * 1024 - 4) 0

theorem length_erasedBlock : erasedBlock.length = 64 * 1024 := by
  rw [erasedBlock, List.length_append, List.length_replicate]
  rfl

/-- An image of erased blocks. -/
def erasedBytes (count : Nat) : Bytes := (List.replicate count erasedBlock).flatten

theorem length_erasedBytes (count : Nat) : (erasedBytes count).length = count * (64 * 1024) := by
  have hlength : ∀ b ∈ List.replicate count erasedBlock, b.length = 64 * 1024 := fun b hb => by
    rw [List.eq_of_mem_replicate hb, length_erasedBlock]
  rw [erasedBytes, List.length_flatten_of_length hlength, List.length_replicate]

theorem erasedBytes_split {i count : Nat} (h : i < count) :
    erasedBytes count = erasedBytes i ++ (erasedBlock ++ erasedBytes (count - i - 1)) := by
  obtain ⟨k, rfl⟩ := Nat.exists_eq_add_of_lt h
  have hk : i + k + 1 - i - 1 = k := by omega
  rw [hk, erasedBytes, Nat.add_assoc, List.replicate_add, List.flatten_append, List.replicate_succ,
    List.flatten_cons]
  rfl

/-- All sizes that are probed are boundaries of blocks of 64 KiB. -/
theorem blocks_erased {image : Image} {count : Nat} (himage : image.bytes = erasedBytes count)
    (hcount : 2 ≤ count) : Blocks image (64 * 1024) count where
  length := by rw [himage, length_erasedBytes]
  two := hcount
  header i hi := by
    have hlength := length_erasedBytes i
    rw [himage, erasedBytes_split hi, beField, ← hlength, ← Nat.add_zero (erasedBytes i).length,
      List.slice_append_right _ rfl]
    rfl
  nowhere boundary hboundary hdvd := by
    have hall : ∀ boundary ∈ PEB_SIZES, 64 * 1024 ∣ boundary := by decide
    exact absurd (hall boundary hboundary) hdvd

def twoErased : Image := ⟨erasedBytes 2, by rw [length_erasedBytes]; decide⟩

def threeErased : Image := ⟨erasedBytes 3, by rw [length_erasedBytes]; decide⟩

/-- **Three blocks of 64 KiB** are taken for blocks of 128 KiB. -/
theorem small_blocks_missed :
    Blocks threeErased (64 * 1024) 3 ∧
      detectPebSize (fileReader threeErased) = .ok (128 * 1024) := by
  have hblocks : Blocks threeErased (64 * 1024) 3 := blocks_erased rfl (by decide)
  have hmem : 64 * 1024 ∈ PEB_SIZES := by decide
  refine ⟨hblocks, detectPebSize_eq_ok.mpr ⟨hblocks.hasMagic_zero hmem, ?_⟩⟩
  exact hblocks.pebSize_eq hmem [] _ rfl (by decide) (by decide) (by decide)

theorem two_blocks_found : detectPebSize (fileReader twoErased) = .ok (64 * 1024) :=
  (detectPebSize_iff twoErased (64 * 1024) 2 (by decide) (blocks_erased rfl (by decide))).mpr (.inr rfl)

end Mountin.Ubi
